import PatternAutomata.Pattern.Parse
import PatternAutomata.Proofs.Pattern.Reading
import PatternAutomata.Proofs.Pattern.Token

/-! Every text that the grammar derives for a tree is parsed to this tree. -/

namespace PatternAutomata

open Outcome PlacedToken

/-- How tightly the operators bind that a text of a level leaves to be applied. -/
def Level.rank : Level → Nat
  | pattern => 1
  | branch => 2
  | piece => 3
  | atom => 4

namespace Tree

/-- Applies operators that wait, the latest first. -/
def applyAll : List (Operator × Nat) → List Tree → Except Error (List Tree)
  | [], trees => .ok trees
  | (operator, position) :: rest, trees => do
    -- The first operator takes what the ones before the list have left.
    applyAll rest (← applyLatest trees operator position)

/-- Operators are applied one list after the other. -/
theorem applyAll_append (first second : List (Operator × Nat)) (trees : List Tree) :
    applyAll (first ++ second) trees = (applyAll first trees >>= applyAll second) := by
  -- The first operator that lacks an operand ends both sides.
  induction first generalizing trees with
  | nil => rfl
  | cons placed rest ih =>
    rw [List.cons_append, applyAll, applyAll]
    cases applyLatest trees placed.1 placed.2 with
    | error error => rfl
    | ok combined => exact ih combined

end Tree

namespace Reading

open PatternAutomata.Tree

/-- An operator that comes first among what waits binds less tightly than some precedence. -/
def Blocks (rank : Nat) : List Pending → Prop
  | .operator waiting _ :: _ => waiting.precedence < rank
  | _ => True

/-- Applying the operators that wait in front of the rest leaves one more tree. -/
structure Owes (rank : Nat) (x : Reading (List Tree)) (operators : List (Operator × Nat))
    (tree : Tree) (trees : List Tree) (pending : List Pending) : Prop where
  /-- The operators wait in front of the rest. -/
  waiting : x.pending = operators.map (fun placed => .operator placed.1 placed.2) ++ pending
  /-- Each of them binds at least as tightly as some precedence. -/
  tight : ∀ placed ∈ operators, rank ≤ placed.1.precedence
  /-- Together they leave the tree on top of the others. -/
  leaves : applyAll operators x.operands = .ok (tree :: trees)

variable {rank low : Nat} {x : Reading (List Tree)} {operators : List (Operator × Nat)}
  {tree : Tree} {trees : List Tree} {pending : List Pending}

/-- What blocks a low precedence blocks a higher one. -/
theorem Blocks.mono (blocks : Blocks low pending) (higher : low ≤ rank) : Blocks rank pending := by
  cases pending with
  | nil => trivial
  | cons top rest =>
    -- A group blocks everything, and an operator all that binds more than it does.
    cases top with
    | group opened => trivial
    | operator waiting place => exact Nat.lt_of_lt_of_le blocks higher

/-- Nothing is owed once the tree is there. -/
theorem owes_nil : Owes rank ⟨tree :: trees, pending⟩ [] tree trees pending where
  waiting := rfl
  tight _ listed := absurd listed List.not_mem_nil
  leaves := rfl

namespace Owes

/-- Operators that bind tightly also bind loosely enough. -/
theorem mono (owes : Owes rank x operators tree trees pending) (lower : low ≤ rank) :
    Owes low x operators tree trees pending :=
  { owes with tight := fun placed listed => Nat.le_trans lower (owes.tight placed listed) }

/-- Whatever applies the operators that are owed one by one goes on with the tree and the rest. -/
theorem settle {σ : Type} (owes : Owes rank x operators tree trees pending)
    (settles : List Pending → List Tree → Except Error σ)
    (one : ∀ placed ∈ operators, ∀ rest operands,
      settles (.operator placed.1 placed.2 :: rest) operands =
        (applyLatest operands placed.1 placed.2 >>= settles rest)) :
    settles x.pending x.operands = settles pending (tree :: trees) := by
  obtain ⟨waiting, -, leaves⟩ := owes
  rw [waiting]
  clear waiting
  generalize x.operands = operands at leaves
  -- Each operator is applied to what those in front of it have left.
  induction operators generalizing operands with
  | nil =>
    cases leaves
    rfl
  | cons placed rest ih =>
    obtain ⟨combined, applied, leaves⟩ := bind_eq_ok.mp leaves
    have onward := ih (fun later listed => one later (List.mem_cons_of_mem _ listed)) combined
      leaves
    rw [List.map_cons, List.cons_append, one placed List.mem_cons_self, applied, ok_bind, onward]

/-- An operator that binds no tighter has all that is owed applied. -/
theorem applyTighter (owes : Owes rank x operators tree trees pending) {operator : Operator}
    (looser : operator.precedence ≤ rank) (blocks : Blocks operator.precedence pending) :
    Reading.applyTighter operator x.pending x.operands = .ok ⟨tree :: trees, pending⟩ := by
  rw [owes.settle (Reading.applyTighter operator) fun placed listed rest operands =>
    if_neg (Nat.not_lt.mpr (Nat.le_trans looser (owes.tight placed listed)))]
  -- What comes next blocks, or is no operator.
  cases pending with
  | nil => rfl
  | cons top rest =>
    cases top with
    | group opened => rfl
    | operator waiting place => exact if_pos blocks

/-- The end of a group has all that is owed applied. -/
theorem closeGroup {opened position : Nat}
    (owes : Owes rank x operators tree trees (.group opened :: pending))
    (apart : opened + 1 ≠ position) :
    Reading.closeGroup position x.pending x.operands = .ok ⟨tree :: trees, pending⟩ := by
  -- All that is owed inside of the group is settled before the group is looked at.
  rw [owes.settle (Reading.closeGroup position) fun _ _ _ _ => rfl]
  exact if_neg apart

/-- The end of a pattern has all that is owed applied. -/
theorem finish (owes : Owes rank x operators tree trees []) :
    Reading.finish x.pending x.operands = .ok (tree :: trees) := by
  -- All that is owed is settled, and then nothing waits any more.
  rw [owes.settle Reading.finish fun _ _ _ _ => rfl]
  rfl

end Owes

/-- Some tokens are there, and an operand begins with the first of them. -/
def Begins (tokens : List PlacedToken) : Prop :=
  ∃ first rest, tokens = first :: rest ∧ first.token.beginsOperand = true

/-- What begins with an operand still does so when it is continued. -/
theorem Begins.append {tokens : List PlacedToken} (begins : Begins tokens)
    (more : List PlacedToken) : Begins (tokens ++ more) := by
  obtain ⟨first, rest, whole, begins⟩ := begins
  exact ⟨first, rest ++ more, by rw [whole, List.cons_append], begins⟩

/-- An operator waits as soon as all that is tighter has been applied. -/
theorem step_operator {operator : Operator} {position : Nat} {y : Reading (List Tree)}
    (applied : applyTighter operator x.pending x.operands = .ok y) :
    x.step ⟨.operator operator, position⟩ =
      .ok ⟨y.operands, .operator operator position :: y.pending⟩ :=
  bind_ok applied rfl

/-- Tokens of an operand, which put its tree on top as soon as all that waits for it is applied. -/
structure Delivers (rank : Nat) (tokens : List PlacedToken) (tree : Tree) : Prop where
  /-- An operand begins with the first token. -/
  begins : Begins tokens
  /-- An operand ends with the last token. -/
  ends : endsAfter false tokens = true
  /-- Whatever there is and waits loosely enough, the tree is owed after the last token. -/
  owes : ∀ trees pending, Blocks rank pending → ∃ x operators,
    (joinedAfter false tokens).foldlM step ⟨trees, pending⟩ = .ok x ∧
      Owes rank x operators tree trees pending

namespace Delivers

variable {tokens first second : List PlacedToken} {left right inner out : Tree} {position : Nat}

/-- What is delivered to all that is looser than a precedence is delivered to all still looser. -/
theorem mono (delivers : Delivers rank tokens tree) (lower : low ≤ rank) :
    Delivers low tokens tree where
  begins := delivers.begins
  ends := delivers.ends
  owes trees pending blocks := by
    -- What blocks the lower rank blocks the higher one as well.
    obtain ⟨x, operators, ran, owes⟩ := delivers.owes trees pending (blocks.mono lower)
    exact ⟨x, operators, ran, owes.mono lower⟩

/-- A character delivers itself. -/
theorem literal (c : Char) (position : Nat) :
    Delivers rank [⟨.literal c, position⟩] (.literal c) where
  begins := ⟨_, _, rfl, rfl⟩
  ends := rfl
  owes _ _ _ := ⟨_, [], rfl, owes_nil⟩

/-- A group delivers the tree of what it encloses, and nothing is left to wait for. -/
theorem group (delivers : Delivers low tokens tree) {opened closed : Nat}
    (apart : opened + 1 ≠ closed) :
    Delivers rank (⟨.opening, opened⟩ :: (tokens ++ [⟨.closing, closed⟩])) tree where
  begins := ⟨_, _, rfl, rfl⟩
  ends := by
    show endsAfter false (tokens ++ [_]) = true
    rw [endsAfter_append]
    rfl
  owes trees pending _ := by
    -- Inside the group nothing waits, so the inner tree is owed just before the group is closed.
    obtain ⟨x, operators, ran, owes⟩ := delivers.owes trees (.group opened :: pending) trivial
    refine ⟨_, [], ?_, owes_nil⟩
    show (joinedAfter false (tokens ++ [_])).foldlM step ⟨trees, .group opened :: pending⟩ = _
    rw [joinedAfter_append, delivers.ends, List.foldlM_append, ran, ok_bind]
    exact bind_ok (owes.closeGroup apart) rfl

/-- A repetition waits behind the tree that it repeats. -/
theorem repetition (delivers : Delivers Level.piece.rank tokens inner) {operator : Operator}
    (tight : operator.precedence = Level.piece.rank)
    (ends : (Token.operator operator).endsOperand = true)
    (applies : ∀ trees, applyLatest (inner :: trees) operator position = .ok (out :: trees)) :
    Delivers Level.piece.rank (tokens ++ [⟨.operator operator, position⟩]) out where
  begins := delivers.begins.append _
  ends := by
    rw [endsAfter_append]
    exact ends
  owes trees pending blocks := by
    -- Earlier repetitions bind as tightly, so they are applied before this one waits.
    obtain ⟨x, operators, ran, owes⟩ := delivers.owes trees pending blocks
    have applied := owes.applyTighter (Nat.le_of_eq tight) (tight ▸ blocks)
    refine ⟨⟨inner :: trees, .operator operator position :: pending⟩, [(operator, position)], ?_,
      rfl, ?_, ?_⟩
    · rw [joinedAfter_append, delivers.ends, List.foldlM_append, ran, ok_bind]
      exact bind_ok (step_operator applied) rfl
    · intro placed listed
      rw [List.mem_singleton.mp listed]
      exact Nat.le_of_eq tight.symm
    · exact bind_ok (applies trees) rfl

/-- A star waits behind the tree that it repeats. -/
theorem star (delivers : Delivers Level.piece.rank tokens inner) (position : Nat) :
    Delivers Level.piece.rank (tokens ++ [⟨.operator .star, position⟩]) (.star inner) :=
  delivers.repetition rfl rfl fun _ => rfl

/-- A plus waits behind the tree that it repeats. -/
theorem plus (delivers : Delivers Level.piece.rank tokens inner) (position : Nat) :
    Delivers Level.piece.rank (tokens ++ [⟨.operator .plus, position⟩]) (.plus inner) :=
  delivers.repetition rfl rfl fun _ => rfl

/-- An operator between two operands waits behind all that is owed for the second. -/
theorem between (head : Delivers rank first left) (tail : Delivers (rank + 1) second right)
    {operator : Operator} (tight : operator.precedence = rank)
    (applies : ∀ trees, applyLatest (right :: left :: trees) operator position = .ok (out :: trees))
    (trees : List Tree) (pending : List Pending) (blocks : Blocks rank pending) :
    ∃ x operators, (joinedAfter false first ++ ⟨.operator operator, position⟩ ::
        joinedAfter false second).foldlM step ⟨trees, pending⟩ = .ok x ∧
      Owes rank x operators out trees pending := by
  obtain ⟨x, earlier, ranFirst, owesLeft⟩ := head.owes trees pending blocks
  have applied := owesLeft.applyTighter (Nat.le_of_eq tight) (tight ▸ blocks)
  -- The operator itself is loose enough to wait while the second operand is read.
  have waits : Blocks (rank + 1) (.operator operator position :: pending) :=
    Nat.lt_succ_of_le (Nat.le_of_eq tight)
  obtain ⟨y, operators, ranSecond, owesRight⟩ := tail.owes (left :: trees) _ waits
  refine ⟨y, operators ++ [(operator, position)], ?_, ?_, ?_, ?_⟩
  · rw [List.foldlM_append, ranFirst, ok_bind]
    exact bind_ok (step_operator applied) ranSecond
  · rw [owesRight.waiting]
    simp
  · intro placed listed
    rcases List.mem_append.mp listed with listed | last
    · exact Nat.le_of_succ_le (owesRight.tight placed listed)
    · rw [List.mem_singleton.mp last]
      exact Nat.le_of_eq tight.symm
  · rw [applyAll_append, owesRight.leaves, ok_bind]
    exact bind_ok (applies trees) rfl

/-- Operands side by side are concatenated. -/
theorem concat (head : Delivers Level.branch.rank first left)
    (tail : Delivers Level.piece.rank second right) :
    Delivers Level.branch.rank (first ++ second) (.concat left right) where
  begins := head.begins.append second
  ends := by
    obtain ⟨placed, rest, whole, _⟩ := tail.begins
    have ends := tail.ends
    rw [endsAfter_append, whole]
    rw [whole] at ends
    exact ends
  owes := by
    obtain ⟨placed, rest, whole, begins⟩ := tail.begins
    -- The concatenation is put in front of the second operand.
    have joins : joinedAfter false (first ++ second) = joinedAfter false first ++
        ⟨.operator .concat, placed.position⟩ :: joinedAfter false second := by
      rw [joinedAfter_append, head.ends, whole]
      simp [joinedAfter, begins]
    rw [joins]
    exact head.between tail rfl fun _ => rfl

/-- Operands around a bar are united. -/
theorem union (head : Delivers Level.pattern.rank first left)
    (tail : Delivers Level.branch.rank second right) (position : Nat) :
    Delivers Level.pattern.rank (first ++ ⟨.operator .union, position⟩ :: second)
      (.union left right) where
  begins := head.begins.append _
  ends := by
    rw [endsAfter_append]
    exact tail.ends
  owes := by
    -- A bar begins no operand, and none has ended behind it, so no concatenation is added.
    have joins : joinedAfter false (first ++ ⟨.operator .union, position⟩ :: second) =
        joinedAfter false first ++ ⟨.operator .union, position⟩ :: joinedAfter false second := by
      rw [joinedAfter_append, head.ends]
      rfl
    rw [joins]
    exact head.between tail rfl fun _ => rfl

end Delivers

end Reading

/-- A derived text is taken apart into tokens that deliver its tree. -/
theorem Derives.delivers {level : Level} {text : List Char} {tree : Tree}
    (derives : Derives level text tree) (position : Nat) :
    ∃ tokens, written position text = .ok tokens ∧ Reading.Delivers level.rank tokens tree := by
  induction derives generalizing position with
  | plain plain =>
    refine ⟨_, ?_, Reading.Delivers.literal _ position⟩
    rw [written_of_ne plain.ne_escape, plain.ofChar]
    rfl
  | escaped c => exact ⟨_, rfl, Reading.Delivers.literal c position⟩
  | @group text tree inner ih =>
    obtain ⟨tokens, apart, delivers⟩ := ih (position + 1)
    -- The group is not empty, so its ends are not neighbours.
    have filled : text ≠ [] := by
      intro nothing
      subst nothing
      obtain ⟨first, rest, whole, _⟩ := delivers.begins
      cases apart
      cases whole
    have room : 0 < text.length := List.length_pos_iff.mpr filled
    have spread : position + 1 ≠ position + 1 + text.length := by omega
    refine ⟨_, ?_, delivers.group spread⟩
    rw [List.cons_append, written_of_ne (by decide), written_append apart]
    rfl
  | piece atom ih =>
    obtain ⟨tokens, apart, delivers⟩ := ih position
    exact ⟨tokens, apart, delivers.mono (by decide)⟩
  | @star text _ inner ih =>
    obtain ⟨tokens, apart, delivers⟩ := ih position
    refine ⟨_, ?_, delivers.star (position + text.length)⟩
    rw [written_append apart]
    rfl
  | @plus text _ inner ih =>
    obtain ⟨tokens, apart, delivers⟩ := ih position
    refine ⟨_, ?_, delivers.plus (position + text.length)⟩
    rw [written_append apart]
    rfl
  | branch piece ih =>
    obtain ⟨tokens, apart, delivers⟩ := ih position
    exact ⟨tokens, apart, delivers.mono (by decide)⟩
  | @concat before _ _ _ head tail ihHead ihTail =>
    obtain ⟨first, apartFirst, delivers⟩ := ihHead position
    obtain ⟨second, apartSecond, tail⟩ := ihTail (position + before.length)
    refine ⟨first ++ second, ?_, delivers.concat tail⟩
    rw [written_append apartFirst, apartSecond]
    rfl
  | pattern branch ih =>
    obtain ⟨tokens, apart, delivers⟩ := ih position
    exact ⟨tokens, apart, delivers.mono (by decide)⟩
  | @union before _ _ _ head tail ihHead ihTail =>
    obtain ⟨first, apartFirst, delivers⟩ := ihHead position
    obtain ⟨second, apartSecond, tail⟩ := ihTail (position + before.length + 1)
    refine ⟨_, ?_, delivers.union tail (position + before.length)⟩
    rw [written_append apartFirst, written_of_ne (by decide), apartSecond]
    rfl

/-- A derived pattern is parsed to its tree. -/
theorem Derives.parse_eq {pattern : String} {tree : Tree}
    (derives : Derives .pattern pattern.toList tree) : Tree.parse pattern = .ok tree := by
  obtain ⟨tokens, apart, delivers⟩ := derives.delivers 0
  obtain ⟨x, operators, ran, owes⟩ := delivers.owes [] [] trivial
  obtain ⟨first, rest, filled, _⟩ := delivers.begins
  have read : Reading.ofPattern ([] : List Tree) pattern.toList = .ok [tree] := by
    cases whole : pattern.toList with
    | nil =>
      -- An empty pattern has no tokens.
      rw [whole] at apart
      cases apart
      cases filled
    | cons c later =>
      rw [Reading.ofPattern_cons, PlacedToken.ofPattern, ← whole, apart]
      refine bind_ok rfl ?_
      rw [joined_eq, ran, ok_bind]
      exact owes.finish
  rw [Tree.parse, read]
  rfl

end PatternAutomata
