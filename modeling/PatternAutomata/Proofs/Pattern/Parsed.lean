import PatternAutomata.Proofs.Pattern.Balance
import PatternAutomata.Proofs.Pattern.Derived
import PatternAutomata.Proofs.Pattern.Taken

/-! Every text that is parsed is derived, since misplaced tokens leave operands missing. -/

namespace PatternAutomata

open Outcome PlacedToken

section Grow

variable {text suffix : List Char} {tree : Tree}

/-- What may follow a piece within it may follow a branch within it. -/
theorem Derives.branch_append (grow : ∀ {text tree}, Derives .piece text tree →
      ∃ larger, Derives .piece (text ++ suffix) larger)
    (derives : Derives .branch text tree) : ∃ larger, Derives .branch (text ++ suffix) larger := by
  -- Only the last piece grows.
  cases derives with
  | branch piece =>
    obtain ⟨larger, grown⟩ := grow piece
    exact ⟨larger, Derives.branch grown⟩
  | concat head tail =>
    obtain ⟨larger, grown⟩ := grow tail
    rw [List.append_assoc]
    exact ⟨_, Derives.concat head grown⟩

/-- What may follow a branch within it may follow a pattern within it. -/
theorem Derives.pattern_append (grow : ∀ {text tree}, Derives .branch text tree →
      ∃ larger, Derives .branch (text ++ suffix) larger)
    (derives : Derives .pattern text tree) :
    ∃ larger, Derives .pattern (text ++ suffix) larger := by
  -- Only the last branch grows.
  cases derives with
  | pattern branch =>
    obtain ⟨larger, grown⟩ := grow branch
    exact ⟨larger, Derives.pattern grown⟩
  | union head tail =>
    obtain ⟨larger, grown⟩ := grow tail
    rw [List.append_assoc]
    exact ⟨_, Derives.union head grown⟩

end Grow

/-- What has been written in a group so far, and whether an operand has just ended there. -/
inductive Inner : Bool → List Char → Prop where
  /-- Nothing has been written. -/
  | nothing : Inner false []
  /-- A pattern has been written that may be continued. -/
  | operand {text : List Char} {tree : Tree} (derives : Derives .pattern text tree) :
      Inner true text
  /-- A pattern and a bar have been written. -/
  | bar {text : List Char} {tree : Tree} (derives : Derives .pattern text tree) :
      Inner false (text ++ ['|'])

/-- What has been written up to the beginning of the innermost group, with the groups counted. -/
inductive Outer : Nat → List Char → Prop where
  /-- No group is open. -/
  | nothing : Outer 0 []
  /-- One more group is opened. -/
  | group {depth : Nat} {outer inner : List Char} {ended : Bool} (before : Outer depth outer)
      (within : Inner ended inner) : Outer (depth + 1) (outer ++ inner ++ ['('])

namespace Inner

variable {ended : Bool} {inner text : List Char} {tree : Tree}

/-- An atom may be written anywhere. -/
theorem atom (within : Inner ended inner) (derives : Derives .atom text tree) :
    Inner true (inner ++ text) := by
  have piece := Derives.piece derives
  cases within with
  -- Only the part in the innermost group grows.
  | nothing => exact Inner.operand (Derives.pattern (Derives.branch piece))
  | operand before =>
    -- Behind an operand the atom continues the last branch.
    obtain ⟨_, grown⟩ := before.pattern_append fun branch => ⟨_, Derives.concat branch piece⟩
    exact Inner.operand grown
  | bar before =>
    -- Behind a bar it is a branch of its own.
    rw [List.append_assoc]
    exact Inner.operand (Derives.union before (Derives.branch piece))

/-- What may follow every piece within it may be written behind an operand. -/
theorem suffix {suffix : List Char} (grow : ∀ {text tree}, Derives .piece text tree →
      ∃ larger, Derives .piece (text ++ suffix) larger)
    (within : Inner true inner) : Inner true (inner ++ suffix) := by
  cases within with
  | operand before =>
    -- The last piece of the last branch grows.
    obtain ⟨_, grown⟩ := before.pattern_append fun branch => branch.branch_append grow
    -- Only the last piece in the innermost group grows.
    exact Inner.operand grown

end Inner

/-- A text can be continued to a pattern, with some groups open and an operand just ended or not. -/
def Placed (depth : Nat) (ended : Bool) (text : List Char) : Prop :=
  ∃ outer inner, Outer depth outer ∧ Inner ended inner ∧ outer ++ inner = text

namespace Placed

variable {depth : Nat} {ended : Bool} {before text : List Char} {tree : Tree}

/-- An atom may be written anywhere. -/
theorem atom (placed : Placed depth ended before) (derives : Derives .atom text tree) :
    Placed depth true (before ++ text) := by
  obtain ⟨outer, inner, around, within, whole⟩ := placed
  rw [← whole, List.append_assoc]
  exact ⟨outer, _, around, within.atom derives, rfl⟩

/-- A group may be opened anywhere. -/
theorem opening (placed : Placed depth ended before) :
    Placed (depth + 1) false (before ++ ['(']) := by
  obtain ⟨outer, inner, around, within, whole⟩ := placed
  rw [← whole]
  -- All that has been read so far is now around the new group.
  exact ⟨_, [], Outer.group around within, Inner.nothing, List.append_nil _⟩

/-- A group may be closed behind an operand in it. -/
theorem closing (placed : Placed (depth + 1) true before) :
    Placed depth true (before ++ [')']) := by
  obtain ⟨_, _, around, within, whole⟩ := placed
  cases around with
  | @group _ outer inner _ around beside =>
    cases within with
    | @operand text _ derives =>
      -- The group is an atom of what was written before it was opened.
      refine ⟨outer, _, around, beside.atom (Derives.group derives), ?_⟩
      rw [← whole]
      simp

/-- A bar may be written behind an operand. -/
theorem union (placed : Placed depth true before) : Placed depth false (before ++ ['|']) := by
  obtain ⟨outer, _, around, within, whole⟩ := placed
  -- An operand has ended, so there is a branch for the bar to follow.
  cases within with
  | operand derives =>
    rw [← whole, List.append_assoc]
    exact ⟨outer, _, around, Inner.bar derives, rfl⟩

/-- What may follow every piece within it may be written behind an operand. -/
theorem suffix {suffix : List Char} (grow : ∀ {text tree}, Derives .piece text tree →
      ∃ larger, Derives .piece (text ++ suffix) larger)
    (placed : Placed depth true before) : Placed depth true (before ++ suffix) := by
  obtain ⟨outer, inner, around, within, whole⟩ := placed
  rw [← whole, List.append_assoc]
  exact ⟨outer, _, around, within.suffix grow, rfl⟩

/-- An operand that has ended outside all groups is a pattern. -/
theorem derives (placed : Placed 0 true before) : ∃ tree, Derives .pattern before tree := by
  obtain ⟨_, _, around, within, whole⟩ := placed
  -- Without open groups the text is what has been written in the outermost one.
  cases around with
  | nothing =>
    cases within with
    | operand derives =>
      rw [← whole, List.nil_append]
      exact ⟨_, derives⟩

/-- A written token may come next if it begins an operand or comes behind one. -/
theorem token {token : Token} {depth' : Nat} (placed : Placed depth ended before)
    (form : WrittenFor text token) (fits : token.beginsOperand || ended)
    (level : depth' + token.closes = depth + token.opens) :
    Placed depth' token.endsOperand (before ++ text) := by
  cases form with
  | plain plain =>
    have same : depth' = depth := level
    exact same ▸ placed.atom (Derives.plain plain)
  | escaped c =>
    have same : depth' = depth := level
    exact same ▸ placed.atom (Derives.escaped c)
  | opening =>
    have deeper : depth' = depth + 1 := level
    exact deeper ▸ placed.opening
  | closing =>
    have shallower : depth' + 1 = depth := level
    subst shallower
    -- The end of a group begins no operand, so it fits only behind one.
    cases fits
    exact placed.closing
  | union =>
    have same : depth' = depth := level
    cases fits
    exact same ▸ placed.union
  | star =>
    have same : depth' = depth := level
    cases fits
    exact same ▸ placed.suffix fun piece => ⟨_, Derives.star piece⟩
  | plus =>
    have same : depth' = depth := level
    cases fits
    exact same ▸ placed.suffix fun piece => ⟨_, Derives.plus piece⟩

end Placed

/-- A token takes away what it adds, once the end of an operand is counted before and behind it. -/
theorem WrittenFor.weigh {text : List Char} {token : Token} (form : WrittenFor text token)
    (ended : Bool) :
    token.gain + ended.toNat + (!(token.beginsOperand || ended)).toNat =
      token.loss + (ended && token.beginsOperand).toNat + token.endsOperand.toNat := by
  -- Every token is weighed, with an operand before it and without.
  cases form <;> cases ended <;> rfl

namespace Reading

open Pending

/--
There are never more operands than the waiting operators need and the last one that ended.

As long as there are as many, every token has been well placed.
-/
structure Balanced (before : List Char) (ended : Bool) (x : Reading (List Tree)) : Prop where
  /-- The operands are needed. -/
  bounded : x.operands.length ≤ debt x.pending + ended.toNat
  /-- If none is missing, the text can be continued to a pattern. -/
  placed : x.operands.length = debt x.pending + ended.toNat →
    Placed (depth x.pending) ended before

/-- A token and the concatenation in front of it change the numbers as each of them does. -/
theorem balance_joined {ended : Bool} {placed : PlacedToken} {x y : Reading (List Tree)}
    (ran : (joinedAfter ended [placed]).foldlM step x = .ok y) :
    y.operands.length + debt x.pending + placed.token.loss +
        (ended && placed.token.beginsOperand).toNat =
      x.operands.length + debt y.pending + placed.token.gain ∧
    depth y.pending + placed.token.closes = depth x.pending + placed.token.opens := by
  rw [joinedAfter] at ran
  split at ran
  · -- A concatenation is put in front, and opens or closes no group.
    rename_i both
    obtain ⟨z, joined, ran⟩ := bind_eq_ok.mp ran
    obtain ⟨y, stepped, ran⟩ := bind_eq_ok.mp ran
    cases ran
    have first := balance_step joined
    have second := balance_step stepped
    simp only [Token.loss, Token.gain, Token.opens, Token.closes, Operator.merges] at first
    simp only [both.1, both.2]
    simp
    omega
  · rename_i either
    obtain ⟨y, stepped, ran⟩ := bind_eq_ok.mp ran
    cases ran
    have only := balance_step stepped
    have absent : (ended && placed.token.beginsOperand) = false := by simpa using either
    rw [absent]
    exact only

/-- A token keeps the balance, or loses it for good where it is misplaced. -/
theorem preserves_balanced : Preserves Balanced := by
  intro before ended x text placed y balanced form _ ran
  obtain ⟨bounded, continued⟩ := balanced
  obtain ⟨paid, level⟩ := balance_joined ran
  have weighed := form.weigh ended
  refine ⟨by omega, fun full => ?_⟩
  -- Nothing was missing before, and the token is not misplaced.
  have fits : (!(placed.token.beginsOperand || ended)).toNat = 0 := by omega
  refine (continued (by omega)).token form ?_ level
  rwa [Bool.toNat_eq_zero, Bool.not_eq_false'] at fits

/-- The balance that a pattern has kept when it leaves some trees. -/
theorem balanced_ofPattern {pattern : List Char} {trees : List Tree}
    (read : ofPattern ([] : List Tree) pattern = .ok trees) :
    ∃ ended x, Balanced pattern ended x ∧ trees.length + debt x.pending = x.operands.length ∧
      depth x.pending = 0 := by
  -- At first nothing has been read, and in the end there is no debt.
  have initial : Balanced [] false ⟨[], []⟩ :=
    ⟨Nat.le_refl 0, fun _ => ⟨[], [], Outer.nothing, Inner.nothing, rfl⟩⟩
  obtain ⟨_, ended, x, balanced, finished⟩ := preserves_balanced.ofPattern initial read
  exact ⟨ended, x, balanced, balance_finish finished⟩

/-- A pattern leaves at most one tree. -/
theorem length_le_one_of_ofPattern {pattern : List Char} {trees : List Tree}
    (read : ofPattern ([] : List Tree) pattern = .ok trees) : trees.length ≤ 1 := by
  obtain ⟨ended, x, balanced, paid, _⟩ := balanced_ofPattern read
  -- There are never more operands than are waited for, and one.
  have bounded := balanced.bounded
  have last : ended.toNat ≤ 1 := Bool.toNat_le ended
  omega

end Reading

namespace Tree

/-- A pattern that is parsed is derived. -/
theorem exists_derives_of_parse {pattern : String} {tree : Tree}
    (parsed : parse pattern = .ok tree) : ∃ tree, Derives .pattern pattern.toList tree := by
  obtain ⟨trees, read, single⟩ := bind_eq_ok.mp parsed
  obtain ⟨ended, x, ⟨bounded, placed⟩, paid, closed⟩ := Reading.balanced_ofPattern read
  rw [sole_eq_ok_iff.mp single, List.length_singleton] at paid
  cases ended with
  | false =>
    -- Without an operand at the end there would be no tree.
    rw [Bool.toNat_false] at bounded
    omega
  | true =>
    rw [Bool.toNat_true, closed] at placed
    exact (placed (by omega)).derives

/-- The grammar says which patterns are parsed, and to what. -/
theorem parse_eq_ok_iff {pattern : String} {tree : Tree} :
    parse pattern = .ok tree ↔ Derives .pattern pattern.toList tree := by
  constructor
  · intro parsed
    obtain ⟨other, derives⟩ := exists_derives_of_parse parsed
    -- A derived pattern is parsed to its tree, so there is only one tree.
    have again := derives.parse_eq
    rw [parsed] at again
    cases again
    exact derives
  · exact Derives.parse_eq

end Tree

end PatternAutomata
