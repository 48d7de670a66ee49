import PatternAutomata.Proofs.Pattern.Compilation
import PatternAutomata.Proofs.Pattern.Parsed
import PatternAutomata.Proofs.Pattern.Stacked

/-! A pattern that does not compile has a fault with a name, found at a position. -/

namespace PatternAutomata

open Outcome PlacedToken

/-- An error that names a fault in a pattern, and does not only say that there is one. -/
def Error.NamesFault (error : Error) : Prop :=
  ∃ fault position, error = .malformed fault position ∧ fault ≠ .malformedExpression

/-- Every fault but one is a name. -/
theorem Error.namesFault {fault : Fault} (known : fault ≠ .malformedExpression) (position : Nat) :
    (Error.malformed fault position).NamesFault :=
  ⟨fault, position, rfl, known⟩

namespace PlacedToken

/-- A text that cannot be taken apart ends with an escape. -/
theorem namesFault_of_written {position : Nat} {text : List Char} {error : Error}
    (failed : written position text = .error error) : error.NamesFault := by
  -- The only fault in a text itself is a backslash at its end.
  fun_induction written position text with
  | case1 => cases failed
  | case2 =>
    cases failed
    exact Error.namesFault (by decide) _
  | case3 position c rest ih => exact ih (map_eq_error.mp failed)
  | case4 position c rest alone behindEscape ih => exact ih (map_eq_error.mp failed)

end PlacedToken

namespace Reading

variable {pending : List Pending} {trees : List Tree} {x y : Reading (List Tree)} {error : Error}

/-- Nothing but a missing operand keeps an operator from being applied to trees. -/
theorem namesFault_of_applyLatest {operator : Operator} {position : Nat}
    (failed : Tree.applyLatest trees operator position = .error error) : error.NamesFault := by
  have known : Fault.missingOperand operator ≠ .malformedExpression := nofun
  unfold Tree.applyLatest at failed
  -- Too few operands are the only reason to fail.
  split at failed <;> cases failed
  exact Error.namesFault known _

/-- A group that cannot be closed is empty or was never opened, or lacks an operand. -/
theorem namesFault_of_closeGroup {position : Nat}
    (failed : closeGroup position pending trees = .error error) : error.NamesFault := by
  -- By induction on what waits, where each way to fail names its fault.
  induction pending generalizing trees with
  | nil =>
    cases failed
    exact Error.namesFault (by decide) _
  | cons top rest ih =>
    cases top with
    | group opened =>
      unfold closeGroup at failed
      split at failed
      · cases failed
        exact Error.namesFault (by decide) _
      · cases failed
    | operator waiting place =>
      rcases bind_eq_error.mp failed with failed | ⟨combined, _, failed⟩
      · exact namesFault_of_applyLatest failed
      · exact ih failed

/-- Tighter operators that cannot be applied lack an operand. -/
theorem namesFault_of_applyTighter {operator : Operator}
    (failed : applyTighter operator pending trees = .error error) : error.NamesFault := by
  -- By induction on what waits, where only an operator can fail.
  induction pending generalizing trees with
  | nil => cases failed
  | cons top rest ih =>
    cases top with
    | group opened => cases failed
    | operator waiting place =>
      unfold applyTighter at failed
      split at failed
      · cases failed
      · rcases bind_eq_error.mp failed with failed | ⟨combined, _, failed⟩
        · exact namesFault_of_applyLatest failed
        · exact ih failed

/-- A token that cannot be taken in closes a group or is an operator. -/
theorem namesFault_of_step {placed : PlacedToken} (failed : x.step placed = .error error) :
    error.NamesFault := by
  unfold step at failed
  -- An operand or an open group is always taken.
  cases token : placed.token with
  | literal c =>
    rw [token] at failed
    cases failed
  | opening =>
    rw [token] at failed
    cases failed
  | closing =>
    rw [token] at failed
    exact namesFault_of_closeGroup failed
  | operator operator =>
    rw [token] at failed
    rcases bind_eq_error.mp failed with failed | ⟨tightened, _, failed⟩
    · exact namesFault_of_applyTighter failed
    · cases failed

/-- What cannot be settled at the end is an open group, or an operator that lacks an operand. -/
theorem namesFault_of_finish (failed : finish pending trees = .error error) :
    error.NamesFault := by
  -- By induction on what waits, where a group is unclosed and an operator may be stuck.
  induction pending generalizing trees with
  | nil => cases failed
  | cons top rest ih =>
    cases top with
    | group opened =>
      cases failed
      exact Error.namesFault (by decide) _
    | operator waiting place =>
      rcases bind_eq_error.mp failed with failed | ⟨combined, _, failed⟩
      · exact namesFault_of_applyLatest failed
      · exact ih failed

/-- A pattern that cannot be read has a fault. -/
theorem namesFault_of_ofPattern {pattern : List Char}
    (failed : ofPattern ([] : List Tree) pattern = .error error) : error.NamesFault := by
  cases pattern with
  | nil =>
    cases failed
    exact Error.namesFault (by decide) _
  | cons c rest =>
    rw [ofPattern_cons] at failed
    -- The tokens, the steps and the end of the pattern come one after the other.
    rcases bind_eq_error.mp failed with failed | ⟨tokens, _, failed⟩
    · exact namesFault_of_written (map_eq_error.mp failed)
    rcases bind_eq_error.mp failed with failed | ⟨x, _, failed⟩
    · exact foldlM_error (fun _ _ _ failed => namesFault_of_step failed) failed
    · exact namesFault_of_finish failed

/-- Reading goes on with some tree if there is one, since operators only combine trees. -/
theorem alike_nonempty : Alike fun s t : List Tree => s = t ∧ s ≠ [] where
  pushLiteral s t c same := by
    cases same.1
    exact Agree.ok ⟨rfl, List.cons_ne_nil _ _⟩
  apply s t operator position same := by
    cases same.1
    show Agree _ (Tree.applyLatest s operator position) (Tree.applyLatest s operator position)
    -- An operator that finds its operands leaves their combination on top.
    unfold Tree.applyLatest
    split
    · exact Agree.ok ⟨rfl, List.cons_ne_nil _ _⟩
    · exact Agree.ok ⟨rfl, List.cons_ne_nil _ _⟩
    · exact Agree.ok ⟨rfl, List.cons_ne_nil _ _⟩
    · exact Agree.ok ⟨rfl, List.cons_ne_nil _ _⟩
    · exact Agree.error _

/-- There is a tree after a token if there was one before. -/
theorem operands_ne_nil_of_step {placed : PlacedToken} (some : x.operands ≠ [])
    (stepped : x.step placed = .ok y) : y.operands ≠ [] := by
  -- To have operands is a relation of a stack to itself that all steps keep.
  have agree := agree_step alike_nonempty placed (x := x) (y := x) ⟨rfl, rfl, some⟩
  rw [stepped] at agree
  obtain ⟨z, same, level⟩ := agree.ok_left
  exact level.2.2

/-- There is a tree at the end if there was one before. -/
theorem ne_nil_of_finish {settled : List Tree} (some : trees ≠ [])
    (finished : finish pending trees = .ok settled) : settled ≠ [] := by
  -- To have operands is a relation of a stack to itself that all steps keep.
  have agree := agree_finish alike_nonempty pending (s := trees) (t := trees) ⟨rfl, some⟩
  rw [finished] at agree
  obtain ⟨again, same, values⟩ := agree.ok_left
  exact values.2

/-- No operator can be applied without a tree. -/
theorem applyLatest_nil (operator : Operator) (position : Nat) :
    Tree.applyLatest [] operator position =
      .error (.malformed (.missingOperand operator) position) := by
  cases operator <;> rfl

/--
As long as there is no tree, something waits, and a group that waits in front has just been opened.

So nothing that has been written can be finished before a character has been written.
-/
structure Underway (before : List Char) (x : Reading (List Tree)) : Prop where
  /-- Something waits. -/
  waiting : x.operands = [] → before ≠ [] → x.pending ≠ []
  /-- A group has nothing in it yet. -/
  opened : x.operands = [] → ∀ opened rest, x.pending = .group opened :: rest →
    opened + 1 = before.length

/-- Once there is a tree, nothing else is asked for. -/
theorem underway_of_ne_nil (before : List Char) (some : x.operands ≠ []) : Underway before x :=
  ⟨fun none => absurd none some, fun none => absurd none some⟩

/-- While an operator waits in front, nothing else is asked for. -/
theorem underway_of_operator (before : List Char) {operator : Operator} {position : Nat}
    {rest : List Pending} (waits : x.pending = .operator operator position :: rest) :
    Underway before x := by
  -- Something waits, and what waits in front is no group.
  refine ⟨fun _ _ => ?_, fun _ opened rest front => ?_⟩
  · rw [waits]
    exact List.cons_ne_nil _ _
  · rw [waits] at front
    cases front

/-- An operator waits in front as soon as it has been read. -/
theorem pending_of_step_operator {operator : Operator} {position : Nat}
    (stepped : x.step ⟨.operator operator, position⟩ = .ok y) :
    ∃ rest, y.pending = .operator operator position :: rest := by
  -- An operator waits in front once everything that binds more has been applied.
  obtain ⟨tightened, _, stepped⟩ := bind_eq_ok.mp stepped
  cases stepped
  exact ⟨_, rfl⟩

/-- A group cannot be closed as long as there is no tree. -/
theorem operands_ne_nil_of_step_closing {before : List Char} (underway : Underway before x)
    (stepped : x.step ⟨.closing, before.length⟩ = .ok y) : x.operands ≠ [] := by
  intro none
  have opened := underway.opened none
  have closed : closeGroup before.length x.pending x.operands = .ok y := stepped
  rw [none] at closed
  cases waits : x.pending with
  | nil =>
    rw [waits] at closed
    cases closed
  | cons top rest =>
    rw [waits] at closed
    cases top with
    | group position =>
      -- The group has just been opened, so it is empty.
      rw [closeGroup, if_pos (opened position rest waits)] at closed
      cases closed
    | operator waiting place =>
      obtain ⟨combined, applied, _⟩ := bind_eq_ok.mp closed
      have missing : Tree.applyLatest [] waiting place = .ok combined := applied
      rw [applyLatest_nil] at missing
      cases missing

/-- A token by itself leaves something that waits, or a tree. -/
theorem Underway.step {before text : List Char} {placed : PlacedToken}
    (underway : Underway before x) (form : WrittenFor text placed.token)
    (place : placed.position = before.length) (stepped : x.step placed = .ok y) :
    Underway (before ++ text) y := by
  obtain ⟨token, position⟩ := placed
  cases place
  -- One case for each way to write a token, where only an opening bracket leaves nothing behind.
  cases form with
  | plain plain =>
    cases stepped
    exact underway_of_ne_nil _ (List.cons_ne_nil _ _)
  | escaped c =>
    cases stepped
    exact underway_of_ne_nil _ (List.cons_ne_nil _ _)
  | opening =>
    cases stepped
    refine ⟨fun _ _ => List.cons_ne_nil _ _, fun _ opened rest front => ?_⟩
    cases front
    simp
  | closing =>
    have some := operands_ne_nil_of_step_closing underway stepped
    exact underway_of_ne_nil _ (operands_ne_nil_of_step some stepped)
  | union =>
    obtain ⟨rest, waits⟩ := pending_of_step_operator stepped
    exact underway_of_operator _ waits
  | star =>
    obtain ⟨rest, waits⟩ := pending_of_step_operator stepped
    exact underway_of_operator _ waits
  | plus =>
    obtain ⟨rest, waits⟩ := pending_of_step_operator stepped
    exact underway_of_operator _ waits

/-- A token and the concatenation in front of it leave something that waits, or a tree. -/
theorem preserves_underway : Preserves fun before _ x => Underway before x := by
  intro before ended x text placed y underway form place ran
  rw [joinedAfter] at ran
  split at ran
  · -- The concatenation waits when the token is read.
    obtain ⟨z, joined, ran⟩ := bind_eq_ok.mp ran
    obtain ⟨y, stepped, ran⟩ := bind_eq_ok.mp ran
    cases ran
    obtain ⟨rest, waits⟩ := pending_of_step_operator joined
    exact (underway_of_operator before waits).step form place stepped
  · obtain ⟨y, stepped, ran⟩ := bind_eq_ok.mp ran
    cases ran
    exact underway.step form place stepped

/-- A pattern leaves at least one tree. -/
theorem ne_nil_of_ofPattern {pattern : List Char} {settled : List Tree}
    (read : ofPattern ([] : List Tree) pattern = .ok settled) : settled ≠ [] := by
  have initial : Underway [] (⟨[], []⟩ : Reading (List Tree)) :=
    ⟨fun _ filled => absurd rfl filled, fun _ _ _ front => by cases front⟩
  obtain ⟨filled, _, x, underway, finished⟩ := preserves_underway.ofPattern initial read
  by_cases none : x.operands = []
  · -- What waits cannot be settled without a tree.
    have waiting := underway.waiting none filled
    rw [none] at finished
    cases waits : x.pending with
    | nil => exact absurd waits waiting
    | cons top rest =>
      rw [waits] at finished
      cases top with
      | group opened => cases finished
      | operator operator place =>
        obtain ⟨combined, applied, _⟩ := bind_eq_ok.mp finished
        have missing : Tree.applyLatest [] operator place = .ok combined := applied
        rw [applyLatest_nil] at missing
        cases missing
  · exact ne_nil_of_finish none finished

/-- A pattern that can be read leaves exactly one tree. -/
theorem exists_singleton_of_ofPattern {pattern : List Char} {settled : List Tree}
    (read : ofPattern ([] : List Tree) pattern = .ok settled) : ∃ tree, settled = [tree] := by
  -- Something is always left, and never more than one operand.
  have least : 0 < settled.length := List.length_pos_iff.mpr (ne_nil_of_ofPattern read)
  have most := length_le_one_of_ofPattern read
  exact List.length_eq_one_iff.mp (Nat.le_antisymm most least)

end Reading

/-- The operands that a pattern leaves are a single automaton. -/
theorem exists_graphs_eq_singleton {pattern : List Char} {operands : Operands}
    (read : Reading.ofPattern ({} : Operands) pattern = .ok operands) :
    ∃ g, operands.graphs = [g] := by
  have agree := Reading.agree_ofPattern Operands.alike_corresponds Operands.Corresponds.none pattern
  rw [read] at agree
  obtain ⟨trees, parsed, corresponds⟩ := agree.ok_left
  -- As many automata are left as trees.
  obtain ⟨tree, single⟩ := Reading.exists_singleton_of_ofPattern parsed
  subst single
  cases corresponds with
  | more earlier builds =>
    cases earlier with
    | none => exact ⟨_, rfl⟩

/--
A pattern compiles, or a fault in it is named together with its position.

Once a pattern has been read to its end, there is always a single automaton to be given.
If any token could wait, still nothing but operators would be applied.
-/
theorem compile_ok_or_fault (pattern : String) :
    ((∃ g, compile pattern = .ok g) ∨ ∃ fault position,
      compile pattern = .error (.malformed fault position) ∧ fault ≠ .malformedExpression) ∧
    (∀ operands, Reading.ofPattern ({} : Operands) pattern.toList = .ok operands →
      ∃ g, operands.graphs = [g] ∧ compile pattern = .ok g) ∧
    Stacked.compile pattern = compile pattern := by
  have compiles : ∀ operands, Reading.ofPattern ({} : Operands) pattern.toList = .ok operands →
      ∃ g, operands.graphs = [g] ∧ compile pattern = .ok g := by
    intro operands read
    obtain ⟨g, single⟩ := exists_graphs_eq_singleton read
    exact ⟨g, single, bind_ok read (sole_eq_ok_iff.mpr single)⟩
  refine ⟨?_, compiles, Stacked.compile_eq pattern⟩
  cases read : Reading.ofPattern ({} : Operands) pattern.toList with
  | ok operands =>
    obtain ⟨g, _, compiled⟩ := compiles operands read
    exact Or.inl ⟨g, compiled⟩
  | error error =>
    -- The same error is met when trees are put together, where no automaton can be at fault.
    have agree :=
      Reading.agree_ofPattern Operands.alike_corresponds Operands.Corresponds.none pattern.toList
    rw [read] at agree
    obtain ⟨fault, position, same, known⟩ := Reading.namesFault_of_ofPattern agree.error_left
    refine Or.inr ⟨fault, position, ?_, known⟩
    rw [compile, read, same]
    rfl

/-- A union that waits for a repetition on its right is read to its end, so it compiles. -/
theorem compile_ok_or_fault_repetition : ∃ operands,
    Reading.ofPattern ({} : Operands) "a|b*".toList = .ok operands ∧
      ∃ g, operands.graphs = [g] ∧ compile "a|b*" = .ok g :=
  -- Both stacks are used here, and a single operand is left.
  ⟨_, rfl, (compile_ok_or_fault "a|b*").2.1 _ rfl⟩

end PatternAutomata
