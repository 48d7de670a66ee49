import PatternAutomata.Proofs.Pattern.Balance
import PatternAutomata.Proofs.Pattern.Failing

/-! What waits is applied, the latest first, up to a group or to an operator without operands. -/

namespace PatternAutomata

open Outcome PlacedToken

namespace Pending

/-- The positions at which the open groups begin, the latest first. -/
def groups : List Pending → List Nat
  | [] => []
  | .group position :: rest => position :: groups rest
  -- Operators are passed over, whether they wait inside or outside of a group.
  | .operator _ _ :: rest => groups rest

/-- Every group that waits is open. -/
theorem mem_groups {pending : List Pending} {opened : Nat} (waits : .group opened ∈ pending) :
    opened ∈ groups pending := by
  -- By induction on what waits, where operators do not count.
  induction pending with
  | nil => cases waits
  | cons top rest ih =>
    rcases List.mem_cons.mp waits with front | later
    · cases front
      exact List.mem_cons_self
    · cases top with
      | group position => exact List.mem_cons_of_mem _ (ih later)
      | operator waiting position => exact ih later

end Pending

namespace Tree

variable {trees : List Tree} {operator : Operator} {position : Nat} {error : Error}

/-- An operator is applied to trees unless there are too few. -/
theorem applyLatest_eq_error (failed : applyLatest trees operator position = .error error) :
    trees.length ≤ operator.merges ∧ error = .malformed (.missingOperand operator) position := by
  unfold applyLatest at failed
  split at failed
  · cases failed
  · cases failed
  · cases failed
  · cases failed
  · cases failed
    refine ⟨?_, rfl⟩
    -- With one more tree than the operator merges, one of the other cases would have applied.
    rcases trees with _ | ⟨first, _ | ⟨second, rest⟩⟩ <;> cases operator <;>
      simp_all [Operator.merges]

/-- An operator that is applied leaves a tree. -/
theorem ne_nil_of_applyLatest {combined : List Tree}
    (applied : applyLatest trees operator position = .ok combined) : combined ≠ [] := by
  unfold applyLatest at applied
  -- Whatever the operator takes away, it puts one operand back.
  split at applied <;> cases applied <;> exact List.cons_ne_nil _ _

end Tree

namespace Reading

open Pending

/-- Operators that wait in front have been applied to trees, and the rest goes on waiting. -/
inductive Applied : List Pending → List Tree → List Pending → List Tree → Prop where
  /-- No operator need be applied. -/
  | nothing (pending : List Pending) (trees : List Tree) : Applied pending trees pending trees
  /-- The operator in front is applied first. -/
  | operator {pending rest : List Pending} {trees combined settled : List Tree}
      {waiting : Operator} {place : Nat}
      (first : Tree.applyLatest trees waiting place = .ok combined)
      (others : Applied pending combined rest settled) :
      Applied (.operator waiting place :: pending) trees rest settled

/-- An operator waits in front and lacks an operand, which is an error. -/
def Stuck (pending : List Pending) (trees : List Tree) (error : Error) : Prop :=
  -- The operator is the first one that waits, and the error tells its own position.
  ∃ operator position rest, pending = .operator operator position :: rest ∧
    trees.length ≤ operator.merges ∧ error = .malformed (.missingOperand operator) position

variable {pending rest : List Pending} {trees settled : List Tree} {x y : Reading (List Tree)}
  {error : Error} {fault : Fault} {position place : Nat} {operator : Operator}
  {placed : PlacedToken} {ended : Bool}

/-- Where an operator is stuck, its operand is missing. -/
theorem Stuck.exists_missingOperand (stuck : Stuck pending trees (.malformed fault place)) :
    ∃ operator, fault = .missingOperand operator := by
  obtain ⟨operator, _, _, _, _, same⟩ := stuck
  cases same
  exact ⟨operator, rfl⟩

/-- No group is closed by applying operators. -/
theorem Applied.groups_eq (applied : Applied pending trees rest settled) :
    groups pending = groups rest := by
  -- Only operators are taken away.
  induction applied with
  | nothing => rfl
  | operator _ _ ih => exact ih

/-- What goes on waiting has waited before. -/
theorem Applied.suffix (applied : Applied pending trees rest settled) : rest <:+ pending := by
  -- By induction over the operators that are taken away, one from the front each time.
  induction applied with
  | nothing => exact List.suffix_refl _
  | operator _ _ ih => exact ih.trans (List.suffix_cons _ _)

/-- Applying operators pays their debt. -/
theorem Applied.balance (applied : Applied pending trees rest settled) :
    settled.length + debt pending = trees.length + debt rest := by
  induction applied with
  | nothing => rfl
  | @operator pending rest trees combined settled waiting place first _ ih =>
    -- The number of operands falls as far as the operator that is taken away demands.
    have merged := Tree.length_of_applyLatest first
    show settled.length + (waiting.merges + debt pending) = trees.length + debt rest
    omega

/-- There is a tree once an operator has been applied. -/
theorem Applied.eq_or_ne_nil (applied : Applied pending trees rest settled) :
    (rest = pending ∧ settled = trees) ∨ (rest <:+ pending.tail ∧ settled ≠ []) := by
  induction applied with
  | nothing => exact Or.inl ⟨rfl, rfl⟩
  | operator first others ih =>
    refine Or.inr ⟨others.suffix, ?_⟩
    -- The last operator that was applied has left an operand.
    rcases ih with ⟨_, same⟩ | ⟨_, some⟩
    · rw [same]
      exact Tree.ne_nil_of_applyLatest first
    · exact some

/-- Where applying the first operator or going on fails, some operators have been applied. -/
theorem applied_of_bind_error {τ : Type} {next : List Tree → Except Error τ} {waiting : Operator}
    {place : Nat} {Cause : List Pending → List Tree → Prop}
    (stuck : ∀ rest settled, Stuck rest settled error → Cause rest settled)
    (failed : Tree.applyLatest trees waiting place >>= next = .error error)
    (onward : ∀ combined, next combined = .error error →
      ∃ rest settled, Applied pending combined rest settled ∧ Cause rest settled) :
    ∃ rest settled, Applied (.operator waiting place :: pending) trees rest settled ∧
      Cause rest settled := by
  -- The first operator is stuck, or it has been applied and a later one is.
  rcases bind_eq_error.mp failed with failed | ⟨combined, first, failed⟩
  · obtain ⟨few, same⟩ := Tree.applyLatest_eq_error failed
    exact ⟨_, trees, Applied.nothing _ _, stuck _ _ ⟨waiting, place, pending, rfl, few, same⟩⟩
  · obtain ⟨rest, settled, others, cause⟩ := onward combined failed
    exact ⟨rest, settled, Applied.operator first others, cause⟩

/-- A group is closed once the operators in it have been applied, unless it is empty. -/
theorem applied_of_closeGroup (closed : closeGroup position pending trees = .ok y) :
    ∃ opened, Applied pending trees (.group opened :: y.pending) y.operands ∧
      opened + 1 ≠ position := by
  -- By induction on what waits, down to the group that is closed.
  induction pending generalizing trees with
  | nil => cases closed
  | cons top rest ih =>
    cases top with
    | group opened =>
      unfold closeGroup at closed
      split at closed
      · cases closed
      · cases closed
        exact ⟨opened, Applied.nothing _ _, by assumption⟩
    | operator waiting place =>
      obtain ⟨combined, first, closed⟩ := bind_eq_ok.mp closed
      obtain ⟨opened, others, apart⟩ := ih closed
      exact ⟨opened, Applied.operator first others, apart⟩

/-- A group cannot be closed if it is empty or was not opened, or if an operator is stuck in it. -/
theorem applied_of_closeGroup_error (failed : closeGroup position pending trees = .error error) :
    ∃ rest settled, Applied pending trees rest settled ∧
      ((rest = [] ∧ error = .malformed .unopenedGroup position) ∨
        (∃ opened outer, rest = .group opened :: outer ∧ opened + 1 = position ∧
          error = .malformed .emptyGroup opened) ∨
        Stuck rest settled error) := by
  -- By induction on what waits, up to where it ends, a group is empty, or an operator is stuck.
  induction pending generalizing trees with
  | nil =>
    cases failed
    exact ⟨[], trees, Applied.nothing _ _, Or.inl ⟨rfl, rfl⟩⟩
  | cons top rest ih =>
    cases top with
    | group opened =>
      unfold closeGroup at failed
      split at failed
      · rename_i apart
        cases failed
        exact ⟨_, trees, Applied.nothing _ _, Or.inr (Or.inl ⟨opened, rest, rfl, apart, rfl⟩)⟩
      · cases failed
    | operator waiting place =>
      exact applied_of_bind_error (fun _ _ stuck => Or.inr (Or.inr stuck)) failed fun _ => ih

/-- The faults that are found when a group is closed. -/
theorem fault_of_closeGroup
    (failed : closeGroup position pending trees = .error (.malformed fault place)) :
    fault = .unopenedGroup ∨ fault = .emptyGroup ∨
      ∃ operator, fault = .missingOperand operator := by
  -- There is one fault for each of the three causes.
  obtain ⟨_, _, _, ⟨_, same⟩ | ⟨_, _, _, _, same⟩ | stuck⟩ := applied_of_closeGroup_error failed
  · cases same
    exact Or.inl rfl
  · cases same
    exact Or.inr (Or.inl rfl)
  · exact Or.inr (Or.inr stuck.exists_missingOperand)

/-- No group is open exactly if all operators can be applied when a group is closed. -/
theorem closeGroup_unopened_iff {opened : Nat} :
    closeGroup position pending trees = .error (.malformed .unopenedGroup opened) ↔
      opened = position ∧ ∃ settled, Applied pending trees [] settled := by
  constructor
  · intro failed
    obtain ⟨rest, settled, applied, cause⟩ := applied_of_closeGroup_error failed
    rcases cause with ⟨none, same⟩ | ⟨_, _, _, _, same⟩ | ⟨_, _, _, _, _, same⟩
    · cases same
      exact ⟨rfl, settled, none ▸ applied⟩
    · cases same
    · cases same
  · rintro ⟨rfl, settled, applied⟩
    -- In the other direction the induction is on the operators that can all be applied.
    generalize none : ([] : List Pending) = rest at applied
    induction applied with
    | nothing pending trees =>
      subst none
      rfl
    | operator first _ ih =>
      rw [closeGroup]
      show (Tree.applyLatest _ _ _ >>= _) = _
      rw [first]
      exact ih none

/-- An empty group is the innermost one, and begins just in front of its end. -/
theorem groups_of_closeGroup_empty {opened : Nat}
    (failed : closeGroup position pending trees = .error (.malformed .emptyGroup opened)) :
    opened + 1 = position ∧ ∃ outer, groups pending = opened :: outer := by
  obtain ⟨rest, settled, applied, cause⟩ := applied_of_closeGroup_error failed
  -- Of the three causes only one has this fault.
  rcases cause with ⟨_, same⟩ | ⟨_, outer, front, apart, same⟩ | ⟨_, _, _, _, _, same⟩
  · cases same
  · cases same
    exact ⟨apart, groups outer, by rw [applied.groups_eq, front, groups]⟩
  · cases same

/-- Nothing waits in front, or a group, or an operator that binds less tightly than another one. -/
def Looser (operator : Operator) (pending : List Pending) : Prop :=
  -- What waits behind the front does not matter, as it is not looked at.
  ∀ waiting place rest, pending = .operator waiting place :: rest →
    waiting.precedence < operator.precedence

/-- Tighter operators are applied before a new one begins to wait. -/
theorem applied_of_applyTighter (tightened : applyTighter operator pending trees = .ok y) :
    Applied pending trees y.pending y.operands ∧ Looser operator y.pending := by
  -- By induction on what waits, up to a group or to an operator that binds less.
  induction pending generalizing trees with
  | nil =>
    cases tightened
    exact ⟨Applied.nothing _ _, nofun⟩
  | cons top rest ih =>
    cases top with
    | group opened =>
      cases tightened
      exact ⟨Applied.nothing _ _, nofun⟩
    | operator waiting place =>
      unfold applyTighter at tightened
      split at tightened
      · rename_i looser
        cases tightened
        refine ⟨Applied.nothing _ _, fun waiting place rest front => ?_⟩
        cases front
        exact looser
      · obtain ⟨combined, first, tightened⟩ := bind_eq_ok.mp tightened
        obtain ⟨others, front⟩ := ih tightened
        exact ⟨Applied.operator first others, front⟩

/-- Tighter operators cannot be applied if one of them is stuck. -/
theorem applied_of_applyTighter_error
    (failed : applyTighter operator pending trees = .error error) :
    ∃ rest settled, Applied pending trees rest settled ∧ Stuck rest settled error := by
  -- A group ends the induction without a failure, and so does an operator that binds less.
  induction pending generalizing trees with
  | nil => cases failed
  | cons top rest ih =>
    cases top with
    | group opened => cases failed
    | operator waiting place =>
      unfold applyTighter at failed
      split at failed
      · cases failed
      · exact applied_of_bind_error (fun _ _ stuck => stuck) failed fun _ => ih

/-- A token that cannot be taken in is an operator, before which one is stuck, or ends a group. -/
theorem applied_of_step_error (failed : x.step placed = .error error) :
    ((∃ operator, placed.token = .operator operator) ∧ ∃ rest settled,
      Applied x.pending x.operands rest settled ∧ Stuck rest settled error) ∨
    (placed.token = .closing ∧ closeGroup placed.position x.pending x.operands = .error error) := by
  obtain ⟨token, position⟩ := placed
  -- Operands and open groups never fail to be taken.
  cases token with
  | literal c => cases failed
  | opening => cases failed
  | closing => exact Or.inr ⟨rfl, failed⟩
  | operator operator =>
    rcases bind_eq_error.mp failed with failed | ⟨tightened, _, failed⟩
    · exact Or.inl ⟨⟨operator, rfl⟩, applied_of_applyTighter_error failed⟩
    · cases failed

/--
What a token does that is taken in with the concatenation in front of it.

There is one where an operand has ended in front of a character or a group.
-/
inductive Takes (x : Reading (List Tree)) :
    Bool → PlacedToken → Reading (List Tree) → Prop where
  /-- A character where no operand has ended is one more operand. -/
  | literal (c : Char) (position : Nat) :
      Takes x false ⟨.literal c, position⟩ ⟨.literal c :: x.operands, x.pending⟩
  /-- A group where no operand has ended begins to wait. -/
  | opening (position : Nat) :
      Takes x false ⟨.opening, position⟩ ⟨x.operands, .group position :: x.pending⟩
  /-- Between an operand and a character a concatenation begins to wait. -/
  | nextLiteral {rest : List Pending} {settled : List Tree} (c : Char) (position : Nat)
      (applied : Applied x.pending x.operands rest settled) (front : Looser .concat rest) :
      Takes x true ⟨.literal c, position⟩
        ⟨.literal c :: settled, .operator .concat position :: rest⟩
  /-- Between an operand and a group a concatenation begins to wait. -/
  | nextOpening {rest : List Pending} {settled : List Tree} (position : Nat)
      (applied : Applied x.pending x.operands rest settled) (front : Looser .concat rest) :
      Takes x true ⟨.opening, position⟩
        ⟨settled, .group position :: .operator .concat position :: rest⟩
  /-- A written operator begins to wait. -/
  | operator {ended : Bool} {rest : List Pending} {settled : List Tree} {operator : Operator}
      (position : Nat) (applied : Applied x.pending x.operands rest settled)
      (front : Looser operator rest) :
      Takes x ended ⟨.operator operator, position⟩ ⟨settled, .operator operator position :: rest⟩
  /-- A group no longer waits once it is closed. -/
  | closing {ended : Bool} {rest : List Pending} {settled : List Tree} {opened : Nat}
      (position : Nat) (applied : Applied x.pending x.operands (.group opened :: rest) settled)
      (apart : opened + 1 ≠ position) : Takes x ended ⟨.closing, position⟩ ⟨settled, rest⟩

/-- A token is taken in by itself where it begins no operand. -/
theorem takes_of_step (stepped : x.step placed = .ok y)
    (alone : (ended && placed.token.beginsOperand) = false) : Takes x ended placed y := by
  obtain ⟨token, position⟩ := placed
  -- Where an operand has ended none can begin, since a concatenation would stand in between.
  cases token with
  | literal c =>
    cases stepped
    cases ended with
    | false => exact Takes.literal c position
    | true => cases alone
  | opening =>
    cases stepped
    cases ended with
    | false => exact Takes.opening position
    | true => cases alone
  | closing =>
    obtain ⟨opened, applied, apart⟩ := applied_of_closeGroup stepped
    exact Takes.closing position applied apart
  | operator operator =>
    obtain ⟨tightened, applied, same⟩ := bind_eq_ok.mp stepped
    cases same
    obtain ⟨applied, front⟩ := applied_of_applyTighter applied
    exact Takes.operator position applied front

/-- What happens when a token is taken in with the concatenation in front of it. -/
theorem takes_of_joined (ran : (joinedAfter ended [placed]).foldlM step x = .ok y) :
    Takes x ended placed y := by
  rw [joinedAfter] at ran
  split at ran
  · rename_i both
    obtain ⟨z, joined, ran⟩ := bind_eq_ok.mp ran
    obtain ⟨y, stepped, ran⟩ := bind_eq_ok.mp ran
    cases ran
    obtain ⟨tightened, applied, same⟩ := bind_eq_ok.mp joined
    cases same
    obtain ⟨applied, front⟩ := applied_of_applyTighter applied
    obtain ⟨ended, begins⟩ := both
    subst ended
    obtain ⟨token, position⟩ := placed
    -- Only characters and groups begin an operand.
    cases token with
    | literal c =>
      cases stepped
      exact Takes.nextLiteral c position applied front
    | opening =>
      cases stepped
      exact Takes.nextOpening position applied front
    | closing => cases begins
    | operator operator => cases begins
  · rename_i either
    obtain ⟨y, stepped, ran⟩ := bind_eq_ok.mp ran
    cases ran
    exact takes_of_step stepped (by simpa using either)

/-- A token behind a concatenation can be taken in, so what fails fails at once. -/
theorem applied_of_joined_error
    (failed : (joinedAfter ended [placed]).foldlM step x = .error error) :
    (∃ rest settled, Applied x.pending x.operands rest settled ∧ Stuck rest settled error) ∨
    (placed.token = .closing ∧ closeGroup placed.position x.pending x.operands = .error error) := by
  rw [joinedAfter] at failed
  split at failed
  · rename_i both
    rcases bind_eq_error.mp failed with failed | ⟨z, _, failed⟩
    · rcases applied_of_step_error failed with ⟨_, stuck⟩ | ⟨closing, _⟩
      · exact Or.inl stuck
      · cases closing
    · -- The token begins an operand, so it neither is an operator nor ends a group.
      rcases bind_eq_error.mp failed with failed | ⟨_, _, failed⟩
      · rcases applied_of_step_error failed with ⟨⟨operator, same⟩, _⟩ | ⟨same, _⟩
        · rw [same] at both
          cases both.2
        · rw [same] at both
          cases both.2
      · cases failed
  · rcases bind_eq_error.mp failed with failed | ⟨_, _, failed⟩
    · rcases applied_of_step_error failed with ⟨_, stuck⟩ | closing
      · exact Or.inl stuck
      · exact Or.inr closing
    · cases failed

/-- At the end all operators are applied. -/
theorem finish_eq_ok_iff :
    finish pending trees = .ok settled ↔ Applied pending trees [] settled := by
  constructor
  · intro finished
    induction pending generalizing trees with
    | nil =>
      cases finished
      exact Applied.nothing _ _
    | cons top rest ih =>
      cases top with
      | group opened => cases finished
      | operator waiting place =>
        obtain ⟨combined, first, finished⟩ := bind_eq_ok.mp finished
        exact Applied.operator first (ih finished)
  · intro applied
    -- In the other direction the induction is on the operators that can all be applied.
    generalize none : ([] : List Pending) = rest at applied
    induction applied with
    | nothing pending trees =>
      subst none
      rfl
    | operator first _ ih =>
      rw [finish]
      exact bind_ok first (ih none)

/-- At the end a group may be open, or an operator may be stuck. -/
theorem applied_of_finish_error (failed : finish pending trees = .error error) :
    ∃ rest settled, Applied pending trees rest settled ∧
      ((∃ opened outer, rest = .group opened :: outer ∧ error = .malformed .unclosedGroup opened) ∨
        Stuck rest settled error) := by
  -- By induction on what waits, up to a group or to an operator that is stuck.
  induction pending generalizing trees with
  | nil => cases failed
  | cons top rest ih =>
    cases top with
    | group opened =>
      cases failed
      exact ⟨_, trees, Applied.nothing _ _, Or.inl ⟨opened, rest, rfl, rfl⟩⟩
    | operator waiting place =>
      exact applied_of_bind_error (fun _ _ stuck => Or.inr stuck) failed fun _ => ih

/-- The faults that are found at the end. -/
theorem fault_of_finish (failed : finish pending trees = .error (.malformed fault place)) :
    fault = .unclosedGroup ∨ ∃ operator, fault = .missingOperand operator := by
  -- There is one fault for each of the two causes.
  obtain ⟨_, _, _, ⟨_, _, _, same⟩ | stuck⟩ := applied_of_finish_error failed
  · cases same
    exact Or.inl rfl
  · exact Or.inr stuck.exists_missingOperand

/-- At the end the innermost of the open groups is found. -/
theorem groups_of_finish_unclosed {opened : Nat}
    (failed : finish pending trees = .error (.malformed .unclosedGroup opened)) :
    ∃ outer, groups pending = opened :: outer := by
  obtain ⟨rest, settled, applied, cause⟩ := applied_of_finish_error failed
  -- Of the two causes only one has this fault.
  rcases cause with ⟨_, outer, front, same⟩ | ⟨_, _, _, _, _, same⟩
  · cases same
    exact ⟨groups outer, by rw [applied.groups_eq, front, groups]⟩
  · cases same

end Reading

end PatternAutomata
