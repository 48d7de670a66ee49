import PatternAutomata.Pattern.InOrder
import PatternAutomata.Proofs.Pattern.Balance
import PatternAutomata.Proofs.Pattern.Reading
import PatternAutomata.Proofs.Pattern.Stacked

/-! A record of what is applied makes no difference, and accounts for the number of operands. -/

namespace PatternAutomata

open Outcome

section Keeping

variable {σ : Type} [OperandStack σ]

/-- Operands behave alike with a record and without. -/
theorem Logged.alike_stack : Alike fun (s : σ) (logged : Logged σ) => s = logged.stack where
  pushLiteral s logged c same := by
    subst same
    show Agree _ _ (OperandStack.pushLiteral logged.stack c >>= _)
    cases OperandStack.pushLiteral logged.stack c with
    | ok pushed => exact Agree.ok rfl
    | error error => exact Agree.error error
  -- An operator is recorded once it has been applied, and a failure is the same.
  apply s logged operator position same := by
    subst same
    show Agree _ _ (OperandStack.apply logged.stack operator position >>= _)
    cases OperandStack.apply logged.stack operator position with
    | ok combined => exact Agree.ok rfl
    | error error => exact Agree.error error

/-- Tokens that can be taken in can be taken in while any token may wait and a record is kept. -/
theorem Stacked.exists_logged {read : List PlacedToken} {s : σ} {x : Reading σ}
    (ran : read.foldlM Reading.step ⟨s, []⟩ = .ok x) :
    ∃ logged : Reading (Logged σ), read.foldlM Reading.step ⟨⟨s, []⟩, []⟩ = .ok logged ∧
      logged.operands.stack = x.operands ∧
      read.foldlM step ⟨⟨s, []⟩, []⟩ = .ok ⟨logged.operands, x.pending.map Pending.placed⟩ := by
  -- First the record is kept, and then the one stack is exchanged for the other.
  have agree := Reading.agree_foldlM (t := ⟨s, []⟩) Logged.alike_stack rfl read
  rw [ran] at agree
  obtain ⟨logged, kept, waits, stack⟩ := agree.ok_left
  have mirrored := agree_foldlM (⟨s, []⟩ : Logged σ) read
  rw [kept] at mirrored
  obtain ⟨⟨operands, waiting⟩, stacked, rfl, rfl⟩ := mirrored.ok_left
  exact ⟨logged, kept, stack.symm, by rw [stacked, waits]⟩

end Keeping

namespace Reading

variable {σ : Type} [OperandStack σ] {pending : List Pending} {operands : σ} {x y : Reading σ}

section Invariant

variable {Inv : σ → Prop} (keeps : ∀ s operator position t, Inv s →
  OperandStack.apply s operator position = .ok t → Inv t) (holds : Inv operands)

include keeps holds

/-- What every application keeps is kept when a group is closed. -/
theorem keeps_closeGroup {position : Nat}
    (closed : closeGroup position pending operands = .ok y) : Inv y.operands := by
  -- By induction on what waits, as each operator that is applied keeps the invariant.
  induction pending generalizing operands with
  | nil => cases closed
  | cons top rest ih =>
    cases top with
    | group opened =>
      unfold closeGroup at closed
      split at closed
      · cases closed
      · cases closed
        exact holds
    | operator waiting place =>
      obtain ⟨combined, applied, closed⟩ := bind_eq_ok.mp closed
      exact ih (keeps operands waiting place combined holds applied) closed

/-- What every application keeps is kept when tighter operators are applied. -/
theorem keeps_applyTighter {operator : Operator}
    (tightened : applyTighter operator pending operands = .ok y) : Inv y.operands := by
  -- By induction on what waits, as each operator that is applied keeps the invariant.
  induction pending generalizing operands with
  | nil =>
    cases tightened
    exact holds
  | cons top rest ih =>
    cases top with
    | group opened =>
      cases tightened
      exact holds
    | operator waiting place =>
      unfold applyTighter at tightened
      split at tightened
      · cases tightened
        exact holds
      · obtain ⟨combined, applied, tightened⟩ := bind_eq_ok.mp tightened
        exact ih (keeps operands waiting place combined holds applied) tightened

end Invariant

section Measure

variable {measure : σ → Nat}
  (pushes : ∀ s c t, OperandStack.pushLiteral s c = .ok t → measure t = measure s + 1)
  (keeps : ∀ s operator position t, OperandStack.apply s operator position = .ok t →
    measure t = measure s)

include pushes keeps

/-- What characters alone increase is increased by a token if this is a character. -/
theorem measure_step {placed : PlacedToken} (stepped : x.step placed = .ok y) :
    measure y.operands = measure x.operands + if placed.token.isLiteral then 1 else 0 := by
  -- However many operators are applied, what is measured is the same.
  have kept : ∀ s operator position t, measure s = measure x.operands →
      OperandStack.apply s operator position = .ok t → measure t = measure x.operands :=
    fun s operator position t same applied => (keeps s operator position t applied).trans same
  obtain ⟨token, position⟩ := placed
  cases token with
  | literal c =>
    obtain ⟨pushed, added, same⟩ := bind_eq_ok.mp stepped
    cases same
    exact pushes x.operands c pushed added
  | opening =>
    cases stepped
    rfl
  | closing => exact keeps_closeGroup kept rfl stepped
  | operator operator =>
    obtain ⟨tightened, applied, same⟩ := bind_eq_ok.mp stepped
    cases same
    show measure tightened.operands = measure x.operands
    exact keeps_applyTighter kept rfl applied

/-- What characters alone increase counts the characters. -/
theorem measure_foldlM {read : List PlacedToken} (ran : read.foldlM step ⟨operands, []⟩ = .ok x) :
    measure x.operands = measure operands + read.countP (·.token.isLiteral) := by
  -- By induction over the tokens that have been read.
  refine foldlM_induct (P := fun read (x : Reading σ) => measure x.operands =
    measure operands + read.countP (·.token.isLiteral)) rfl ?_ ran
  intro before placed after x y _ counted stepped
  rw [measure_step pushes keeps stepped, counted, List.countP_append, List.countP_singleton,
    Nat.add_assoc]

end Measure

end Reading

namespace Operands

/-- Applying an operator takes away as many automata as it merges. -/
theorem length_of_apply {operands combined : Operands} {operator : Operator} {position : Nat}
    (applied : operands.apply operator position = .ok combined) :
    combined.graphs.length + operator.merges = operands.graphs.length := by
  -- Only operators that find their operands are applied.
  unfold apply at applied
  split at applied
  case h_5 => cases applied
  all_goals
    rename_i graphs
    obtain ⟨built, _, same⟩ := bind_eq_ok.mp applied
    cases same
    rw [graphs]
    rfl

end Operands

namespace Logged

/-- The number of automata, and of operators that have made two automata into one. -/
def total (logged : Logged Operands) : Nat :=
  logged.stack.graphs.length + (logged.applied.count .concat + logged.applied.count .union)

/-- A character adds to the total. -/
theorem total_of_pushLiteral {logged pushed : Logged Operands} {c : Char}
    (added : logged.pushLiteral c = .ok pushed) : pushed.total = logged.total + 1 := by
  obtain ⟨stack, grown, same⟩ := bind_eq_ok.mp added
  cases same
  obtain ⟨built, _, same⟩ := bind_eq_ok.mp grown
  cases same
  -- One more automaton is there, and no operator has been applied.
  exact Nat.add_right_comm _ _ _

/-- An operator that takes away an automaton is counted in its place. -/
theorem total_of_apply {logged combined : Logged Operands} {operator : Operator} {position : Nat}
    (applied : logged.apply operator position = .ok combined) : combined.total = logged.total := by
  obtain ⟨stack, combines, same⟩ := bind_eq_ok.mp applied
  cases same
  have merged := Operands.length_of_apply combines
  -- An operator is counted exactly if it makes two automata into one.
  have counted : (operator :: logged.applied).count .concat +
      (operator :: logged.applied).count .union =
        operator.merges + (logged.applied.count .concat + logged.applied.count .union) := by
    cases operator <;> simp [Operator.merges] <;> omega
  calc stack.graphs.length + ((operator :: logged.applied).count .concat +
        (operator :: logged.applied).count .union)
      = stack.graphs.length + operator.merges +
          (logged.applied.count .concat + logged.applied.count .union) := by
        rw [counted, Nat.add_assoc]
    _ = logged.total := by
        rw [merged]
        rfl

/-- The total is the number of characters that have been read. -/
theorem total_eq {read : List PlacedToken} {x : Reading (Logged Operands)}
    (ran : read.foldlM Reading.step ⟨⟨{}, []⟩, []⟩ = .ok x) :
    x.operands.total = read.countP (·.token.isLiteral) := by
  have counted := Reading.measure_foldlM (fun _ _ _ => total_of_pushLiteral)
    (fun _ _ _ _ => total_of_apply) ran
  -- Nothing is there in the beginning.
  exact counted.trans (Nat.zero_add _)

end Logged

end PatternAutomata
