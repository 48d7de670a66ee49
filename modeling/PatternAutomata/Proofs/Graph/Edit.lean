import PatternAutomata.Graph.Edit
import PatternAutomata.Proofs.Steps

/-! Steps that fail leave a graph alone, so changes end as they would without failing ones. -/

namespace PatternAutomata

namespace Edit

open Steps

/-- Checking a state writes nothing. -/
theorem perform_check (state : State) (g : Graph) :
    (check state).perform g =
      (g, if state ∈ g.states then .ok () else .error (.unknownState state)) := by
  rw [check, perform_bind, perform_get]
  -- Only the outcome depends on whether the state is known.
  by_cases known : state ∈ g.states
  · simp [known]
  · simp [known]

/-- Steps do to any graph what an operation does, or nothing at all if the operation fails. -/
def AllOrNothing (edit : Edit Unit) (operation : Graph → Except Error Graph) : Prop :=
  ∀ g, edit.perform g = match operation g with
    | .ok changed => (changed, .ok ())
    -- A failure must leave the very graph that there was before the first step.
    | .error error => (g, .error error)

/-- An edge is added completely or not at all. -/
theorem allOrNothing_addEdge (edge : Edge) :
    AllOrNothing (addEdge edge) fun g => g.addEdge edge := by
  intro g
  -- Both checks come before the first thing that is written.
  rw [addEdge, perform_bind, perform_check]
  by_cases source : edge.source ∈ g.states
  · simp only [source, if_true, perform_bind, perform_check]
    by_cases target : edge.target ∈ g.states
    · simp only [target, if_true, Graph.addEdge, source, not_true_eq_false, if_false]
      cases edge.symbol with
      | epsilon => rfl
      | char c => rfl
    · simp [Graph.addEdge, source, target]
  · simp [Graph.addEdge, source]

/-- What is written once a state is known to exist is written or not. -/
theorem allOrNothing_check (state : State) (write : Graph → Graph) :
    AllOrNothing (check state >>= fun _ => modify write) fun g =>
      if state ∈ g.states then .ok (write g) else .error (.unknownState state) := by
  intro g
  -- Nothing is written in front of the check, and nothing can fail behind it.
  rw [perform_bind, perform_check]
  by_cases known : state ∈ g.states
  · simp [known]
  · simp [known]

/-- A start is set or not. -/
theorem allOrNothing_setStart (state : State) :
    AllOrNothing (setStart state) fun g => g.setStart state :=
  allOrNothing_check state fun g => { g with start := some state }

/-- A single state is marked or not. -/
theorem allOrNothing_markFinal (state : State) :
    AllOrNothing (markFinal state) fun g => g.markFinal state :=
  allOrNothing_check state fun g => { g with finals := insert state g.finals }

/-- Another graph is taken over completely or not at all. -/
theorem allOrNothing_merge (other : Graph) :
    AllOrNothing (merge other) fun g => g.merge other := by
  intro g
  -- The search for a shared state is over before the first part is written.
  rw [merge, perform_bind, perform_get]
  simp only [Graph.merge]
  cases g.states.toList.find? (· ∈ other.states) with
  | some shared => rfl
  | none => rfl

/-- A change that is made completely or not at all is adopted if it can be made. -/
theorem AllOrNothing.perform_eq_adopt {edit : Edit Unit} {operation : Graph → Except Error Graph}
    (steps : AllOrNothing edit operation) (g : Graph) :
    (edit >>= fun _ => pure []).perform g = g.adopt (operation g) := by
  rw [perform_bind, steps g]
  -- No states are created, so an empty list is all that is given.
  cases operation g with
  | ok changed => rfl
  | error error => rfl

/-- States are marked up to the first one that cannot be. -/
theorem perform_markFinals (states : List State) (g : Graph) :
    (markFinals states).perform g = match g.markFinals states with
      | (changed, none) => (changed, .ok ())
      | (changed, some error) => (changed, .error error) := by
  induction states generalizing g with
  | nil => rfl
  | cons state rest ih =>
    have first := allOrNothing_markFinal state g
    rw [markFinals, perform_bind, first, Graph.markFinals]
    dsimp only
    -- A state that is not known ends the steps and the loop in the same place.
    cases g.markFinal state with
    | ok changed => exact ih changed
    | error error => rfl

/-- Several states are created one after the other. -/
theorem perform_createStates (count : Nat) (g : Graph) :
    (createStates count).perform g = ((g.createStates count).2, .ok (g.createStates count).1) := by
  induction count generalizing g with
  | zero => rfl
  | succ count ih =>
    -- The number for the first state is taken before the induction goes on with the others.
    have first : createState.perform g = (g.createState.2, .ok g.createState.1) := rfl
    rw [createStates, perform_bind, first]
    simp only [perform_bind, ih, perform_pure]
    rfl

/-- The steps of a change leave and give what the change does, also if they fail half way. -/
theorem perform_ofChange (change : Change) (g : Graph) :
    (ofChange change).perform g = g.change change := by
  cases change with
  | createStates count => exact perform_createStates count g
  | addEdge edge => exact (allOrNothing_addEdge edge).perform_eq_adopt g
  | setStart state => exact (allOrNothing_setStart state).perform_eq_adopt g
  | markFinal state => exact (allOrNothing_markFinal state).perform_eq_adopt g
  -- This is the only change that may fail half way.
  | markFinals states =>
    show (markFinals states >>= fun _ => pure []).perform g = _
    rw [perform_bind, perform_markFinals, Graph.change]
    rcases g.markFinals states with ⟨changed, error?⟩
    cases error? with
    | none => rfl
    | some error => rfl
  | merge other => exact (allOrNothing_merge other).perform_eq_adopt g

end Edit

namespace Graph

/-- A change that is not adopted has changed nothing. -/
theorem fst_adopt_of_error {g : Graph} {outcome : Except Error Graph} {error : Error}
    (failed : (g.adopt outcome).2 = .error error) : (g.adopt outcome).1 = g := by
  -- There is a failure only where nothing has been adopted.
  cases outcome with
  | ok changed => cases failed
  | error reason => rfl

/-- Marking comes as far as all states in front of the first unknown one, which does not fail. -/
theorem markFinals_takeWhile {g : Graph} {known : SortedSet State} (same : g.states = known)
    (states : List State) :
    g.markFinals (states.takeWhile (· ∈ known)) = ((g.markFinals states).1, none) := by
  induction states generalizing g with
  | nil => rfl
  | cons state rest ih =>
    by_cases member : state ∈ known
    · -- Marking a state does not change which ones are known.
      rw [List.takeWhile_cons_of_pos (by simpa using member), markFinals, markFinals, markFinal,
        if_pos (same ▸ member)]
      exact ih (g := { g with finals := insert state g.finals }) same
    · rw [List.takeWhile_cons_of_neg (by simpa using member), markFinals, markFinals, markFinal,
        if_neg (same ▸ member)]

end Graph

namespace Attempt

variable {attempt done : Attempt} {error : Error} {leftOut : Bool}

/-- An attempt leaves the changed graph and has the outcome of the change. -/
theorem after_outcome_eq (attempt : Attempt) :
    (attempt.after, attempt.outcome) = attempt.before.change attempt.change :=
  Edit.perform_ofChange attempt.change attempt.before

/-- An attempt that has failed without having done anything leaves the graph as it was. -/
theorem after_eq_before (failed : attempt.outcome = .error error) (nothing : attempt.done? = none) :
    attempt.after = attempt.before := by
  obtain ⟨g, change⟩ := attempt
  have whole := after_outcome_eq ⟨g, change⟩
  have left : Attempt.after ⟨g, change⟩ = (g.change change).1 := congrArg Prod.fst whole
  have result : (g.change change).2 = .error error :=
    (congrArg Prod.snd whole).symm.trans failed
  rw [left]
  -- Creating states never fails, and marking them is left aside.
  cases change with
  | createStates count => cases result
  | addEdge edge => exact Graph.fst_adopt_of_error result
  | setStart state => exact Graph.fst_adopt_of_error result
  | markFinal state => exact Graph.fst_adopt_of_error result
  | markFinals states => cases nothing
  | merge other => exact Graph.fst_adopt_of_error result

/-- What has been done by an attempt leaves the same graph, and does not fail. -/
theorem of_done (found : attempt.done? = some done) :
    done.before = attempt.before ∧ done.after = attempt.after ∧ done.outcome = .ok [] := by
  obtain ⟨g, change⟩ := attempt
  cases change with
  | markFinals states =>
    cases found
    have whole := after_outcome_eq ⟨g, .markFinals states⟩
    have shorter := after_outcome_eq ⟨g, .markFinals (states.takeWhile (· ∈ g.states))⟩
    simp only [Graph.change] at whole shorter
    rw [Graph.markFinals_takeWhile rfl states] at shorter
    refine ⟨rfl, (congrArg Prod.fst shorter).trans ?_, congrArg Prod.snd shorter⟩
    -- Whether or not marking has failed, it leaves what has been marked.
    rw [show Attempt.after ⟨g, .markFinals states⟩ = _ from congrArg Prod.fst whole]
    rcases g.markFinals states with ⟨changed, error?⟩
    cases error? with
    | none => rfl
    | some error => rfl
  | createStates _ | addEdge _ | setStart _ | markFinal _ | merge _ => cases found

/-- An attempt of which nothing remains leaves the graph as it was. -/
theorem after_of_remains_eq_none (gone : attempt.remains leftOut = none) :
    attempt.after = attempt.before := by
  unfold remains at gone
  -- Something remains of what has succeeded and of what is not left out.
  split at gone
  · rename_i failed
    exact after_eq_before failed gone
  · cases gone

/-- What remains of an attempt is made to the same graph and leaves the same graph. -/
theorem of_remains (kept : attempt.remains leftOut = some done) :
    done.before = attempt.before ∧ done.after = attempt.after := by
  unfold remains at kept
  -- What remains is what has been done, or all of the attempt.
  split at kept
  · obtain ⟨before, after, _⟩ := of_done kept
    exact ⟨before, after⟩
  · cases kept
    exact ⟨rfl, rfl⟩

/-- Whatever remains although failing attempts are left out does not fail. -/
theorem isOk_of_remains (kept : attempt.remains true = some done) : done.outcome.isOk = true := by
  unfold remains at kept
  -- Failing attempts are left out, up to what has been done by them.
  cases result : attempt.outcome with
  | ok states =>
    simp only [result, Option.some.injEq] at kept
    rw [← kept, result]
    rfl
  | error error =>
    simp only [result] at kept
    rw [(of_done kept).2.2]
    rfl

end Attempt

namespace Graph

/-- The outcomes of changes are those of the attempts to make them. -/
theorem outcomes_changeAll (g : Graph) (changes : List Change) :
    (g.changeAll changes).2 = (g.attempts changes).map Attempt.outcome := by
  -- By induction over the changes, each of which is made to what the ones before have left.
  induction changes generalizing g with
  | nil => rfl
  | cons change rest ih => exact congrArg (Attempt.outcome ⟨g, change⟩ :: ·) (ih _)

/-- Changes are made after the first one to what that has left. -/
theorem changeAll_cons (first : Attempt) (rest : List Change) :
    first.before.changeAll (first.change :: rest) =
      ((first.after.changeAll rest).1, first.outcome :: (first.after.changeAll rest).2) :=
  rfl

/-- What remains of changes has the outcomes that it had, and the graph ends as it did. -/
theorem changeAll_remains (g : Graph) (leftOut : Nat → Bool) (changes : List Change)
    (position : Nat) {kept : List Attempt}
    (remain : ((g.attempts changes).zipIdx position).filterMap
      (fun entry => entry.1.remains (leftOut entry.2)) = kept) :
    g.changeAll (kept.map Attempt.change) =
      ((g.changeAll changes).1, kept.map Attempt.outcome) := by
  -- After the first change the graph is the same whether or not the change remains.
  induction changes generalizing g position kept with
  | nil =>
    cases remain
    rfl
  | cons change rest ih =>
    have later := ih (Attempt.mk g change).after (position + 1) rfl
    have last : (g.changeAll (change :: rest)).1 =
        ((Attempt.mk g change).after.changeAll rest).1 := rfl
    rw [attempts, List.zipIdx_cons, List.filterMap_cons] at remain
    rw [last]
    split at remain
    · rename_i gone
      rw [remain] at later
      rw [← later, Attempt.after_of_remains_eq_none gone]
    · rename_i done stays
      obtain ⟨before, after⟩ := Attempt.of_remains stays
      cases remain
      cases before
      rw [List.map_cons, List.map_cons, changeAll_cons, after, later]

/--
Changes to a graph end as they would without those that fail at any chosen positions.

All that remain have the outcomes that they had, and if all failing ones are left out, none fails. A
change that marks states is cut off in front of the first unknown one. Nothing is ever undone, since
the steps of a change already do what the change does.
-/
theorem changeAll_remaining (g : Graph) (leftOut : Nat → Bool) (changes : List Change) :
    (g.changeAll changes).2 = (g.attempts changes).map Attempt.outcome ∧
      g.changeAll ((g.remaining leftOut changes).map Attempt.change) =
        ((g.changeAll changes).1, (g.remaining leftOut changes).map Attempt.outcome) ∧
      ((g.remaining (fun _ => true) changes).all fun attempt => attempt.outcome.isOk) = true ∧
      ∀ h change, (Edit.ofChange change).perform h = h.change change := by
  refine ⟨g.outcomes_changeAll changes, g.changeAll_remains leftOut changes 0 rfl, ?_,
    fun h change => Edit.perform_ofChange change h⟩
  -- Every attempt that remains stems from one in the whole list.
  rw [List.all_eq_true]
  intro done listed
  obtain ⟨entry, _, kept⟩ := List.mem_filterMap.mp listed
  exact Attempt.isOk_of_remains kept

/-- An edge with an unknown end is left out, and marking is cut off in front of one. -/
example : (({} : Graph).remaining (fun _ => true) [.createStates 2, .addEdge ⟨0, .char 'a', 7⟩,
    .markFinals [1, 5, 0]]).map Attempt.change = [.createStates 2, .markFinals [1]] := by
  decide

end Graph

end PatternAutomata
