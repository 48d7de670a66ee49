import PatternAutomata.Proofs.Builder.History
import PatternAutomata.Proofs.Graph.Merge

/-! When a builder refuses an operation and for which reason, and what comes of it otherwise. -/

namespace PatternAutomata

namespace Session

variable {s before : Session}

/-- What is kept under other names is found as before. -/
theorem lookup_filter {β : Type} {name other : String} (differ : other ≠ name)
    (entries : List (String × β)) :
    (entries.filter fun entry => entry.1 ≠ name).lookup other = entries.lookup other := by
  induction entries with
  | nil => rfl
  | cons entry rest ih =>
    -- An entry that is dropped has another name than the one that is looked up.
    by_cases dropped : entry.1 = name
    · have unlike : (other == entry.1) = false := beq_eq_false_iff_ne.mpr (dropped ▸ differ)
      rw [List.filter_cons_of_neg (by simpa using dropped), ih, List.lookup_cons, unlike]
    · rw [List.filter_cons_of_pos (by simpa using dropped), List.lookup_cons, List.lookup_cons, ih]

/-- Putting a builder back under its name changes nothing. -/
theorem builder_putBuilder {name : String} {builder : Builder}
    (found : s.builder name = .ok builder) (other : String) :
    (s.putBuilder name builder).builder other = s.builder other := by
  -- The name of the builder is looked up and found, so no other name can be new.
  by_cases same : other = name
  · rw [same, found]
    simp [Session.builder, putBuilder]
  · have unlike : (other == name) = false := beq_eq_false_iff_ne.mpr same
    unfold Session.builder putBuilder
    rw [List.lookup_cons, unlike, lookup_filter same]

/-- The builders of a session are as before if an outcome is an error. -/
def Spares (s : Session) (outcome : Session × Except Error Reply) : Prop :=
  -- Names are looked up, since the list of builders may be in another order.
  ∀ error, outcome.2 = .error error → ∀ name, outcome.1.builder name = s.builder name

/-- Storing a graph does not touch the builders. -/
theorem spares_store (s : Session) (result : String) (outcome : Except Error Graph) :
    s.Spares (s.store result outcome) := by
  intro error _ name
  -- Graphs are stored apart from builders.
  cases outcome <;> rfl

/-- Steps that fail leave the builder, so it is put back as it was. -/
theorem spares_storeBuilt (before : Session) (same : before.builders = s.builders)
    {name : String} {builder : Builder} (found : s.builder name = .ok builder) (result : String)
    {steps : Assembly Graph} {outcome : Except Error (Graph × Builder)}
    (does : steps.perform builder = builder.settle outcome) :
    s.Spares (before.storeBuilt name result builder steps) := by
  have kept : ∀ other, before.builder other = s.builder other := by
    intro other
    rw [Session.builder, Session.builder, same]
  intro error refused other
  unfold storeBuilt at refused ⊢
  rw [does] at refused ⊢
  -- Where the operation fails, the builder that is put back is the one that was found.
  cases outcome with
  | ok out => cases refused
  | error reason => exact (builder_putBuilder ((kept name).trans found) other).trans (kept other)

/-- Changing a graph does not touch the builders. -/
theorem spares_changeGraph (same : before.builders = s.builders) (name : String) (g : Graph)
    (change : Change) : s.Spares (before.changeGraph name g change) := by
  intro error _ other
  show before.builder other = s.builder other
  -- Only graphs are changed and used up.
  rw [Session.builder, Session.builder, same]

/-- A command that finds all that it names leaves the builders alone if it is refused. -/
theorem spares_of_attempt {command : Command} {outcome : Session × Except Error Reply}
    (attempted : s.attempt command = .ok outcome) : s.Spares outcome := by
  cases command with
  | newGraph result =>
    cases attempted
    exact s.spares_store result _
  | compile pattern result =>
    cases attempted
    exact s.spares_store result _
  | copy name result =>
    obtain ⟨g, _, attempted⟩ := Outcome.bind_eq_ok.mp attempted
    cases attempted
    exact s.spares_store result _
  | convert conversion name result =>
    obtain ⟨g, _, attempted⟩ := Outcome.bind_eq_ok.mp attempted
    cases attempted
    exact s.spares_store result _
  | newBuilder name =>
    -- A new builder takes the place of an earlier one, but is never refused.
    cases attempted
    intro error refused
    cases refused
  | literal name c result =>
    obtain ⟨builder, found, attempted⟩ := Outcome.bind_eq_ok.mp attempted
    cases attempted
    exact spares_storeBuilt _ rfl found result (Assembly.perform_literal c builder)
  | concat name left right result =>
    obtain ⟨builder, found, attempted⟩ := Outcome.bind_eq_ok.mp attempted
    obtain ⟨l, _, attempted⟩ := Outcome.bind_eq_ok.mp attempted
    obtain ⟨r, _, attempted⟩ := Outcome.bind_eq_ok.mp attempted
    cases attempted
    -- The graphs that have been used up are no builders.
    exact spares_storeBuilt ((s.removeGraph left).removeGraph right) rfl found result
      (Assembly.perform_concat l r builder)
  | union name left right result =>
    obtain ⟨builder, found, attempted⟩ := Outcome.bind_eq_ok.mp attempted
    obtain ⟨l, _, attempted⟩ := Outcome.bind_eq_ok.mp attempted
    obtain ⟨r, _, attempted⟩ := Outcome.bind_eq_ok.mp attempted
    cases attempted
    exact spares_storeBuilt ((s.removeGraph left).removeGraph right) rfl found result
      (Assembly.perform_union l r builder)
  | star name inner result =>
    obtain ⟨builder, found, attempted⟩ := Outcome.bind_eq_ok.mp attempted
    obtain ⟨g, _, attempted⟩ := Outcome.bind_eq_ok.mp attempted
    cases attempted
    exact spares_storeBuilt (s.removeGraph inner) rfl found result
      (Assembly.perform_repetition g true builder)
  | plus name inner result =>
    obtain ⟨builder, found, attempted⟩ := Outcome.bind_eq_ok.mp attempted
    obtain ⟨g, _, attempted⟩ := Outcome.bind_eq_ok.mp attempted
    cases attempted
    exact spares_storeBuilt (s.removeGraph inner) rfl found result
      (Assembly.perform_repetition g false builder)
  | createStates name | addEdge name | setStart name | markFinal name | markFinals name =>
    obtain ⟨g, _, attempted⟩ := Outcome.bind_eq_ok.mp attempted
    cases attempted
    exact spares_changeGraph rfl name g _
  | merge name other =>
    obtain ⟨g, _, attempted⟩ := Outcome.bind_eq_ok.mp attempted
    obtain ⟨o, _, attempted⟩ := Outcome.bind_eq_ok.mp attempted
    cases attempted
    refine spares_changeGraph ?_ name g _
    split <;> rfl
  | ask name query =>
    obtain ⟨g, _, attempted⟩ := Outcome.bind_eq_ok.mp attempted
    cases attempted
    exact fun _ _ _ => rfl

/-- A command that fails, for whatever reason, leaves the builders of a session alone. -/
theorem builder_of_failure {command : Command} {failure : Failure}
    (failed : (s.perform command).2 = .error failure) (name : String) :
    (s.perform command).1.builder name = s.builder name := by
  -- Either a name was not found, or what has been attempted was refused.
  unfold perform at failed ⊢
  split at failed
  · rfl
  · cases failed
  · rename_i attempted
    exact spares_of_attempt attempted _ rfl name

end Session

namespace Builder

open PatternAutomata.Graph Outcome

/-- An operation cannot be performed on some graphs, and this is the reason that is told. -/
inductive Refused (operands : List Graph) : Error → Prop where
  /-- One of the graphs has no start. -/
  | missingStart {g : Graph} (listed : g ∈ operands) (bare : g.start = none) :
      Refused operands .missingStart
  /-- Both graphs have starts, and this is the smallest state that they share. -/
  | stateCollision {left right : Graph} {shared : State} (pair : operands = [left, right])
      (begins : ∀ g ∈ operands, ∃ start, g.start = some start)
      (least : IsLeast {p | p ∈ left.states ∧ p ∈ right.states} shared) :
      Refused operands (.stateCollision shared)

variable {builder : Builder} {operation : Operation Graph} {left right inner : Graph}
  {error : Error}

/-- Two graphs are not combined if there is a reason to refuse them. -/
theorem combine_eq_error {α : Type} {onward : State → State → Graph → Except Error α}
    (refused : Refused [left, right] error) : (do
      let leftStart ← left.startState
      let rightStart ← right.startState
      let g ← builder.blank.merge left
      let g ← g.merge right
      onward leftStart rightStart g) = .error error := by
  cases refused with
  | @missingStart g listed bare =>
    -- The starts are asked for one after the other, before anything else is done.
    cases leftBegins : left.start with
    | none => exact bind_eq_error.mpr (Or.inl (startState_eq_error leftBegins))
    | some leftStart =>
      have listed : g = left ∨ g = right := by simpa using listed
      have rightBare : right.start = none := by
        rcases listed with same | same
        · rw [same, leftBegins] at bare
          cases bare
        · rwa [← same]
      rw [startState_eq_ok.mpr leftBegins, ok_bind]
      exact bind_eq_error.mpr (Or.inl (startState_eq_error rightBare))
  | stateCollision pair begins least =>
    cases pair
    obtain ⟨leftStart, leftBegins⟩ := begins left List.mem_cons_self
    obtain ⟨rightStart, rightBegins⟩ := begins right (List.mem_cons_of_mem _ List.mem_cons_self)
    have fails : (builder.adopted left).merge right = .error _ :=
      merge_eq_error_iff.mpr ⟨_, rfl, by simpa only [mem_states_adopted] using least⟩
    rw [startState_eq_ok.mpr leftBegins, startState_eq_ok.mpr rightBegins, ok_bind, ok_bind,
      merge_blank_eq, ok_bind]
    exact bind_eq_error.mpr (Or.inl fails)

/-- A graph is not repeated if there is a reason to refuse it, which can only be its start. -/
theorem repetition_eq_error (refused : Refused [inner] error) (allowEmpty : Bool) :
    builder.repetition inner allowEmpty = .error error := by
  cases refused with
  -- With one operand there is no pair that could share states.
  | missingStart listed bare =>
    cases List.mem_singleton.mp listed
    exact bind_eq_error.mpr (Or.inl (startState_eq_error bare))
  | stateCollision pair _ _ => cases pair

/-- An operation fails for any reason that there is to refuse it. -/
theorem perform_eq_error (refused : Refused operation.operands error) :
    builder.perform operation = .error error := by
  cases operation with
  | literal c =>
    -- Without operands there is no reason to refuse anything.
    cases refused with
    | missingStart listed _ => cases listed
    | stateCollision pair _ _ => cases pair
  | concat left right => exact combine_eq_error refused
  | union left right => exact combine_eq_error refused
  | star inner => exact repetition_eq_error refused true
  | plus inner => exact repetition_eq_error refused false

/-- Graphs without starts or with shared states are reason enough to refuse an operation. -/
theorem exists_refused (unfit : ¬ ((∀ g ∈ operation.operands, ∃ start, g.start = some start) ∧
    operation.operands.Pairwise Apart)) : ∃ error, Refused operation.operands error := by
  -- A missing start is told first, so that shared states count only if there is none.
  by_cases begins : ∀ g ∈ operation.operands, ∃ start, g.start = some start
  · have shared : ¬ operation.operands.Pairwise Apart := fun apart => unfit ⟨begins, apart⟩
    cases operation with
    | literal c => exact absurd List.Pairwise.nil shared
    | concat left right | union left right =>
      obtain ⟨p, least⟩ :=
        exists_isLeast_shared fun apart => shared (List.pairwise_pair.mpr apart)
      exact ⟨_, .stateCollision rfl begins least⟩
    | star inner | plus inner => exact absurd (List.pairwise_singleton _ inner) shared
  · simp only [not_forall] at begins
    obtain ⟨g, listed, bare⟩ := begins
    refine ⟨_, .missingStart listed ?_⟩
    cases start : g.start with
    | none => rfl
    | some state => exact absurd ⟨state, start⟩ bare

section Outcomes

variable (wf : ∀ g ∈ operation.operands, g.WellFormed)

include wf

/-- An operation succeeds exactly if all graphs have starts and no two share a state. -/
theorem exists_perform_iff : (∃ out, builder.perform operation = .ok out) ↔
    (∀ g ∈ operation.operands, ∃ start, g.start = some start) ∧
      operation.operands.Pairwise Apart := by
  constructor
  · rintro ⟨out, performed⟩
    -- If something were missing, there would be a reason to refuse.
    by_contra unfit
    obtain ⟨error, refused⟩ := exists_refused unfit
    rw [perform_eq_error refused] at performed
    cases performed
  · exact fun fit => perform_ok wf fit.1 fit.2

/-- An operation fails exactly for the reasons that there are to refuse it. -/
theorem perform_eq_error_iff :
    builder.perform operation = .error error ↔ Refused operation.operands error := by
  refine ⟨fun failed => ?_, perform_eq_error⟩
  have unfit : ¬ ((∀ g ∈ operation.operands, ∃ start, g.start = some start) ∧
      operation.operands.Pairwise Apart) := by
    intro fit
    obtain ⟨out, performed⟩ : ∃ out, builder.perform operation = .ok out :=
      (exists_perform_iff wf).mpr fit
    rw [performed] at failed
    cases failed
  -- There is some reason, and it is the one that the operation tells.
  obtain ⟨reason, refused⟩ := exists_refused unfit
  rw [perform_eq_error refused] at failed
  cases failed
  exact refused

end Outcomes

/--
The steps of an operation fail for exactly the reasons to refuse it, and then leave the builder.

Otherwise the states are those of the operands and new ones behind all numbers that were used, and
the builder goes on where the graph does. No command that fails changes a builder of a session.
-/
theorem perform_exact (reachable : ∀ g ∈ operation.operands, g.Reachable) :
    let made := (Assembly.ofOperation operation).perform builder
    (∀ error, made.2 = .error error ↔ Refused operation.operands error) ∧
    (∀ error, made.2 = .error error → made.1 = builder) ∧
    ((∃ g, made.2 = .ok g) ↔
      (∀ g ∈ operation.operands, ∃ start, g.start = some start) ∧
        operation.operands.Pairwise Apart) ∧
    (∀ g, made.2 = .ok g →
      (∀ state, state ∈ g.states ↔ (∃ operand ∈ operation.operands, state ∈ operand.states) ∨
        state ∈ List.range' (builder.firstFree operation) operation.created) ∧
      made.1.next = g.next) ∧
    made = builder.settle (builder.perform operation) ∧
    ∀ (s : Session) command failure, (s.perform command).2 = .error failure →
      ∀ name, (s.perform command).1.builder name = s.builder name := by
  have wf : ∀ g ∈ operation.operands, g.WellFormed :=
    fun g listed => (reachable g listed).wellFormed
  intro made
  -- What the steps give and leave is known from what the operation does.
  have does : made = builder.settle (builder.perform operation) :=
    Assembly.perform_ofOperation operation builder
  have fails : ∀ error, made.2 = .error error ↔ builder.perform operation = .error error := by
    intro error
    rw [does, settle_snd_eq_error]
  have gives : ∀ g, made.2 = .ok g ↔ builder.perform operation = .ok (g, made.1) := by
    intro g
    rw [does, settle_snd_eq_ok]
  refine ⟨fun error => (fails error).trans (perform_eq_error_iff wf), ?_, ?_, ?_, does,
    fun s command failure => Session.builder_of_failure⟩
  · intro error failed
    rw [does, (fails error).mp failed]
    rfl
  · rw [← exists_perform_iff wf]
    exact ⟨fun ⟨g, given⟩ => ⟨_, (gives g).mp given⟩, fun ⟨out, performed⟩ => ⟨out.1, by
      rw [does, performed]
      rfl⟩⟩
  · intro g given
    have known := performed_of_perform wf ((gives g).mp given)
    exact ⟨known.mem_states, known.after_eq⟩

/--
A graph from elsewhere may have no start, or share states with one that a builder has built.

The new states of its loop come behind its own if they lie above the builder, and else behind that.
-/
theorem perform_exact_foreign :
    let bare : Graph := { states := .ofList [0, 1, 2, 3, 4], next := 5 }
    let g : Graph := { bare with start := some 1 }
    let below : Builder := { next := 2 }
    let beyond : Builder := { next := 9 }
    let steps := Assembly.ofOperation
    (steps (.concat g bare)).perform below = (below, .error .missingStart) ∧
    (steps (.union g (below.literalGraph 'x'))).perform below =
      (below, .error (.stateCollision 2)) ∧
    (∃ loop after, (steps (.star g)).perform below = (after, .ok loop) ∧ after.next = loop.next ∧
      ∀ state, state ∈ loop.states ↔ state ∈ g.states ∨ state ∈ [5, 6]) ∧
    ∃ loop after, (steps (.star g)).perform beyond = (after, .ok loop) ∧ after.next = loop.next ∧
      ∀ state, state ∈ loop.states ↔ state ∈ g.states ∨ state ∈ [9, 10] := by
  intro bare g below beyond steps
  have withoutStart : bare.Reachable := ⟨[.newGraph "g", .createStates "g" 5], "g", rfl⟩
  have fromElsewhere : g.Reachable :=
    ⟨[.newGraph "g", .createStates "g" 5, .setStart "g" 1], "g", rfl⟩
  have built : (below.literalGraph 'x').Reachable :=
    ⟨[.newBuilder "b", .literal "b" 'w' "f", .literal "b" 'x' "g"], "g", rfl⟩
  have least : IsLeast {p | p ∈ g.states ∧ p ∈ (below.literalGraph 'x').states} 2 := by
    refine ⟨⟨by decide, by decide⟩, fun p both => ?_⟩
    exact (List.mem_range'_1.mp (mem_states_literalGraph.mp both.2)).1
  have first : ∀ h ∈ (Operation.concat g bare).operands, h.Reachable := by
    simpa [Operation.operands] using ⟨fromElsewhere, withoutStart⟩
  have second : ∀ h ∈ (Operation.union g (below.literalGraph 'x')).operands, h.Reachable := by
    simpa [Operation.operands] using ⟨fromElsewhere, built⟩
  have third : ∀ h ∈ (Operation.star g).operands, h.Reachable := by
    simpa [Operation.operands] using fromElsewhere
  -- A loop can be built by any builder, since the graph has a start.
  have looped : ∀ builder : Builder, ∃ loop after,
      (steps (.star g)).perform builder = (after, .ok loop) ∧ after.next = loop.next ∧
        ∀ state, state ∈ loop.states ↔
          state ∈ g.states ∨ state ∈ List.range' (max builder.next 5) 2 := by
    intro builder
    have begins : ∀ h ∈ (Operation.star g).operands, ∃ start, h.start = some start := by
      simpa [Operation.operands] using ⟨1, rfl⟩
    obtain ⟨_, _, succeeds, states, _⟩ := @perform_exact builder _ third
    obtain ⟨loop, given⟩ := succeeds.mpr ⟨begins, List.pairwise_singleton _ _⟩
    obtain ⟨states, onward⟩ := states loop given
    refine ⟨loop, _, Prod.ext rfl given, onward, fun state => (states state).trans ?_⟩
    exact or_congr_left (by simp [Operation.operands])
  refine ⟨?_, ?_, looped below, looped beyond⟩
  · obtain ⟨fails, spares, _⟩ := @perform_exact below _ first
    have failed := (fails .missingStart).mpr
      (.missingStart (List.mem_cons_of_mem g List.mem_cons_self) rfl)
    exact Prod.ext (spares _ failed) failed
  · obtain ⟨fails, spares, _⟩ := @perform_exact below _ second
    have failed : _ = Except.error (Error.stateCollision 2) :=
      (fails _).mpr (.stateCollision rfl (fun h listed => ?_) least)
    · exact Prod.ext (spares _ failed) failed
    · have listed : h = g ∨ h = below.literalGraph 'x' := by
        simpa [Operation.operands] using listed
      rcases listed with rfl | rfl
      · exact ⟨1, rfl⟩
      · exact ⟨2, rfl⟩

end Builder

end PatternAutomata
