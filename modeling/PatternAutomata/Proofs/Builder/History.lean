import Mathlib.Data.List.Induction
import PatternAutomata.Builder.History
import PatternAutomata.Proofs.Builder.Assembly
import PatternAutomata.Proofs.Builder.Language
import PatternAutomata.Proofs.Session

/-! New states of a builder are new to all that it has built, so what it has built stays apart. -/

namespace PatternAutomata

namespace Builder

open Outcome

/-- A graph can be built upon, and a builder has passed all its numbers. -/
structure Ready (builder : Builder) (g : Graph) : Prop where
  /-- The graph is well formed. -/
  wf : g.WellFormed
  /-- The graph has a start. -/
  begins : ∃ start, g.start = some start
  /-- The next number of the graph is not above that of the builder. -/
  passed : g.next ≤ builder.next

namespace Ready

variable {builder : Builder} {g : Graph}

/-- A builder that has moved on has still passed all numbers. -/
theorem mono (ready : Ready builder g) {later : Builder} (onward : builder.next ≤ later.next) :
    Ready later g :=
  ⟨ready.wf, ready.begins, Nat.le_trans ready.passed onward⟩

/-- A builder passes the numbers of what it releases. -/
theorem release (wf : g.WellFormed) (begins : ∃ start, g.start = some start) :
    Ready (builder.release g).2 (builder.release g).1 :=
  ⟨wf, begins, Nat.le_max_right ..⟩

/-- The states have numbers below the next one of the builder. -/
theorem lt_next (ready : Ready builder g) {state : State} (member : state ∈ g.states) :
    state < builder.next :=
  Nat.lt_of_lt_of_le (ready.wf.states_lt state member) ready.passed

end Ready

/-- The numbers of a builder and of the graphs that it works on are used up. -/
theorem next_le_firstFree (builder : Builder) (operation : Operation Graph) :
    builder.next ≤ builder.firstFree operation ∧
      ∀ g ∈ operation.operands, g.next ≤ builder.firstFree operation := by
  -- What is free lies above all counters that are there, of one or two operands or none.
  cases operation <;> simp only [firstFree, Operation.operands] <;> grind

/-- If a builder has passed the numbers of all graphs that it works on, its next one is free. -/
theorem firstFree_eq {builder : Builder} {operation : Operation Graph}
    (passed : ∀ g ∈ operation.operands, g.next ≤ builder.next) :
    builder.firstFree operation = builder.next := by
  -- A maximum is the counter of the builder if no other one lies above that.
  cases operation <;> simp [firstFree, Operation.operands] at passed ⊢ <;> grind

/-- An operation of a builder has given a graph, in which new states are numbered from one on. -/
structure Performed (builder : Builder) (operation : Operation Graph) (first : State)
    (out : Graph × Builder) : Prop where
  /-- The graph can be built upon. -/
  ready : Ready out.2 out.1
  /-- The builder had not reached the first new state. -/
  reached : builder.next ≤ first
  /-- The operands have no state that is as large. -/
  above : ∀ g ∈ operation.operands, ∀ state ∈ g.states, state < first
  /-- The states are those of the operands and the new ones. -/
  mem_states : ∀ state, state ∈ out.1.states ↔
    (∃ g ∈ operation.operands, state ∈ g.states) ∨ state ∈ List.range' first operation.created
  /-- The numbers of the graph go on behind the new states. -/
  next_eq : out.1.next = first + operation.created
  /-- The builder goes on where the graph does. -/
  after_eq : out.2.next = out.1.next

section Performing

variable {builder : Builder} {operation : Operation Graph} {left right inner g : Graph}
  {out : Graph × Builder}

/-- The builder has not gone back. -/
theorem Performed.onward {first : State} (performed : Performed builder operation first out) :
    builder.next ≤ out.2.next := by
  -- The counter moves to behind the new states, if there are any.
  rw [performed.after_eq, performed.next_eq]
  exact Nat.le_add_right_of_le performed.reached

/-- What is released is what an operation gives, if it has the right states and numbers. -/
theorem Performed.release (wfOperands : ∀ g ∈ operation.operands, g.WellFormed)
    (wf : g.WellFormed) (begins : ∃ start, g.start = some start)
    (next_eq : g.next = builder.firstFree operation + operation.created)
    (mem_states : ∀ state, state ∈ g.states ↔ (∃ h ∈ operation.operands, state ∈ h.states) ∨
      state ∈ List.range' (builder.firstFree operation) operation.created) :
    Performed builder operation (builder.firstFree operation) (builder.release g) := by
  obtain ⟨reached, passed⟩ := builder.next_le_firstFree operation
  -- The counter of the graph has been raised above that of the builder before.
  refine ⟨Ready.release wf begins, reached, fun h listed state member => ?_, mem_states, next_eq,
    Nat.max_eq_right ?_⟩
  · exact Nat.lt_of_lt_of_le ((wfOperands h listed).states_lt state member) (passed h listed)
  · rw [next_eq]
    exact Nat.le_add_right_of_le reached

/-- Repetitions take over the states of one operand. -/
theorem performed_of_repetition (operands : operation.operands = [inner])
    (created : operation.created = 2) (wf : inner.WellFormed) {allowEmpty : Bool}
    (performed : builder.repetition inner allowEmpty = .ok out) :
    Performed builder operation (builder.firstFree operation) out := by
  obtain ⟨start, begins, same⟩ := (repetition_eq_ok_iff wf).mp performed
  subst same
  -- Both repetitions take in the one operand and create two states.
  refine Performed.release (by simpa [operands]) (wellFormed_repetitionGraph wf begins) ⟨_, rfl⟩
    ?_ fun state => ?_
  · rw [repetitionGraph, Graph.next_framed, created, firstFree, operands]
    rfl
  · rw [mem_states_repetitionGraph, created, firstFree, operands]
    simp [adopted]

/-- Whatever operation has succeeded on well-formed graphs, it is known what it has given. -/
theorem performed_of_perform (wf : ∀ g ∈ operation.operands, g.WellFormed)
    (performed : builder.perform operation = .ok out) :
    Performed builder operation (builder.firstFree operation) out := by
  cases operation with
  | literal c =>
    cases (literal_eq builder c).symm.trans performed
    refine Performed.release wf (wellFormed_literalGraph builder c) ⟨_, rfl⟩ rfl fun state => ?_
    simpa [Operation.operands, Operation.created, firstFree] using mem_states_literalGraph
  | concat left right =>
    have wfLeft := wf left (by simp [Operation.operands])
    have wfRight := wf right (by simp [Operation.operands])
    obtain ⟨_, _, ready, same⟩ := (concat_eq_ok_iff wfLeft wfRight).mp performed
    subst same
    -- No state is new, since the operands are linked directly.
    refine Performed.release wf (wellFormed_concatGraph wfLeft wfRight ready)
      ⟨_, ready.leftBegins⟩ (Graph.next_withEdges ..) fun state => ?_
    simpa [Operation.operands, Operation.created] using mem_states_concatGraph
  | union left right =>
    have wfLeft := wf left (by simp [Operation.operands])
    have wfRight := wf right (by simp [Operation.operands])
    obtain ⟨leftStart, rightStart, ready, same⟩ := (union_eq_ok_iff wfLeft wfRight).mp performed
    subst same
    refine Performed.release wf (wellFormed_unionGraph wfLeft wfRight ready) ⟨_, rfl⟩
      Graph.next_framed fun state => ?_
    have states : state ∈ (builder.unionGraph left right leftStart rightStart).states ↔ _ :=
      mem_states_unionGraph
    simpa [Operation.operands, Operation.created, firstFree, joined] using states
  | star inner =>
    exact performed_of_repetition rfl rfl (wf inner (by simp [Operation.operands])) performed
  | plus inner =>
    exact performed_of_repetition rfl rfl (wf inner (by simp [Operation.operands])) performed

/-- Two graphs with starts that share no state can be combined. -/
theorem exists_combinable (begins : ∀ g ∈ [left, right], ∃ start, g.start = some start)
    (apart : [left, right].Pairwise Apart) :
    ∃ leftStart rightStart, Combinable left right leftStart rightStart := by
  -- Of a pair there is only one pair to be kept apart.
  obtain ⟨leftStart, leftBegins⟩ := begins left List.mem_cons_self
  obtain ⟨rightStart, rightBegins⟩ := begins right (List.mem_cons_of_mem _ List.mem_cons_self)
  exact ⟨leftStart, rightStart, leftBegins, rightBegins, List.pairwise_pair.mp apart⟩

/-- An operation succeeds on well-formed graphs with starts that share no state. -/
theorem perform_ok (wf : ∀ g ∈ operation.operands, g.WellFormed)
    (begins : ∀ g ∈ operation.operands, ∃ start, g.start = some start)
    (apart : operation.operands.Pairwise Apart) :
    ∃ out, builder.perform operation = .ok out := by
  -- Only the operations on two operands could find a shared state.
  cases operation with
  | literal c => exact ⟨_, literal_eq builder c⟩
  | concat left right =>
    have wfLeft := wf left (by simp [Operation.operands])
    have wfRight := wf right (by simp [Operation.operands])
    obtain ⟨_, _, ready⟩ := exists_combinable begins apart
    exact ⟨_, concat_ok wfLeft wfRight ready⟩
  | union left right =>
    have wfLeft := wf left (by simp [Operation.operands])
    have wfRight := wf right (by simp [Operation.operands])
    obtain ⟨_, _, ready⟩ := exists_combinable begins apart
    exact ⟨_, union_ok wfLeft wfRight ready⟩
  | star inner =>
    obtain ⟨_, begins⟩ := begins inner (by simp [Operation.operands])
    exact ⟨_, repetition_ok (wf inner (by simp [Operation.operands])) begins true⟩
  | plus inner =>
    obtain ⟨_, begins⟩ := begins inner (by simp [Operation.operands])
    exact ⟨_, repetition_ok (wf inner (by simp [Operation.operands])) begins false⟩

end Performing

namespace History

variable {history : History} {operation : Operation Operand}

/-- Steps that give a graph leave the builder that has built it. -/
theorem next_of_ok {out : Graph × Builder}
    (performs : history.builder.perform (operation.map history.graph) = .ok out) :
    history.next operation = ⟨out.2, history.outcomes ++ [.ok out.1]⟩ := by
  -- The steps give what the operation gives, and leave the builder that it gives.
  rw [next, Assembly.perform_ofOperation, performs]
  rfl

/-- Steps that fail leave the builder as it was. -/
theorem next_of_error {error : Error}
    (fails : history.builder.perform (operation.map history.graph) = .error error) :
    history.next operation = ⟨history.builder, history.outcomes ++ [.error error]⟩ := by
  -- The steps leave the builder when the operation fails.
  rw [next, Assembly.perform_ofOperation, fails]
  rfl

/-- All that has been built can be built upon. -/
def Sound (history : History) : Prop := ∀ g, .ok g ∈ history.outcomes → Ready history.builder g

namespace Sound

/-- At first nothing has been built. -/
theorem empty : Sound {} := fun _ listed => absurd listed List.not_mem_nil

/-- An operand is well formed, whether it was built or comes from elsewhere. -/
theorem wellFormed_graph (sound : history.Sound) {operand : Operand}
    (foreign : ∀ g, operand = .foreign g → g.WellFormed) : (history.graph operand).WellFormed := by
  cases operand with
  | foreign g => exact foreign g rfl
  | earlier number =>
    simp only [History.graph]
    split
    · rename_i found
      exact (sound _ (List.mem_of_getElem? found)).wf
    · -- What was never built is the graph without states.
      exact Graph.WellFormed.blank 0

variable (sound : history.Sound) (foreign : ∀ g, .foreign g ∈ operation.operands → g.WellFormed)

include sound foreign

/-- An operation gives a graph of which all is known, or it fails and leaves the builder alone. -/
theorem next_cases :
    (∃ first out, history.next operation = ⟨out.2, history.outcomes ++ [.ok out.1]⟩ ∧
      Performed history.builder (operation.map history.graph) first out) ∨
    ∃ error, history.next operation = ⟨history.builder, history.outcomes ++ [.error error]⟩ := by
  -- The operands are well formed, so what came of a success is known.
  have wf : ∀ g ∈ (operation.map history.graph).operands, g.WellFormed := by
    intro g listed
    obtain ⟨operand, listed, same⟩ := Operation.mem_operands_map.mp listed
    rw [← same]
    exact sound.wellFormed_graph fun g origin => foreign g (origin ▸ listed)
  cases performs : history.builder.perform (operation.map history.graph) with
  | ok out => exact Or.inl ⟨_, out, next_of_ok performs, performed_of_perform wf performs⟩
  | error error => exact Or.inr ⟨error, next_of_error performs⟩

/-- The numbers that the builder gives out never fall. -/
theorem onward : history.builder.next ≤ (history.next operation).builder.next := by
  -- After a failure the builder is the same.
  rcases sound.next_cases foreign with ⟨first, out, after, performed⟩ | ⟨error, after⟩
  · rw [after]
    exact performed.onward
  · exact Nat.le_of_eq (by rw [after])

/-- One more operation keeps a history sound. -/
theorem next : (history.next operation).Sound := by
  intro g built
  rcases sound.next_cases foreign with ⟨first, out, after, performed⟩ | ⟨error, after⟩
  · rw [after] at built ⊢
    -- The new graph is the last one, and the builder has not gone back behind the others.
    rcases List.mem_append.mp built with old | new
    · exact (sound g old).mono performed.onward
    · cases List.mem_singleton.mp new
      exact performed.ready
  · rw [after] at built ⊢
    exact sound g (by simpa using built)

/-- An operation has the states of its operands, and new ones that nothing else has. -/
theorem exists_created {g : Graph}
    (gives : (history.next operation).outcomes = history.outcomes ++ [.ok g]) :
    ∃ first,
      (∀ state, state ∈ g.states ↔
        (∃ operand ∈ operation.operands, state ∈ (history.graph operand).states) ∨
          state ∈ List.range' first operation.created) ∧
      ∀ state ∈ List.range' first operation.created,
        (∀ operand ∈ operation.operands, state ∉ (history.graph operand).states) ∧
          ∀ h, .ok h ∈ history.outcomes → state ∉ h.states := by
  rcases sound.next_cases foreign with ⟨first, out, after, performed⟩ | ⟨error, after⟩
  · rw [after] at gives
    cases List.append_cancel_left gives
    refine ⟨first, fun state => ?_, fun state created => ⟨fun operand listed inside => ?_, ?_⟩⟩
    · simpa using performed.mem_states state
    · have taken : history.graph operand ∈ (operation.map history.graph).operands :=
        Operation.mem_operands_map.mpr ⟨operand, listed, rfl⟩
      have below : state < first := performed.above (history.graph operand) taken state inside
      exact absurd below (Nat.not_lt.mpr (List.mem_range'_1.mp created).1)
    · -- The builder has passed all states of what was built before.
      intro h built shared
      have reached := Nat.le_trans performed.reached (List.mem_range'_1.mp created).1
      exact absurd ((sound h built).lt_next shared) (Nat.not_lt.mpr reached)
  · -- A failed operation gives no graph.
    rw [after] at gives
    cases List.append_cancel_left gives

omit foreign in
/-- Any number of operations keep a history sound. -/
theorem run {operations : List (Operation Operand)}
    (foreign : ∀ operation ∈ operations, ∀ g, .foreign g ∈ operation.operands → g.WellFormed) :
    (history.run operations).Sound := by
  -- What the first operation leaves behind is where the others begin.
  induction operations generalizing history with
  | nil => exact sound
  | cons operation rest ih =>
    refine ih (sound.next (foreign operation List.mem_cons_self)) ?_
    exact fun later listed => foreign later (List.mem_cons_of_mem _ listed)

end Sound

/-- All operations have succeeded, and what they built and has not been used shares no states. -/
structure Orderly (history : History) (used : List Operand) : Prop where
  /-- What was built can be built upon. -/
  sound : history.Sound
  /-- No operation has failed. -/
  succeeded : ∀ outcome ∈ history.outcomes, ∃ g, outcome = .ok g
  /-- Graphs that are not used share no states with each other. -/
  apart : ∀ i j g h, i ≠ j → history.outcomes[i]? = some (.ok g) →
    history.outcomes[j]? = some (.ok h) → .earlier i ∉ used → .earlier j ∉ used → Apart g h

/-- The operands of an operation are different, and they have been built and not been used. -/
structure Fits (history : History) (used : List Operand) (operation : Operation Operand) :
    Prop where
  /-- The operands are those of earlier operations. -/
  known : ∀ operand ∈ operation.operands,
    ∃ number < history.outcomes.length, operand = .earlier number
  /-- No operand is taken twice. -/
  once : operation.operands.Nodup
  /-- No operand has been used before. -/
  unused : ∀ operand ∈ operation.operands, operand ∉ used

namespace Orderly

variable {used : List Operand} (orderly : history.Orderly used)

include orderly

/-- Each earlier operation has built a graph. -/
theorem exists_graph {number : Nat} (below : number < history.outcomes.length) :
    ∃ g, history.outcomes[number]? = some (.ok g) ∧ .ok g ∈ history.outcomes ∧
      history.graph (.earlier number) = g := by
  -- There is an outcome, and outcomes are graphs.
  have found : history.outcomes[number]? = some history.outcomes[number] :=
    List.getElem?_eq_getElem below
  obtain ⟨g, built⟩ := orderly.succeeded _ (List.getElem_mem below)
  rw [built] at found
  exact ⟨g, found, List.mem_of_getElem? found, by simp [History.graph, found]⟩

variable (fits : history.Fits used operation)

include fits

/-- An operation on different graphs that were built and not used succeeds. -/
theorem exists_next :
    ∃ first out, history.next operation = ⟨out.2, history.outcomes ++ [.ok out.1]⟩ ∧
      Performed history.builder (operation.map history.graph) first out := by
  -- The operands are among what was built, and different ones share no state.
  have ready : ∀ g ∈ (operation.map history.graph).operands, Ready history.builder g := by
    intro g listed
    obtain ⟨operand, listed, same⟩ := Operation.mem_operands_map.mp listed
    obtain ⟨number, below, origin⟩ := fits.known operand listed
    obtain ⟨h, _, built, graph⟩ := orderly.exists_graph below
    rw [← same, origin, graph]
    exact orderly.sound h built
  have apart : (operation.map history.graph).operands.Pairwise Apart := by
    rw [Operation.operands_map, List.pairwise_map]
    refine fits.once.imp_of_mem fun {left right} listed listed' different => ?_
    obtain ⟨i, below, rfl⟩ := fits.known left listed
    obtain ⟨j, below', rfl⟩ := fits.known right listed'
    obtain ⟨g, found, _, graph⟩ := orderly.exists_graph below
    obtain ⟨h, found', _, graph'⟩ := orderly.exists_graph below'
    rw [graph, graph']
    have numbers : i ≠ j := fun same => different (congrArg Operand.earlier same)
    exact orderly.apart i j g h numbers found found' (fits.unused _ listed)
      (fits.unused _ listed')
  have wf := fun g listed => (ready g listed).wf
  obtain ⟨out, performs⟩ : ∃ out, history.builder.perform (operation.map history.graph) = .ok out :=
    perform_ok wf (fun g listed => (ready g listed).begins) apart
  exact ⟨_, out, next_of_ok performs, performed_of_perform wf performs⟩

/-- The new graph shares no states with graphs that are not used, not even by its operation. -/
theorem apart_new {first : State} {out : Graph × Builder}
    (performed : Performed history.builder (operation.map history.graph) first out) {j : Nat}
    {h : Graph} (found : history.outcomes[j]? = some (.ok h)) (idle : .earlier j ∉ used)
    (spared : .earlier j ∉ operation.operands) : Apart out.1 h := by
  intro state member
  rcases (performed.mem_states state).mp member with ⟨taken, listed, inside⟩ | created
  · obtain ⟨operand, listed, same⟩ := Operation.mem_operands_map.mp listed
    obtain ⟨i, below, rfl⟩ := fits.known operand listed
    obtain ⟨k, found', _, graph⟩ := orderly.exists_graph below
    rw [← same, graph] at inside
    -- The state is that of an operand, which is another graph than the one that is spared.
    have different : i ≠ j := fun numbers => spared (numbers ▸ listed)
    exact orderly.apart i j k h different found' found (fits.unused _ listed) idle state inside
  · intro shared
    have ready := orderly.sound h (List.mem_of_getElem? found)
    have reached := Nat.le_trans performed.reached (List.mem_range'_1.mp created).1
    exact absurd (ready.lt_next shared) (Nat.not_lt.mpr reached)

/-- An operation on different graphs that were built and not used keeps a history orderly. -/
theorem next :
    (history.next operation).Orderly (used ++ operation.operands) ∧
      (history.next operation).outcomes.length = history.outcomes.length + 1 := by
  have foreign : ∀ g, .foreign g ∈ operation.operands → g.WellFormed := by
    intro g listed
    obtain ⟨_, _, origin⟩ := fits.known _ listed
    cases origin
  obtain ⟨first, out, after, performed⟩ := orderly.exists_next fits
  have sound := orderly.sound.next foreign
  rw [after] at sound ⊢
  refine ⟨⟨sound, fun outcome listed => ?_, ?_⟩, by simp⟩
  · rcases List.mem_append.mp listed with old | new
    · exact orderly.succeeded outcome old
    · exact ⟨out.1, List.mem_singleton.mp new⟩
  · intro i j left right different found found' idle idle'
    rw [List.mem_append, not_or] at idle idle'
    -- Either graph is an earlier one or the new one, and they are not both the new one.
    rcases getElem?_snoc.mp found with old | ⟨last, same⟩
    · rcases getElem?_snoc.mp found' with old' | ⟨last', same'⟩
      · exact orderly.apart i j left right different old old' idle.1 idle'.1
      · cases same'
        exact (orderly.apart_new fits performed old idle.1 idle.2).symm
    · rcases getElem?_snoc.mp found' with old' | ⟨last', same'⟩
      · cases same
        exact orderly.apart_new fits performed old' idle'.1 idle'.2
      · exact absurd (last.trans last'.symm) different

end Orderly

end History

/-- The beginning of a thrifty plan is thrifty. -/
theorem Thrifty.beginning {before after : List (Operation Operand)}
    (thrifty : Thrifty (before ++ after)) : Thrifty before where
  known entry listed := thrifty.known entry (by
    rw [List.zipIdx_append]
    exact List.mem_append_left _ listed)
  -- A name that occurs at most once in all occurs at most once in a part.
  once := by
    have once := thrifty.once
    rw [List.flatMap_append] at once
    exact (List.nodup_append.mp once).1

/-- A thrifty plan succeeds in all its operations, and keeps apart what it has not used. -/
theorem Thrifty.orderly {plan : List (Operation Operand)} (thrifty : Thrifty plan) :
    (History.run {} plan).Orderly (plan.flatMap Operation.operands) ∧
      (History.run {} plan).outcomes.length = plan.length := by
  -- The induction is on the plan from its end, since each operation looks back on those before it.
  induction plan using List.reverseRecOn with
  | nil =>
    refine ⟨⟨History.Sound.empty, fun outcome listed => absurd listed List.not_mem_nil, ?_⟩, rfl⟩
    intro i j g h _ found
    cases found
  | append_singleton before operation ih =>
    obtain ⟨orderly, length⟩ := ih thrifty.beginning
    have last : (operation, before.length) ∈ (before ++ [operation]).zipIdx := by
      simp [List.zipIdx_append]
    have once := thrifty.once
    rw [List.flatMap_append, List.flatMap_singleton, List.nodup_append] at once
    obtain ⟨_, different, apart⟩ := once
    have fits : (History.run {} before).Fits (before.flatMap Operation.operands) operation := {
      known := by
        rw [length]
        exact thrifty.known _ last
      once := different
      unused := fun operand listed earlier => apart operand earlier operand listed rfl }
    rw [History.run, List.foldl_append, List.flatMap_append, List.flatMap_singleton,
      List.length_append, ← length]
    exact orderly.next fits

namespace History

/--
What an operation does not take from its operands is new to all that the builder has built before.

If every operand was built before and none is used twice, no operation fails, and at every point
the graphs that have not been used share no states.
-/
theorem fresh_and_apart :
    (∀ (operations : List (Operation Operand)) (operation : Operation Operand),
      (∀ performed ∈ operations ++ [operation], ∀ g, .foreign g ∈ performed.operands →
        g.Reachable) →
      let before := run {} operations
      let after := before.next operation
      before.builder.next ≤ after.builder.next ∧
        ∀ g, after.outcomes = before.outcomes ++ [.ok g] → ∃ first,
          (∀ state, state ∈ g.states ↔
            (∃ operand ∈ operation.operands, state ∈ (before.graph operand).states) ∨
              state ∈ List.range' first operation.created) ∧
          ∀ state ∈ List.range' first operation.created,
            (∀ operand ∈ operation.operands, state ∉ (before.graph operand).states) ∧
              ∀ h, .ok h ∈ before.outcomes → state ∉ h.states) ∧
    ∀ before after : List (Operation Operand), Thrifty (before ++ after) →
      let history := run {} before
      let used := before.flatMap Operation.operands
      history.outcomes.length = before.length ∧
        (∀ outcome ∈ history.outcomes, ∃ g, outcome = .ok g) ∧
        ∀ i j g h, i ≠ j → history.outcomes[i]? = some (.ok g) →
          history.outcomes[j]? = some (.ok h) → .earlier i ∉ used → .earlier j ∉ used →
            Apart g h := by
  constructor
  · intro operations operation reachable before after
    -- Whatever can be reached is well formed, which is all that is asked of foreign graphs.
    have sound : before.Sound := Sound.empty.run fun performed listed g origin =>
      (reachable performed (List.mem_append_left _ listed) g origin).wellFormed
    have foreign : ∀ g, .foreign g ∈ operation.operands → g.WellFormed := fun g origin =>
      (reachable operation (List.mem_append_right _ List.mem_cons_self) g origin).wellFormed
    exact ⟨sound.onward foreign, fun g gives => sound.exists_created foreign gives⟩
  · intro before after thrifty
    obtain ⟨orderly, length⟩ := thrifty.beginning.orderly
    exact ⟨length, orderly.succeeded, orderly.apart⟩

/--
A graph from elsewhere has the numbers of earlier graphs, and an operation has failed before.

The two states that its loop adds are new all the same, and a plan with all operations is thrifty.
-/
theorem fresh_and_apart_foreign :
    let g : Graph := { states := .ofList [0, 1, 2, 3], next := 4, start := some 0 }
    let operations : List (Operation Operand) := [.literal 'a', .concat (.earlier 0) (.earlier 0)]
    let plan : List (Operation Operand) := [.literal 'a', .literal 'b', .literal 'c',
      .concat (.earlier 2) (.earlier 0), .star (.earlier 3), .union (.earlier 4) (.earlier 1)]
    (∃ out, ((run {} operations).next (.star (.foreign g))).outcomes =
        (run {} operations).outcomes ++ [.ok out] ∧
      ∃ first, ∀ state ∈ List.range' first 2,
        state ∉ g.states ∧ ∀ h, .ok h ∈ (run {} operations).outcomes → state ∉ h.states) ∧
    Thrifty (plan ++ [.plus (.earlier 5)]) ∧
      ∀ outcome ∈ (run {} plan).outcomes, ∃ g, outcome = .ok g := by
  intro g operations plan
  have reachable : g.Reachable := ⟨[.newGraph "g", .createStates "g" 4, .setStart "g" 0], "g", rfl⟩
  have thrifty : Thrifty (plan ++ [.plus (.earlier 5)]) := by decide
  have known : ∀ performed ∈ operations ++ [.star (.foreign g)], ∀ h,
      .foreign h ∈ performed.operands → h.Reachable := by
    intro performed listed h origin
    -- Only the last operation has an operand from elsewhere.
    simp only [operations, List.cons_append, List.nil_append, List.mem_cons, List.not_mem_nil,
      or_false] at listed
    rcases listed with rfl | rfl | rfl
    · simp [Operation.operands] at origin
    · simp [Operation.operands] at origin
    · have same : h = g := by simpa [Operation.operands] using origin
      exact same ▸ reachable
  obtain ⟨first, _, new⟩ := (fresh_and_apart.1 operations (.star (.foreign g)) known).2 _ rfl
  refine ⟨⟨_, rfl, first, fun state created => ?_⟩, thrifty, (fresh_and_apart.2 plan _ thrifty).2.1⟩
  obtain ⟨apart, unbuilt⟩ := new state created
  exact ⟨apart (.foreign g) List.mem_cons_self, unbuilt⟩

end History

end Builder

end PatternAutomata
