import PatternAutomata.Builder.Assembly
import PatternAutomata.Proofs.Builder
import PatternAutomata.Proofs.Graph.Edit

/-! The steps of an operation do what the operation does, and leave the builder if they fail. -/

namespace PatternAutomata

open Outcome

namespace Edit

/-- The graph that some steps make of a graph, unless they fail. -/
def outcome (edit : Edit Unit) (g : Graph) : Except Error Graph :=
  -- What is left of the graph after a failure is of no interest.
  match edit.perform g with
  | (changed, .ok ()) => .ok changed
  | (_, .error error) => .error error

variable {edit first second : Edit Unit} {operation : Graph → Except Error Graph}

/-- What is done completely or not at all comes out as the operation does. -/
theorem AllOrNothing.outcome_eq (steps : AllOrNothing edit operation) (g : Graph) :
    edit.outcome g = operation g := by
  -- Only the graph that an operation leaves when it fails is given up.
  rw [outcome, steps g]
  cases operation g with
  | ok changed => rfl
  | error error => rfl

/-- Steps that follow others are made on what comes out of these. -/
theorem outcome_bind (first second : Edit Unit) (g : Graph) :
    (first >>= fun _ => second).outcome g = first.outcome g >>= second.outcome := by
  -- The second steps are made only if the first ones have not failed.
  simp only [outcome, Steps.perform_bind]
  rcases first.perform g with ⟨changed, _ | _⟩
  · rfl
  · rfl

/-- Steps for each element of a list come out as a loop over the list does. -/
theorem outcome_forM {α : Type} {steps : α → Edit Unit} {step : Graph → α → Except Error Graph}
    (each : ∀ a g, (steps a).outcome g = step g a) (list : List α) (g : Graph) :
    (list.forM steps).outcome g = list.foldlM step g := by
  induction list generalizing g with
  | nil => rfl
  | cons a rest ih =>
    -- What comes out of the steps for the first element is where the others begin.
    show (steps a >>= fun _ => rest.forM steps).outcome g = _
    rw [outcome_bind, each, List.foldlM_cons]
    exact congrArg (step g a >>= ·) (funext ih)

/-- States are marked in a loop that ends at the first one that cannot be. -/
theorem outcome_markFinals (states : List State) (g : Graph) :
    (markFinals states).outcome g = states.foldlM Graph.markFinal g := by
  induction states generalizing g with
  | nil => rfl
  | cons state rest ih =>
    -- The first state is marked, or all that follows is given up.
    rw [markFinals, outcome_bind, (allOrNothing_markFinal state).outcome_eq, List.foldlM_cons]
    exact congrArg (g.markFinal state >>= ·) (funext ih)

end Edit

namespace Graph

variable {g : Graph}

/-- The order in which two edges are added makes no difference. -/
theorem withEdge_comm (g : Graph) (edge other : Edge) :
    (g.withEdge edge).withEdge other = (g.withEdge other).withEdge edge := by
  -- Edges and characters are kept in sets, which do not know in which order they have come.
  have edges : insert other (insert edge g.edges) = insert edge (insert other g.edges) := by
    ext e
    simp [or_left_comm]
  have alphabet : ((g.withEdge edge).withEdge other).alphabet =
      ((g.withEdge other).withEdge edge).alphabet := by
    ext c
    cases first : edge.symbol <;> cases second : other.symbol <;>
      simp [withEdge, first, second, or_left_comm]
  show ({ g with
    edges := insert other (insert edge g.edges)
    alphabet := ((g.withEdge edge).withEdge other).alphabet } : Graph) = _
  rw [edges, alphabet]
  rfl

/-- An edge that is there already does not matter to whether another one can be added. -/
theorem addEdge_withEdge (g : Graph) (edge other : Edge) :
    (g.withEdge other).addEdge edge = (g.addEdge edge).map (·.withEdge other) := by
  -- Only the states are asked for, and these are the same.
  have states : (g.withEdge other).states = g.states := rfl
  by_cases source : edge.source ∈ g.states
  · by_cases target : edge.target ∈ g.states
    · rw [addEdge_eq source target, addEdge_eq (states ▸ source) (states ▸ target), withEdge_comm]
      rfl
    · simp [addEdge, states, source, target, Except.map]
  · simp [addEdge, states, source, Except.map]

/-- An edge that is there already does not matter to whether others can be added. -/
theorem foldlM_addEdge_withEdge (g : Graph) (edges : List Edge) (other : Edge) :
    edges.foldlM addEdge (g.withEdge other) = (edges.foldlM addEdge g).map (·.withEdge other) := by
  induction edges generalizing g with
  | nil => rfl
  | cons edge rest ih =>
    -- Both loops fail at the same edge, or go on with the other one in addition.
    rw [List.foldlM_cons, List.foldlM_cons, addEdge_withEdge]
    cases g.addEdge edge with
    | ok changed => exact ih changed
    | error error => rfl

/-- Adding an edge leaves the states as they are. -/
theorem states_of_addEdge {changed : Graph} {edge : Edge} (added : g.addEdge edge = .ok changed) :
    changed.states = g.states := by
  obtain ⟨_, _, same⟩ := addEdge_cases added
  rw [same]

/-- An edge between states of a graph may be added before or after other edges. -/
theorem foldlM_addEdge_swap {edge : Edge} (source : edge.source ∈ g.states)
    (target : edge.target ∈ g.states) (edges : List Edge) :
    g.addEdge edge >>= edges.foldlM addEdge = edges.foldlM addEdge g >>= (·.addEdge edge) := by
  rw [addEdge_eq source target, ok_bind, foldlM_addEdge_withEdge]
  cases looped : edges.foldlM addEdge g with
  | error error => rfl
  | ok all =>
    -- The loop has added no states, so that the edge still finds its ends.
    have kept : all.states = g.states :=
      foldlM_preserves (fun h _ _ same added => (states_of_addEdge added).trans same) rfl looped
    exact (addEdge_eq (kept ▸ source) (kept ▸ target)).symm

/-- Adding edges two at a time is as good as adding them in two rounds. -/
theorem foldlM_addEdge_pairs {α : Type} (first second : α → Edge)
    (source : ∀ a, (second a).source = (first a).source) {list : List α}
    (target : ∀ a ∈ list, (second a).target ∈ g.states) :
    list.foldlM (fun g a => g.addEdge (first a) >>= (·.addEdge (second a))) g =
      (list.map first).foldlM addEdge g >>= (list.map second).foldlM addEdge := by
  induction list generalizing g with
  | nil => rfl
  | cons a rest ih =>
    rw [List.foldlM_cons, List.map_cons, List.map_cons, List.foldlM_cons]
    cases added : g.addEdge (first a) with
    | error error => rfl
    | ok changed =>
      -- Both ends of the second edge are known once the first one has been added.
      have states := states_of_addEdge added
      obtain ⟨begins, _, _⟩ := addEdge_cases added
      have source : (second a).source ∈ changed.states := by rwa [source, states]
      have ends : (second a).target ∈ changed.states := states ▸ target a List.mem_cons_self
      have later := ih (g := changed.withEdge (second a)) fun b listed =>
        states ▸ target b (List.mem_cons_of_mem _ listed)
      -- It is moved behind the first edges of all other pairs.
      have swapped := foldlM_addEdge_swap source ends (rest.map first)
      rw [addEdge_eq source ends, ok_bind] at swapped
      rw [ok_bind, ok_bind, addEdge_eq source ends, ok_bind, later, swapped, bind_assoc]
      rfl

/-- Two silent edges for each of some states are added in two rounds, if the second can be. -/
theorem foldlM_addEdge_twice (sources : SortedSet State) (first : State) {second : State}
    (known : second ∈ g.states) :
    sources.toList.foldlM (fun g state => g.addEdge ⟨state, .epsilon, first⟩ >>=
      (·.addEdge ⟨state, .epsilon, second⟩)) g =
        g.addSilentEdges sources first >>= (·.addSilentEdges sources second) := by
  -- Both edges of a pair have the same source, so that one round may follow the other.
  have rounds := foldlM_addEdge_pairs (fun state => ⟨state, .epsilon, first⟩)
    (fun state => ⟨state, .epsilon, second⟩) (fun _ => rfl) fun _ (_ : _ ∈ sources.toList) => known
  rw [rounds, List.foldlM_map]
  exact congrArg (_ >>= ·) (funext fun h => List.foldlM_map ..)

end Graph

namespace Assembly

open PatternAutomata.Graph

variable {α β : Type} {builder : Builder}

/-- A blank graph is made without moving the builder on. -/
theorem perform_blank (builder : Builder) :
    blank.perform builder = (builder, .ok builder.blank) :=
  rfl

/-- A state is created in a graph without moving the builder on. -/
theorem perform_createState (g : Graph) (builder : Builder) :
    (on g .createState).perform builder = (builder, .ok g.createState) :=
  rfl

/-- The start is asked for without a look at the builder. -/
theorem perform_startState (g : Graph) (builder : Builder) :
    (startState g).perform builder = (builder, g.startState) := by
  unfold startState Graph.startState
  -- Neither answer has anything to do with the builder.
  cases g.start with
  | some state => rfl
  | none => rfl

/-- Steps on a graph of their own leave the builder alone, whether or not they fail. -/
theorem perform_edit {steps : Edit Unit} {operation : Graph → Except Error Graph}
    (same : ∀ g, steps.outcome g = operation g) (g : Graph) (builder : Builder) :
    (edit g steps).perform builder = (builder, operation g) := by
  rw [← same]
  unfold edit on Edit.outcome
  -- Whatever the steps leave of the graph, the builder has no part in it.
  rcases steps.perform g with ⟨changed, _ | _⟩
  · rfl
  · rfl

section Edits

variable (g : Graph) (builder : Builder)

/-- An edge is added without moving the builder on. -/
theorem perform_addEdge (edge : Edge) :
    (edit g (.addEdge edge)).perform builder = (builder, g.addEdge edge) :=
  perform_edit (Edit.allOrNothing_addEdge edge).outcome_eq g builder

/-- An edge is added or left out without moving the builder on. -/
theorem perform_addEdge_if (wanted : Bool) (edge : Edge) :
    (if wanted then edit g (.addEdge edge) else pure g : Assembly Graph).perform builder =
      (builder, if wanted then g.addEdge edge else .ok g) := by
  -- An edge that is not wanted takes no step at all.
  cases wanted with
  | true => exact perform_addEdge g builder edge
  | false => rfl

/-- A start is set without moving the builder on. -/
theorem perform_setStart (state : State) :
    (edit g (.setStart state)).perform builder = (builder, g.setStart state) :=
  perform_edit (Edit.allOrNothing_setStart state).outcome_eq g builder

/-- A state is made final without moving the builder on. -/
theorem perform_markFinal (state : State) :
    (edit g (.markFinal state)).perform builder = (builder, g.markFinal state) :=
  perform_edit (Edit.allOrNothing_markFinal state).outcome_eq g builder

/-- Another graph is taken over without moving the builder on, even beyond its numbers. -/
theorem perform_merge (other : Graph) :
    (edit g (.merge other)).perform builder = (builder, g.merge other) :=
  perform_edit (Edit.allOrNothing_merge other).outcome_eq g builder

/-- Edges are added in a loop without moving the builder on. -/
theorem perform_addEdges {α : Type} (edge : α → Edge) (list : List α) :
    (edit g (list.forM fun a => .addEdge (edge a))).perform builder =
      (builder, list.foldlM (fun g a => g.addEdge (edge a)) g) :=
  perform_edit (Edit.outcome_forM (fun a => (Edit.allOrNothing_addEdge (edge a)).outcome_eq) list)
    g builder

/-- A loop over the states of two sets is one loop after the other. -/
theorem perform_addSilentEdges_append (left right : SortedSet State) (target : State) :
    (edit g ((left.toList ++ right.toList).forM fun state =>
      .addEdge ⟨state, .epsilon, target⟩)).perform builder =
        (builder, g.addSilentEdges left target >>= (·.addSilentEdges right target)) := by
  -- A loop over two lists in a row is a loop over the first and then over the second.
  rw [perform_addEdges, List.foldlM_append]
  rfl

/-- A loop that adds two edges for each state is as good as a loop for each of the two. -/
theorem perform_addSilentEdges_pairs (sources : SortedSet State) (first : State) {second : State}
    (known : second ∈ g.states) :
    (edit g (sources.toList.forM fun state => do
      .addEdge ⟨state, .epsilon, first⟩
      .addEdge ⟨state, .epsilon, second⟩)).perform builder =
        (builder, g.addSilentEdges sources first >>= (·.addSilentEdges sources second)) := by
  rw [← Graph.foldlM_addEdge_twice sources first known]
  refine perform_edit (Edit.outcome_forM (fun state g => ?_) sources.toList) g builder
  -- What comes out of the steps for one state is what comes out of two additions.
  rw [Edit.outcome_bind, (Edit.allOrNothing_addEdge _).outcome_eq]
  exact congrArg (_ >>= ·) (funext (Edit.allOrNothing_addEdge _).outcome_eq)

end Edits

/-- Only a graph that is handed out moves the builder on. -/
theorem perform_release (g : Graph) (builder : Builder) :
    (release g).perform builder = builder.settle (.ok (builder.release g)) :=
  rfl

/-- Steps that give a value and leave the builder alone can be left out. -/
theorem perform_bind_of_ok {first : Assembly α} {value : α} (next : α → Assembly Graph)
    (done : first.perform builder = (builder, .ok value)) :
    (first >>= next).perform builder = (next value).perform builder := by
  rw [Steps.perform_bind, done]

/-- Steps that leave the builder alone fail as an operation does, or go on as it does. -/
theorem perform_bind_of_eq {first : Assembly α} {outcome : Except Error α}
    {next : α → Assembly Graph} {onward : α → Except Error (Graph × Builder)}
    (spared : first.perform builder = (builder, outcome))
    (same : ∀ value, outcome = .ok value →
      (next value).perform builder = builder.settle (onward value)) :
    (first >>= next).perform builder = builder.settle (outcome >>= onward) := by
  rw [Steps.perform_bind, spared]
  -- A failure ends the steps where the builder is still as it was.
  cases outcome with
  | ok value => exact same value rfl
  | error error => rfl

/-- Steps may do at once what an operation does in two parts. -/
theorem perform_bind_of_eq_bind {first : Assembly α} {before : Except Error β}
    {after : β → Except Error α} {next : α → Assembly Graph}
    {onward : α → Except Error (Graph × Builder)}
    (spared : first.perform builder = (builder, before >>= after))
    (same : ∀ value, before >>= after = .ok value →
      (next value).perform builder = builder.settle (onward value)) :
    (first >>= next).perform builder =
      builder.settle (before >>= fun value => after value >>= onward) := by
  -- It does not matter which parts of the operation are taken together.
  rw [← bind_assoc]
  exact perform_bind_of_eq spared same

/-- The steps for a character do what the builder does. -/
theorem perform_literal (c : Char) (builder : Builder) :
    (literal c).perform builder = builder.settle (builder.literal c) := by
  -- Each step leaves the builder alone, up to the last one that hands out the graph.
  unfold literal Builder.literal
  rw [perform_bind_of_ok _ (perform_blank builder),
    perform_bind_of_ok _ (perform_createState _ builder),
    perform_bind_of_ok _ (perform_createState _ builder)]
  refine perform_bind_of_eq (perform_addEdge _ _ _) fun g _ => ?_
  refine perform_bind_of_eq (perform_setStart _ _ _) fun g _ => ?_
  refine perform_bind_of_eq (perform_markFinal _ _ _) fun g _ => ?_
  exact perform_release g builder

/-- The steps for one input after another do what the builder does. -/
theorem perform_concat (left right : Graph) (builder : Builder) :
    (concat left right).perform builder = builder.settle (builder.concat left right) := by
  -- Both starts are asked for before the blank graph is written for the first time.
  unfold concat Builder.concat
  refine perform_bind_of_eq (perform_startState left builder) fun leftStart _ => ?_
  refine perform_bind_of_eq (perform_startState right builder) fun rightStart _ => ?_
  rw [perform_bind_of_ok _ (perform_blank builder)]
  refine perform_bind_of_eq (perform_merge _ _ _) fun g _ => ?_
  refine perform_bind_of_eq (perform_merge _ _ _) fun g _ => ?_
  refine perform_bind_of_eq (perform_addEdges _ _ _ _) fun g _ => ?_
  refine perform_bind_of_eq (perform_setStart _ _ _) fun g _ => ?_
  refine perform_bind_of_eq (perform_edit (Edit.outcome_markFinals _) _ _) fun g _ => ?_
  exact perform_release g builder

/-- The steps for either of two inputs do what the builder does. -/
theorem perform_union (left right : Graph) (builder : Builder) :
    (union left right).perform builder = builder.settle (builder.union left right) := by
  -- The loop over all final states is one over those of each side in the operation.
  unfold union Builder.union
  refine perform_bind_of_eq (perform_startState left builder) fun leftStart _ => ?_
  refine perform_bind_of_eq (perform_startState right builder) fun rightStart _ => ?_
  rw [perform_bind_of_ok _ (perform_blank builder)]
  refine perform_bind_of_eq (perform_merge _ _ _) fun g _ => ?_
  refine perform_bind_of_eq (perform_merge _ _ _) fun g _ => ?_
  rw [perform_bind_of_ok _ (perform_createState _ builder),
    perform_bind_of_ok _ (perform_createState _ builder)]
  refine perform_bind_of_eq (perform_addEdge _ _ _) fun g _ => ?_
  refine perform_bind_of_eq (perform_addEdge _ _ _) fun g _ => ?_
  refine perform_bind_of_eq_bind (perform_addSilentEdges_append _ _ _ _ _) fun g _ => ?_
  refine perform_bind_of_eq (perform_setStart _ _ _) fun g _ => ?_
  refine perform_bind_of_eq (perform_markFinal _ _ _) fun g _ => ?_
  exact perform_release g builder

/-- The steps for repeated inputs do what the builder does. -/
theorem perform_repetition (inner : Graph) (allowEmpty : Bool) (builder : Builder) :
    (repetition inner allowEmpty).perform builder =
      builder.settle (builder.repetition inner allowEmpty) := by
  unfold repetition Builder.repetition
  refine perform_bind_of_eq (perform_startState inner builder) fun innerStart _ => ?_
  rw [perform_bind_of_ok _ (perform_blank builder)]
  refine perform_bind_of_eq (perform_merge _ _ _) fun adopted _ => ?_
  rw [perform_bind_of_ok _ (perform_createState _ builder),
    perform_bind_of_ok _ (perform_createState _ builder)]
  refine perform_bind_of_eq (perform_addEdge _ _ _) fun entered added => ?_
  refine perform_bind_of_eq (perform_addEdge_if _ _ _ _) fun g more => ?_
  -- The end of the loop has been created, and adding edges has kept it.
  have known : adopted.next + 1 ∈ g.states := by
    have states : g.states = entered.states := by
      cases allowEmpty with
      | true => exact states_of_addEdge more
      | false =>
        cases more
        rfl
    rw [states, states_of_addEdge added]
    exact mem_states_created.mpr (Or.inl rfl)
  refine perform_bind_of_eq_bind (perform_addSilentEdges_pairs _ _ _ _ known) fun g _ => ?_
  refine perform_bind_of_eq (perform_setStart _ _ _) fun g _ => ?_
  refine perform_bind_of_eq (perform_markFinal _ _ _) fun g _ => ?_
  exact perform_release g builder

/-- The steps of an operation do what it does, and leave the builder as it was if they fail. -/
theorem perform_ofOperation (operation : Builder.Operation Graph) (builder : Builder) :
    (ofOperation operation).perform builder = builder.settle (builder.perform operation) := by
  -- Both kinds of repetition differ in one edge only.
  cases operation with
  | literal c => exact perform_literal c builder
  | concat left right => exact perform_concat left right builder
  | union left right => exact perform_union left right builder
  | star inner => exact perform_repetition inner true builder
  | plus inner => exact perform_repetition inner false builder

end Assembly

end PatternAutomata
