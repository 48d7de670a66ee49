import PatternAutomata.Proofs.Minimize.Reduced
import PatternAutomata.Proofs.Session

/-! Minimizing joins exactly the states that no input tells apart, and leaves nothing to join. -/

namespace PatternAutomata

namespace Graph

/--
Two states behave alike when no input tells them apart.

An input leads nowhere from both, or it leads to states that are both final or both not.
-/
def Alike (g : Graph) (s t : State) : Prop :=
  ∀ input, ((∀ p, ¬ g.Path s input p) ∧ ∀ q, ¬ g.Path t input q) ∨
    ∃ p q, g.Path s input p ∧ g.Path t input q ∧ (p ∈ g.finals ↔ q ∈ g.finals)

/-- The states of a graph are the classes of those states of another graph that behave alike. -/
structure JoinsAlike (q g : Graph) (classOf : State → Option State) : Prop where
  /-- All parts of the graph speak of its own states. -/
  wf : q.WellFormed
  /-- No edge is silent, and a state and a character leave no choice. -/
  det : q.Deterministic
  /-- Every state has a class. -/
  total : ∀ s ∈ g.states, ∃ k, classOf s = some k
  /-- States are joined exactly if they behave alike, whether or not any input leads to them. -/
  joined_iff : ∀ s ∈ g.states, ∀ t ∈ g.states, classOf s = classOf t ↔ g.Alike s t
  /-- There is one state for each class, and there are no others. -/
  mem_states : ∀ k, k ∈ q.states ↔ ∃ s ∈ g.states, classOf s = some k
  /-- The classes are numbered from zero on, without gaps. -/
  gapless : q.Gapless
  /-- The classes are numbered in the order of their smallest members. -/
  lt_iff : ∀ j k a b, IsLeast {s | s ∈ g.states ∧ classOf s = some j} a →
    IsLeast {s | s ∈ g.states ∧ classOf s = some k} b → (j < k ↔ a < b)
  /-- A class leads to another one exactly if all of its members lead there. -/
  mem_edges : ∀ j ∈ q.states, ∀ c k, ⟨j, .char c, k⟩ ∈ q.edges ↔
    ∀ s ∈ g.states, classOf s = some j → ∃ t, ⟨s, .char c, t⟩ ∈ g.edges ∧ classOf t = some k
  /-- The start is the class of the start. -/
  start_eq : q.start = g.start.bind classOf
  /-- A class is final exactly if its members are. -/
  mem_finals : ∀ s ∈ g.states, ∀ k, classOf s = some k → (k ∈ q.finals ↔ s ∈ g.finals)
  /-- The same characters stand on edges. -/
  alphabet_eq : q.alphabet = g.alphabet

variable {g q : Graph} {p : Partition} {s t : State}

/-- In a deterministic graph states behave alike exactly if they have one future. -/
theorem Deterministic.alike_iff (det : g.Deterministic) :
    g.Alike s t ↔ g.future s = g.future t := by
  rw [Alike, funext_iff]
  refine forall_congr' fun input => ?_
  -- An input has one end or none, and the future tells whether there is an end and a final one.
  simp only [← det.reach?_eq_some, future]
  cases left : g.reach? s input <;> cases right : g.reach? t input <;> simp [isFinal]

/-- The states of a graph are listed in ascending order. -/
theorem pairwise_toList_states (g : Graph) : g.states.toList.Pairwise (· < ·) :=
  g.states.ascending.imp fun smaller => Nat.compare_eq_lt.mp smaller

/-- When nothing is left to split, classes are numbered in the order of their smallest states. -/
theorem lt_iff_of_isLeast_stabilize {j k a b : State}
    (left : IsLeast {s | s ∈ g.states ∧ (g.stabilize p).classOf s = some j} a)
    (right : IsLeast {s | s ∈ g.states ∧ (g.stabilize p).classOf s = some k} b) :
    j < k ↔ a < b := by
  -- The last refinement has numbered them, and it went through the states in ascending order.
  obtain ⟨last, same⟩ := g.exists_refine_eq p
  rw [same] at left right
  exact Partition.lt_iff_of_isLeast_byKey g.pairwise_toList_states left right

namespace IsQuotient

/-- A class leads to another one exactly if all of its members lead there. -/
theorem mem_edges_iff_forall (quot : g.IsQuotient p q) (cong : g.Congruence p) (wf : g.WellFormed)
    (det : g.Deterministic) {j : State} (member : j ∈ q.states) {c : Char} {k : Nat} :
    ⟨j, .char c, k⟩ ∈ q.edges ↔ ∀ s ∈ g.states, p.classOf s = some j →
      ∃ t, ⟨s, .char c, t⟩ ∈ g.edges ∧ p.classOf t = some k := by
  -- What holds of one member holds of all of them.
  have leads : ∀ s, p.classOf s = some j → (⟨j, .char c, k⟩ ∈ q.edges ↔
      ∃ t, ⟨s, .char c, t⟩ ∈ g.edges ∧ p.classOf t = some k) := by
    intro s placed
    rw [quot.mem_edges_iff cong wf placed, Option.bind_eq_some_iff]
    simp only [det.successor?_eq_some]
  constructor
  · exact fun edge s _ placed => (leads s placed).mp edge
  · intro all
    -- No class is without members.
    obtain ⟨s, inside, placed⟩ := quot.exists_classOf cong member
    exact (leads s placed).mpr (all s inside placed)

/-- Joining states takes no character away and adds none. -/
theorem alphabet_eq (quot : g.IsQuotient p q) (cong : g.Congruence p) (wf : g.WellFormed)
    (det : g.Deterministic) : q.alphabet = g.alphabet := by
  ext c
  rw [quot.wf.alphabet_iff, wf.alphabet_iff]
  constructor
  · rintro ⟨⟨j, symbol, k⟩, edge, reads⟩
    cases reads
    -- A member of the class has an edge with the character as well.
    obtain ⟨s, _, placed⟩ := quot.exists_classOf cong (quot.wf.source_mem _ edge)
    obtain ⟨t, next, _⟩ := Option.bind_eq_some_iff.mp ((quot.mem_edges_iff cong wf placed).mp edge)
    exact ⟨_, edge_of_successor? next, rfl⟩
  · rintro ⟨⟨s, symbol, t⟩, edge, reads⟩
    cases reads
    -- The edge leads from a class to a class.
    obtain ⟨j, placed⟩ := cong.total s (wf.source_mem _ edge)
    obtain ⟨k, placed'⟩ := cong.total t (wf.target_mem _ edge)
    have leads : (g.successor? s c).bind p.classOf = some k := by
      rw [det.successor?_eq_some.mpr edge]
      exact placed'
    exact ⟨_, (quot.mem_edges_iff cong wf placed).mpr leads, rfl⟩

/-- In the end the classes are those of the states that behave alike. -/
theorem joinsAlike (quot : g.IsQuotient (g.stabilize g.finality) q) (wf : g.WellFormed)
    (det : g.Deterministic) : q.JoinsAlike g (g.stabilize g.finality).classOf :=
  have cong := congruence_stabilize wf g.divides_finality
  { wf := quot.wf
    det := quot.deterministic wf
    total := cong.total
    joined_iff := fun s left t right => by
      rw [classOf_stabilize_eq_iff wf left right, det.alike_iff]
    mem_states := fun k => by
      constructor
      · exact fun member => quot.exists_classOf cong member
      · rintro ⟨s, _, placed⟩
        exact (quot.mem_states k).mpr (cong.class_lt s k placed)
    gapless := quot.gapless
    lt_iff := fun _ _ _ _ => lt_iff_of_isLeast_stabilize
    mem_edges := fun _ member _ _ => quot.mem_edges_iff_forall cong wf det member
    start_eq := quot.start
    mem_finals := fun _ _ _ placed => quot.mem_finals_iff cong placed
    alphabet_eq := quot.alphabet_eq cong wf det }

/-- A graph of the classes that are left in the end is minimized as it is. -/
theorem minimize_eq_self (quot : g.IsQuotient (g.stabilize g.finality) q) (wf : g.WellFormed)
    (det : g.Deterministic) {start : State} (begins : g.start = some start) :
    q.minimize = .ok q := by
  have cong := congruence_stabilize wf g.divides_finality
  obtain ⟨_, _, begins'⟩ := quot.exists_start cong wf begins
  -- States of two classes are told apart by some input, so no two classes are joined.
  have separated := quot.separated wf det
  exact separated.minimize_eq_self quot.wf (quot.deterministic wf) quot.gapless begins'

end IsQuotient

/-- A deterministic graph in which states have been joined is minimized as it is. -/
theorem exists_joinAlike_eq (wf : g.WellFormed) (det : g.Deterministic) :
    ∃ q, g.joinAlike = .ok q ∧ q.minimize = .ok q := by
  cases begins : g.start with
  | none =>
    -- Without a start the empty graph is given, in which there is nothing to join.
    exact ⟨{}, by rw [joinAlike, begins], rfl⟩
  | some start =>
    obtain ⟨q, joined, quot⟩ := joinAlike_eq wf begins
    exact ⟨q, joined, quot.minimize_eq_self wf det begins⟩

/-- A deterministic graph with a start that can be reached is minimized to its exact quotient. -/
theorem minimize_joinsAlike {g : Graph} (reachable : g.Reachable)
    (single : g.isNondeterministic = false) {start : State} (begins : g.start = some start) :
    ∃ q, g.minimize = .ok q ∧ q.JoinsAlike g (g.stabilize g.finality).classOf := by
  have wf := reachable.wellFormed
  have det := deterministic_iff.mpr single
  obtain ⟨q, joined, quot⟩ := joinAlike_eq wf begins
  -- Since the graph leaves no choice, its own states are joined, unreached ones included.
  refine ⟨q, ?_, quot.joinsAlike wf det⟩
  rw [minimize_eq_of_deterministic det, joined]

/--
States to which no input leads are joined to others, and one that lacks an edge is kept apart.

The start has the number of its class, in which it is not the smallest state.
-/
theorem minimize_joinsAlike_unreached : ∃ g q : Graph, g.Reachable ∧
    g.isNondeterministic = false ∧ g.start = some 1 ∧ g.minimize = .ok q ∧
    q.JoinsAlike g (g.stabilize g.finality).classOf ∧ g.Alike 0 1 ∧ ¬ g.Alike 1 6 := by
  have reachable : Reachable _ := ⟨[.newGraph "g", .createStates "g" 7,
    .addEdge "g" ⟨0, .char 'a', 4⟩, .addEdge "g" ⟨0, .char 'b', 5⟩, .addEdge "g" ⟨1, .char 'a', 2⟩,
    .addEdge "g" ⟨1, .char 'b', 3⟩, .addEdge "g" ⟨3, .char 'b', 3⟩, .addEdge "g" ⟨5, .char 'b', 3⟩,
    .addEdge "g" ⟨6, .char 'c', 4⟩, .setStart "g" 1, .markFinals "g" [2, 4]], "g", rfl⟩
  obtain ⟨q, minimized, joins⟩ := minimize_joinsAlike reachable (by decide) rfl
  -- Which states are joined is found by computing their classes.
  refine ⟨_, q, reachable, by decide, rfl, minimized, joins, ?_, ?_⟩
  · exact (joins.joined_iff 0 (by decide) 1 (by decide)).mp (by decide +kernel)
  · intro alike
    have together := (joins.joined_iff 1 (by decide) 6 (by decide)).mpr alike
    exact absurd together (by decide +kernel)

/-- Minimizing a graph that can be reached gives a graph that is minimized as it is. -/
theorem minimize_minimize {g : Graph} (reachable : g.Reachable) :
    ∃ q, g.minimize = .ok q ∧ q.minimize = .ok q := by
  -- Only the states of a deterministic graph are joined, be it the graph itself or another one.
  obtain ⟨dfa, _, joins, wf, det, _⟩ := exists_minimize_eq reachable.wellFormed
  rw [joins]
  exact exists_joinAlike_eq wf det

/-- A graph with choices, a silent edge and an unreachable state loses states once and for all. -/
theorem minimize_minimize_choice : ∃ g q : Graph, g.Reachable ∧ g.isNondeterministic = true ∧
    g.minimize = .ok q ∧ q.states.size = 3 ∧ q.minimize = .ok q := by
  -- Of six states one is not reached, and two of the others are not told apart.
  obtain ⟨g, reachable, choice, size⟩ : ∃ g : Graph, g.Reachable ∧ g.isNondeterministic = true ∧
      g.minimize.map (fun q => q.states.size) = .ok 3 :=
    ⟨_, ⟨[.newGraph "g", .createStates "g" 6, .addEdge "g" ⟨0, .char 'a', 1⟩,
      .addEdge "g" ⟨0, .char 'a', 2⟩, .addEdge "g" ⟨1, .char 'b', 3⟩,
      .addEdge "g" ⟨2, .epsilon, 3⟩, .addEdge "g" ⟨3, .char 'b', 1⟩,
      .addEdge "g" ⟨3, .char 'c', 4⟩, .addEdge "g" ⟨5, .char 'd', 3⟩, .setStart "g" 0,
      .markFinals "g" [1, 3]], "g", rfl⟩, by decide, by decide +kernel⟩
  obtain ⟨q, minimized, again⟩ := minimize_minimize reachable
  rw [minimized] at size
  exact ⟨g, q, reachable, choice, minimized, Except.ok.inj size, again⟩

end Graph

end PatternAutomata
