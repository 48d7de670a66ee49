import PatternAutomata.Proofs.Minimize.Reduced
import PatternAutomata.Proofs.Session

/-! A graph that was made deterministic is the part of the subset automaton that inputs reach. -/

namespace PatternAutomata

namespace Exploration

variable {g : Graph} {x x' : Exploration} {k : State}

/-- Every state but the first is entered from a state that was found before it. -/
def Entered (x : Exploration) : Prop :=
  -- The first state may be entered as well, but need not be.
  ∀ k, 0 < k → k < x.subsets.length → ∃ j < k, ∃ c, ⟨j, .char c, k⟩ ∈ x.dfa.edges

/-- A state that is found by following a character is entered from where the character was read. -/
theorem Entered.follow (entered : x.Entered) (sound : x.Sound g) (known : k < x.subsets.length)
    {subset : SortedSet State} {c : Char} (followed : follow g k subset x c = .ok x') :
    x'.Entered := by
  obtain ⟨_, same⟩ | ⟨_, target, y, dfa, visited, added, same⟩ := follow_cases followed
  · rwa [same]
  · rw [same]
    obtain ⟨_, _, changed⟩ := Graph.addEdge_cases added
    have edges : ∀ edge, edge ∈ dfa.edges ↔ edge = ⟨k, .char c, target⟩ ∨ edge ∈ y.dfa.edges := by
      intro edge
      rw [changed]
      exact SortedSet.mem_insert
    intro j positive below
    obtain ⟨_, same⟩ | ⟨unmet, _⟩ := visit_cases visited
    · -- No state was found, and all edges have stayed.
      subst same
      obtain ⟨i, before, d, edge⟩ := entered j positive below
      exact ⟨i, before, d, (edges _).mpr (Or.inr edge)⟩
    · obtain ⟨fresh, new, again⟩ := visit_new sound unmet
      cases visited.symm.trans again
      rw [List.length_append, List.length_singleton] at below
      rcases Nat.lt_succ_iff_lt_or_eq.mp below with old | same
      · obtain ⟨i, before, d, edge⟩ := entered j positive old
        exact ⟨i, before, d, (edges _).mpr (Or.inr (new.edges ▸ edge))⟩
      · -- The state that was found is the last one.
        subst same
        exact ⟨k, known, c, (edges _).mpr (Or.inl rfl)⟩

/-- Expanding a state keeps all states entered. -/
theorem Entered.expand (entered : x.Entered) (wf : g.WellFormed) (sound : x.Sound g)
    (known : k < x.subsets.length) (expanded : expand g k x = .ok x') : x'.Entered := by
  have stands : x.subsets[k]? = some (x.subsetOf k) := by
    simp [subsetOf, List.getD_eq_getElem?_getD, known]
  -- While characters are followed, the exploration stays sound and the state keeps its set.
  have onward : ∀ y c y', y.Sound g ∧ x.Grown y ∧ y.Entered →
      Exploration.follow g k (x.subsetOf k) y c = .ok y' →
      y'.Sound g ∧ x.Grown y' ∧ y'.Entered := by
    rintro y c y' ⟨sound, grown, entered⟩ followed
    have stands' := grown.getElem? stands
    obtain ⟨_, again, sound', grown', _⟩ := follow_ok wf sound stands' c
    cases followed.symm.trans again
    have known' := (List.getElem?_eq_some_iff.mp stands').1
    exact ⟨sound', grown.trans grown', entered.follow sound known' followed⟩
  rw [Exploration.expand] at expanded
  exact (Outcome.foldlM_preserves onward ⟨sound, Grown.refl x, entered⟩ expanded).2.2

/-- Exploring keeps all states entered. -/
theorem Entered.explore (entered : x.Entered) (wf : g.WellFormed) (sound : x.Sound g) {bound : Nat}
    (explored : explore g bound x = .ok x') : x'.Entered := by
  -- The exploration has to be sound for a pending state to be known.
  have onward : ∀ x k pending x', x.pending = k :: pending → Sound g x ∧ Entered x →
      Exploration.expand g k { x with pending } = .ok x' → Sound g x' ∧ Entered x' := by
    rintro x k pending x' taken ⟨sound, entered⟩ expanded
    have known : k < x.subsets.length := sound.pending_lt k (taken ▸ List.mem_cons_self)
    have rest := sound.take taken
    obtain ⟨_, again, sound', _⟩ := expand_ok wf rest known
    cases expanded.symm.trans again
    have entered' : Entered { x with pending } := entered
    exact ⟨sound', entered'.expand wf rest known expanded⟩
  exact (explore_preserves onward ⟨sound, entered⟩ explored).2

namespace Finished

variable {start : State}

/-- Every state of a finished exploration but the first is entered from an earlier one. -/
theorem entered (finished : Finished g start x) (wf : g.WellFormed) (known : start ∈ g.states) :
    x.Entered := by
  obtain ⟨first, begins, explored⟩ := finished.explored
  obtain ⟨first', begins', begun⟩ := begun_ok wf known
  cases begins.symm.trans begins'
  -- At first there is no state but the start.
  have initial : first.Entered := by
    intro k positive below
    rw [begun.subsets, List.length_singleton] at below
    omega
  exact initial.explore wf begun.sound (explored 0)

/-- An input leads to the state for the set in which reading it ends. -/
theorem path_iff (finished : Finished g start x) (wf : g.WellFormed) {input : List Char} :
    x.dfa.Path 0 input k ↔ x.subsets[k]? = some (g.advanceAll (g.closure {start}) input) := by
  have tracks := finished.tracks wf
  constructor
  · exact fun path => tracks.related_of_path finished.initial path
  · intro stands
    -- The set is not empty, so the input leads to a state for it, and there is only one.
    have somewhere := finished.sound.ne_empty _ (List.mem_of_getElem? stands)
    obtain ⟨k', path, stands'⟩ := tracks.exists_path finished.initial somewhere
    cases finished.unique stands stands'
    exact path

end Finished

end Exploration

namespace Graph

/--
The states of a deterministic graph stand for the sets of states in which reading can end.

There is one state for each such set, and none for anything else.
-/
structure IsSubsetAutomaton (d g : Graph) (start : State) : Prop where
  /-- The states are numbered without gaps. -/
  gapless : d.Gapless
  /-- The first state is the start. -/
  begins : d.start = some 0
  /-- No edge is silent, and a state and a character leave no choice. -/
  det : d.Deterministic
  /-- An input leads to a state exactly if reading it can end anywhere. -/
  leads_iff : ∀ input, (∃ k, d.Path 0 input k) ↔ g.endsOf start input ≠ ∅
  /-- Inputs lead to one state, or both to none, exactly if reading them ends in one set. -/
  same_iff : ∀ first second,
    (∀ k, d.Path 0 first k ↔ d.Path 0 second k) ↔ g.endsOf start first = g.endsOf start second
  /-- A state to which an input leads is final exactly if reading the input can end so. -/
  final_iff : ∀ input k, d.Path 0 input k →
    (k ∈ d.finals ↔ g.containsFinal (g.endsOf start input) = true)
  /-- Some input leads to every state. -/
  reached : ∀ k ∈ d.states, ∃ input, d.Path 0 input k
  /-- Every state but the first is entered from a state with a smaller number. -/
  entered : ∀ k ∈ d.states, 0 < k → ∃ j ∈ d.states, j < k ∧ ∃ c, ⟨j, .char c, k⟩ ∈ d.edges
  /-- The alphabet has the characters with which reading can end anywhere. -/
  mem_alphabet : ∀ c, c ∈ d.alphabet ↔ ∃ input, g.endsOf start (input ++ [c]) ≠ ∅

end Graph

/-- A finished exploration has built the subset automaton. -/
theorem Exploration.Finished.isSubsetAutomaton {g : Graph} {x : Exploration} {start : State}
    (finished : Finished g start x) (wf : g.WellFormed) (known : start ∈ g.states) :
    x.dfa.IsSubsetAutomaton g start where
  gapless k := by rw [finished.sound.mem_states, finished.sound.next_eq]
  begins := finished.begins
  det := finished.sound.deterministic
  leads_iff input := by
    constructor
    · rintro ⟨k, path⟩
      exact finished.sound.ne_empty _ (List.mem_of_getElem? ((finished.path_iff wf).mp path))
    · intro somewhere
      obtain ⟨k, path, _⟩ := (finished.tracks wf).exists_path finished.initial somewhere
      exact ⟨k, path⟩
  same_iff first second := by
    have stands : ∀ input, g.endsOf start input ≠ ∅ →
        ∃ k, x.dfa.Path 0 input k ∧ x.subsets[k]? = some (g.endsOf start input) :=
      fun input somewhere => (finished.tracks wf).exists_path finished.initial somewhere
    simp only [finished.path_iff wf]
    constructor
    · intro same
      -- Either one of the sets has a state, which then stands for both, or neither has.
      by_cases left : g.endsOf start first = ∅
      · by_cases right : g.endsOf start second = ∅
        · rw [left, right]
        · obtain ⟨k, _, stands⟩ := stands second right
          exact Option.some.inj (((same k).mpr stands).symm.trans stands)
      · obtain ⟨k, _, stands⟩ := stands first left
        exact Option.some.inj (stands.symm.trans ((same k).mp stands))
    · intro same k
      exact Iff.of_eq (congrArg (x.subsets[k]? = some ·) same)
  final_iff input k path := by
    rw [finished.sound.mem_finals, (finished.path_iff wf).mp path]
    simp [Graph.endsOf]
  reached _ member := finished.exists_path wf known member
  entered k member positive := by
    obtain ⟨j, before, c, edge⟩ :=
      finished.entered wf known k positive ((finished.sound.mem_states k).mp member)
    exact ⟨j, finished.sound.wf.source_mem _ edge, before, c, edge⟩
  mem_alphabet c := by
    have tracks := finished.tracks wf
    rw [finished.sound.wf.alphabet_iff]
    constructor
    · rintro ⟨⟨j, symbol, k⟩, edge, reads⟩
      cases reads
      -- An input leads to the source of the edge, and by one more character to its target.
      obtain ⟨input, path⟩ := finished.exists_path wf known (finished.sound.wf.source_mem _ edge)
      have longer := (finished.path_iff wf).mp (path.append (Graph.Path.read edge (.here k)))
      exact ⟨input, finished.sound.ne_empty _ (List.mem_of_getElem? longer)⟩
    · rintro ⟨input, somewhere⟩
      rw [Graph.endsOf, Graph.advanceAll, List.foldl_append] at somewhere
      have nonempty : g.advanceAll (g.closure {start}) input ≠ ∅ := fun nowhere => by
        apply somewhere
        show g.advance (g.advanceAll _ input) c = ∅
        rw [nowhere, Graph.advance_empty]
      obtain ⟨j, _, stands⟩ := tracks.exists_path finished.initial nonempty
      obtain ⟨k, next, _⟩ := tracks.onward j _ c stands somewhere
      exact ⟨_, Graph.edge_of_successor? next, rfl⟩

namespace Graph

/-- A graph with a start that can be reached is made deterministic as its subset automaton. -/
theorem determinize_isSubsetAutomaton {g : Graph} (reachable : g.Reachable) {start : State}
    (begins : g.start = some start) :
    ∃ d, g.determinize = .ok d ∧ d.IsSubsetAutomaton g start := by
  have wf := reachable.wellFormed
  -- An exploration that has come to its end is such an automaton.
  obtain ⟨x, finished, determined⟩ := determinize_eq wf begins
  exact ⟨x.dfa, determined, finished.isSubsetAutomaton wf (wf.start_mem start begins)⟩

/-- A graph with a silent cycle, a choice and an unreachable state can be made deterministic. -/
theorem determinize_isSubsetAutomaton_choice : ∃ g : Graph, g.Reachable ∧ g.start = some 0 ∧
    g.isNondeterministic = true ∧ ∃ d, g.determinize = .ok d ∧ d.IsSubsetAutomaton g 0 := by
  have reachable : Reachable _ := ⟨[.newGraph "g", .createStates "g" 4,
    .addEdge "g" ⟨0, .epsilon, 1⟩, .addEdge "g" ⟨1, .epsilon, 0⟩, .addEdge "g" ⟨1, .char 'a', 1⟩,
    .addEdge "g" ⟨1, .char 'a', 2⟩, .addEdge "g" ⟨3, .char 'b', 2⟩, .setStart "g" 0,
    .markFinal "g" 2], "g", rfl⟩
  -- There is a silent circle, a choice of two targets, and a state that is not reached.
  exact ⟨_, reachable, rfl, by decide, determinize_isSubsetAutomaton reachable rfl⟩

end Graph

end PatternAutomata
