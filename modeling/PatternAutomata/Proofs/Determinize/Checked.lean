import PatternAutomata.Conversion.Checked
import PatternAutomata.Proofs.Determinize
import PatternAutomata.Proofs.Determinize.Steps

/-! Making a graph deterministic finds every set that it looks up and numbers the states in step. -/

namespace PatternAutomata

namespace Checked

namespace Registry

variable {g : Graph} {r : Registry} {x x' : Exploration}

/-- Whether a state waits has nothing to do with the graph. -/
@[simp] theorem dfa_enqueue (r : Registry) (state : State) (isNew : Bool) :
    (r.enqueue state isNew).dfa = r.dfa := by
  cases isNew <;> rfl

/-- Whether a state waits has nothing to do with the sets. -/
@[simp] theorem sets_enqueue (r : Registry) (state : State) (isNew : Bool) :
    (r.enqueue state isNew).sets = r.sets := by
  cases isNew <;> rfl

/-- Whether a state waits has nothing to do with the numbers of the sets. -/
@[simp] theorem numbers_enqueue (r : Registry) (state : State) (isNew : Bool) :
    (r.enqueue state isNew).numbers = r.numbers := by
  cases isNew <;> rfl

/-- A registry has the same data as an exploration, and its two containers agree. -/
structure Mirrors (r : Registry) (x : Exploration) : Prop where
  /-- The graphs are the same. -/
  dfa : r.dfa = x.dfa
  /-- The sets are the same. -/
  sets : r.sets = x.subsets
  /-- The same states wait. -/
  waiting : r.waiting = x.pending
  /-- The number that is found for a set is the place of the set. -/
  numbers : ∀ subset, r.numbers.lookup subset = x.subsets.idxOf? subset

/-- A set is registered where it is visited, and its state has the number of its place. -/
theorem Mirrors.register (mirrors : r.Mirrors x) (numbered : x.dfa.next = x.subsets.length)
    {subset : SortedSet State} {state : State} (visited : x.visit g subset = .ok (state, x')) :
    ∃ isNew r', r.register g subset = .ok (state, isNew, r') ∧
      (r'.enqueue state isNew).Mirrors x' := by
  rcases Exploration.visit_cases visited with ⟨met, rfl⟩ | ⟨unmet, given, dfa, rfl, marked⟩
  · -- A set that has been met is found with the number of its place, and nothing changes.
    refine ⟨false, r, ?_, mirrors⟩
    rw [Registry.register, mirrors.numbers, met]
  · have place : state = x.subsets.length := given.trans numbered
    have fresh : r.numbers.lookup subset = none := by
      rw [mirrors.numbers]
      exact List.idxOf?_eq_none_iff.mpr unmet
    have created : r.dfa.createState = (state, x.dfa.createState.2) := by
      rw [mirrors.dfa, given]
    let r' : Registry := ⟨dfa, (subset, state) :: r.numbers, r.sets ++ [subset], r.waiting⟩
    refine ⟨true, r', ?_, rfl, ?_, ?_, fun other => ?_⟩
    · -- The number that is given out is that of the next place, so the assertion holds.
      have asserted : ¬ state ≠ r.sets.length := by
        rw [mirrors.sets]
        exact not_not_intro place
      rw [Registry.register, fresh]
      dsimp only
      rw [created, if_neg asserted]
      rcases marked with ⟨final, marked⟩ | ⟨other, rfl⟩
      · rw [if_pos final, marked]
        rfl
      · rw [if_neg (by simp [other])]
        rfl
    · exact congrArg (· ++ [subset]) mirrors.sets
    · exact congrArg (state :: ·) mirrors.waiting
    · -- The new set is found in front, and stands at the end.
      show ((subset, state) :: r.numbers).lookup other = (x.subsets ++ [subset]).idxOf? other
      rw [idxOf?_snoc unmet, List.lookup_cons, ← mirrors.numbers, place]
      by_cases same : other = subset
      · simp [same]
      · have differs : (other == subset) = false := beq_eq_false_iff_ne.mpr same
        simp [differs, same]

/-- The edge of a state for a character is added where it is added to the exploration. -/
theorem Mirrors.follow (mirrors : r.Mirrors x) (sound : x.Sound g) {k : State}
    {subset : SortedSet State} {c : Char} (followed : x.follow g k subset c = .ok x') :
    ∃ r', r.follow g k subset c = .ok r' ∧ r'.Mirrors x' := by
  rcases Exploration.follow_cases followed with ⟨nowhere, rfl⟩ |
    ⟨somewhere, target, y, dfa, visited, added, rfl⟩
  · exact ⟨r, by rw [Registry.follow, if_pos nowhere], mirrors⟩
  · obtain ⟨isNew, r', registered, mirrors'⟩ := mirrors.register sound.next_eq visited
    have graph : r'.dfa = y.dfa := by
      rw [← mirrors'.dfa, dfa_enqueue]
    refine ⟨{ r' with dfa }.enqueue target isNew, ?_, ?_⟩
    · rw [Registry.follow, if_neg somewhere, registered]
      show ((r'.dfa.addEdge ⟨k, .char c, target⟩).mapError Lapse.refused >>= _) = _
      rw [graph, added]
      rfl
    · -- The edge may be added before or after the state begins to wait.
      have swapped : { r' with dfa }.enqueue target isNew =
          { r'.enqueue target isNew with dfa } := by
        cases isNew <;> rfl
      rw [swapped]
      exact { mirrors' with dfa := rfl }

/-- All edges of a state are added where the exploration adds them. -/
theorem Mirrors.expand (mirrors : r.Mirrors x) (wf : g.WellFormed) (sound : x.Sound g) {k : State}
    {subset : SortedSet State} (stands : x.subsets[k]? = some subset)
    (expanded : x.expand g k = .ok x') :
    ∃ r', g.alphabet.toList.foldlM (Registry.follow g k subset) r = .ok r' ∧ r'.Mirrors x' := by
  have lookup : x.subsetOf k = subset := by
    rw [Exploration.subsetOf, List.getD_eq_getElem?_getD, stands]
    rfl
  rw [Exploration.expand, lookup] at expanded
  -- The exploration stays sound on the way, and the state keeps its set.
  let related (y : Exploration) (r' : Registry) : Prop :=
    y.Sound g ∧ y.subsets[k]? = some subset ∧ r'.Mirrors y
  have values : related x r := ⟨sound, stands, mirrors⟩
  have onward : ∀ c ∈ g.alphabet.toList, ∀ y r' y', related y r' → y.follow g k subset c = .ok y' →
      ∃ r'', r'.follow g k subset c = .ok r'' ∧ related y' r'' := by
    rintro c - y r' y' ⟨sound, stands, mirrors⟩ followed
    obtain ⟨r'', followed', mirrors'⟩ := mirrors.follow sound followed
    obtain ⟨y'', same, sound', grown, -⟩ := Exploration.follow_ok wf sound stands c
    cases followed.symm.trans same
    exact ⟨r'', followed', sound', grown.getElem? stands, mirrors'⟩
  obtain ⟨r', looped, -, -, mirrors'⟩ :=
    Outcome.foldlM_follows (Registry.follow g k subset) related onward values expanded
  exact ⟨r', looped, mirrors'⟩

/-- Exploring finds a set for every state that waits, and is done when the exploration is. -/
theorem Mirrors.explore (wf : g.WellFormed) {bound : Nat} (mirrors : r.Mirrors x)
    (sound : x.Sound g) (explored : x.explore g bound = .ok x') (idle : x'.pending = []) :
    ∃ r', r.explore g bound = .ok r' ∧ r'.Mirrors x' := by
  -- Both take the same state in each round, and a state that waits has been given out.
  induction bound generalizing r x with
  | zero =>
    cases explored
    exact ⟨r, by rw [Registry.explore, if_pos (mirrors.waiting.trans idle)], mirrors⟩
  | succ bound ih =>
    rw [Exploration.explore] at explored
    rw [Registry.explore, mirrors.waiting]
    cases taken : x.pending with
    | nil =>
      rw [taken] at explored
      cases explored
      exact ⟨r, rfl, mirrors⟩
    | cons k pending =>
      rw [taken] at explored
      obtain ⟨y, expanded, explored⟩ := Outcome.bind_eq_ok.mp explored
      have known : k < x.subsets.length := sound.pending_lt k (taken ▸ List.mem_cons_self)
      have stands : x.subsets[k]? = some x.subsets[k] := List.getElem?_eq_getElem known
      have found : (Lapse.noSet k).unlessFound r.sets[k]? = .ok x.subsets[k] := by
        rw [mirrors.sets, stands, Lapse.unlessFound_some]
      have rest : Mirrors { r with waiting := pending } { x with pending } :=
        { mirrors with waiting := rfl }
      obtain ⟨r', looped, mirrors'⟩ := rest.expand wf (sound.take taken) stands expanded
      obtain ⟨y', same, sound', -⟩ := Exploration.expand_ok wf (sound.take taken) known
      cases expanded.symm.trans same
      obtain ⟨r'', finished, mirrors''⟩ := ih mirrors' sound' explored
      exact ⟨r'', Outcome.bind_ok found (Outcome.bind_ok looped finished), mirrors''⟩

/-- The registry that begins with a set has the data of the exploration that does. -/
theorem exists_register_eq {subset : SortedSet State} {initial : State}
    (visited : Exploration.visit g {} subset = .ok (initial, x)) :
    ∃ isNew r, register g {} subset = .ok (initial, isNew, r) ∧
      r.dfa = x.dfa ∧ ∀ dfa, Mirrors { r with dfa, waiting := [initial] } { x with dfa } := by
  have empty : Mirrors {} {} := ⟨rfl, rfl, rfl, fun _ => rfl⟩
  obtain ⟨isNew, r, registered, mirrors⟩ := empty.register rfl visited
  -- The first set is not met before, so its state is the only one that waits.
  have waits : x.pending = [initial] := by
    rcases Exploration.visit_cases visited with ⟨met, -⟩ | ⟨-, -, _, rfl, -⟩
    · cases met
    · rfl
  refine ⟨isNew, r, registered, ?_, fun dfa => ⟨rfl, ?_, waits.symm, ?_⟩⟩
  · rw [← mirrors.dfa, dfa_enqueue]
  · rw [← mirrors.sets, sets_enqueue]
  · intro other
    rw [← mirrors.numbers, numbers_enqueue]

end Registry

/-- A well-formed graph is made deterministic without a lapse. -/
theorem determinize_eq {g : Graph} (wf : g.WellFormed) :
    ∃ d, determinize g = .ok d ∧ g.determinize = .ok d := by
  cases set : g.start with
  | none => exact ⟨{}, by rw [determinize, set], by rw [Graph.determinize, set]⟩
  | some start =>
    obtain ⟨x, finished, determined⟩ := Graph.determinize_eq wf set
    -- The exploration that finishes is followed from its beginning.
    obtain ⟨first, begins, explored⟩ := finished.explored
    obtain ⟨first', same, begun⟩ := Exploration.begun_ok wf (wf.start_mem start set)
    cases begins.symm.trans same
    obtain ⟨⟨initial, y⟩, visited, marks⟩ := Outcome.bind_eq_ok.mp begins
    obtain ⟨dfa, marked, same⟩ := Outcome.bind_eq_ok.mp marks
    cases same
    obtain ⟨isNew, r, registered, graph, mirrors⟩ := Registry.exists_register_eq visited
    obtain ⟨r', done, mirrors'⟩ := (mirrors dfa).explore wf begun.sound (explored 0) finished.idle
    have marked' : (r.dfa.setStart initial).mapError Lapse.refused = .ok dfa := by
      rw [graph, marked]
      rfl
    refine ⟨x.dfa, ?_, determined⟩
    rw [determinize, set, ← mirrors'.dfa]
    exact Outcome.bind_ok registered (Outcome.bind_ok marked' (Outcome.bind_ok done rfl))

end Checked

end PatternAutomata
