import PatternAutomata.Determinize
import PatternAutomata.Proofs.Graph.Basic
import PatternAutomata.Proofs.Graph.Deterministic
import PatternAutomata.Proofs.SortedSet

/-! The exploration of sets of states meets every set once and ends with an equivalent automaton. -/

namespace PatternAutomata

namespace Exploration

variable {g : Graph}

/-- What holds of a deterministic graph at all times while it is built. -/
structure Sound (g : Graph) (x : Exploration) : Prop where
  /-- The graph so far is well formed. -/
  wf : x.dfa.WellFormed
  /-- The next state is for the next set. -/
  next_eq : x.dfa.next = x.subsets.length
  /-- Every set has a state, and there are no others. -/
  mem_states : ∀ k, k ∈ x.dfa.states ↔ k < x.subsets.length
  /-- No set has two states. -/
  distinct : x.subsets.Nodup
  /-- No set is empty. -/
  ne_empty : ∀ subset ∈ x.subsets, subset ≠ ∅
  /-- The sets have states of the original graph only. -/
  inside : ∀ subset ∈ x.subsets, ∀ p ∈ subset, p ∈ g.states
  /-- States are final when their sets are. -/
  mem_finals : ∀ k, k ∈ x.dfa.finals ↔
    ∃ subset, x.subsets[k]? = some subset ∧ g.containsFinal subset = true
  /-- Edges lead to the states for what is reached by a character. -/
  edge : ∀ edge ∈ x.dfa.edges, ∃ c subset, edge.symbol = .char c ∧
    x.subsets[edge.source]? = some subset ∧ x.subsets[edge.target]? = some (g.advance subset c)
  /-- Pending states have been given out. -/
  pending_lt : ∀ k ∈ x.pending, k < x.subsets.length

/-- A state may be taken from the pending ones. -/
theorem Sound.take {x : Exploration} (sound : x.Sound g) {k : State} {pending : List State}
    (taken : x.pending = k :: pending) : Sound g { x with pending } :=
  { sound with pending_lt := fun j later =>
      sound.pending_lt j (taken ▸ List.mem_cons_of_mem _ later) }

/-- How an exploration may change while no state is taken from the pending ones. -/
structure Grown (x x' : Exploration) : Prop where
  /-- Sets are only added behind the known ones. -/
  subsets : x.subsets.IsPrefix x'.subsets
  /-- Edges are only added. -/
  edges : ∀ edge ∈ x.dfa.edges, edge ∈ x'.dfa.edges
  /-- The start stays as it is. -/
  start : x'.dfa.start = x.dfa.start
  /-- Pending states stay pending. -/
  pending : ∀ k ∈ x.pending, k ∈ x'.pending
  /-- New states are pending. -/
  fresh : ∀ k, x.subsets.length ≤ k → k < x'.subsets.length → k ∈ x'.pending
  /-- There are as many new pending states as new sets. -/
  balance : x'.subsets.length + x.pending.length = x.subsets.length + x'.pending.length

namespace Grown

variable {x x' x'' : Exploration}

/-- Nothing has to change. -/
theorem refl (x : Exploration) : x.Grown x where
  subsets := List.prefix_rfl
  edges _ member := member
  start := rfl
  pending _ waiting := waiting
  fresh _ above below := absurd below (Nat.not_lt.mpr above)
  balance := rfl

/-- A state keeps its set. -/
theorem getElem? (grown : x.Grown x') {k : Nat} {subset : SortedSet State}
    (stands : x.subsets[k]? = some subset) : x'.subsets[k]? = some subset := by
  obtain ⟨more, whole⟩ := grown.subsets
  have below : k < x.subsets.length := (List.getElem?_eq_some_iff.mp stands).1
  -- New sets are put behind the ones that are there, which keep their places.
  rw [← whole, List.getElem?_append_left below, stands]

/-- One change may follow another. -/
theorem trans (first : x.Grown x') (second : x'.Grown x'') : x.Grown x'' where
  subsets := first.subsets.trans second.subsets
  edges edge member := second.edges edge (first.edges edge member)
  start := second.start.trans first.start
  pending k waiting := second.pending k (first.pending k waiting)
  fresh k above below := by
    -- A new state was added by one of the two changes.
    rcases Nat.lt_or_ge k x'.subsets.length with early | late
    · exact second.pending k (first.fresh k above early)
    · exact second.fresh k late below
  balance := by
    have := first.balance
    have := second.balance
    omega

end Grown

/-- A graph that differs from the one so far by a state for one more set. -/
structure NewState (g : Graph) (x : Exploration) (subset : SortedSet State) (dfa : Graph) :
    Prop where
  /-- The graph is still well formed. -/
  wf : dfa.WellFormed
  /-- One more number has been given out. -/
  next : dfa.next = x.dfa.next + 1
  /-- The number that was given out is a state. -/
  states : dfa.states = insert x.dfa.next x.dfa.states
  /-- The new state has no edges yet. -/
  edges : dfa.edges = x.dfa.edges
  /-- The start stays as it is. -/
  start : dfa.start = x.dfa.start
  /-- The new state is final if its set counts as final. -/
  mem_finals : ∀ k, k ∈ dfa.finals ↔
    k ∈ x.dfa.finals ∨ k = x.subsets.length ∧ g.containsFinal subset = true

/-- A set that has not been met gets a new state, which is pending. -/
theorem visit_new {x : Exploration} (sound : x.Sound g) {subset : SortedSet State}
    (unmet : subset ∉ x.subsets) :
    ∃ dfa, NewState g x subset dfa ∧ visit g x subset =
      .ok (x.subsets.length, ⟨dfa, x.subsets ++ [subset], x.subsets.length :: x.pending⟩) := by
  have search : x.subsets.idxOf? subset = none := List.idxOf?_eq_none_iff.mpr unmet
  have created : x.dfa.createState = (x.subsets.length, x.dfa.createState.2) := by
    rw [← sound.next_eq]
    rfl
  by_cases final : g.containsFinal subset = true
  · -- The state is marked right after its creation, when it is known.
    have known : x.subsets.length ∈ x.dfa.createState.2.states := by
      rw [← sound.next_eq]
      exact SortedSet.mem_insert.mpr (Or.inl rfl)
    have marked := Graph.markFinal_eq known
    refine ⟨_, ⟨sound.wf.createState.markFinal marked, rfl, rfl, rfl, rfl, fun k => ?_⟩, ?_⟩
    · have finals : k ∈ insert x.subsets.length x.dfa.finals ↔
          k = x.subsets.length ∨ k ∈ x.dfa.finals := SortedSet.mem_insert
      show k ∈ insert x.subsets.length x.dfa.finals ↔ _
      rw [finals, final]
      simp [or_comm]
    · rw [visit, search, created]
      simp only [final, if_true, marked, Outcome.ok_bind]
      rfl
  · refine ⟨_, ⟨sound.wf.createState, rfl, rfl, rfl, rfl, fun k => ?_⟩, ?_⟩
    · show k ∈ x.dfa.finals ↔ _
      simp [final]
    · rw [visit, search, created]
      simp only [final, Outcome.ok_bind]
      rfl

/-- An exploration stays sound when a set that was not met gets its state. -/
theorem NewState.sound {x : Exploration} {subset : SortedSet State} {dfa : Graph}
    (new : NewState g x subset dfa) (sound : x.Sound g) (unmet : subset ∉ x.subsets)
    (nonempty : subset ≠ ∅) (inside : ∀ p ∈ subset, p ∈ g.states) :
    Sound g ⟨dfa, x.subsets ++ [subset], x.subsets.length :: x.pending⟩ where
  wf := new.wf
  next_eq := by simp [new.next, sound.next_eq]
  mem_states k := by
    simp only [new.states, SortedSet.mem_insert, sound.mem_states, sound.next_eq,
      List.length_append, List.length_singleton]
    unfold State
    omega
  distinct := by
    simpa [List.nodup_append] using ⟨sound.distinct, fun other met same => unmet (same ▸ met)⟩
  ne_empty other member := by
    rcases List.mem_append.mp member with met | last
    · exact sound.ne_empty other met
    · rw [List.mem_singleton.mp last]
      exact nonempty
  inside other member := by
    rcases List.mem_append.mp member with met | last
    · exact sound.inside other met
    · rw [List.mem_singleton.mp last]
      exact inside
  mem_finals k := by
    -- The last set stands where the new state is, and all others stand where they were.
    simp only [new.mem_finals, sound.mem_finals, getElem?_snoc, or_and_right, exists_or, and_assoc,
      exists_eq_left, exists_and_left]
  edge edge member := by
    rw [new.edges] at member
    obtain ⟨c, reached, reads, source, target⟩ := sound.edge edge member
    exact ⟨c, reached, reads, getElem?_snoc.mpr (Or.inl source), getElem?_snoc.mpr (Or.inl target)⟩
  pending_lt k waiting := by
    rw [List.length_append, List.length_singleton]
    rcases List.mem_cons.mp waiting with same | waiting
    · exact same ▸ Nat.lt_succ_self _
    · exact Nat.lt_succ_of_lt (sound.pending_lt k waiting)

/-- An exploration grows when a set gets a new state. -/
theorem NewState.grown {x : Exploration} {subset : SortedSet State} {dfa : Graph}
    (new : NewState g x subset dfa) :
    x.Grown ⟨dfa, x.subsets ++ [subset], x.subsets.length :: x.pending⟩ where
  subsets := List.prefix_append ..
  edges edge member := by
    rw [new.edges]
    exact member
  start := new.start
  pending _ waiting := List.mem_cons_of_mem _ waiting
  fresh k above below := by
    -- Only one number has been given out.
    have same : k = x.subsets.length := by
      simp only [List.length_append, List.length_singleton] at below
      omega
    exact List.mem_cons.mpr (Or.inl same)
  balance := by
    simp only [List.length_append, List.length_cons, List.length_nil]
    omega

/-- Visiting a set gives its state, and keeps the exploration sound. -/
theorem visit_ok {x : Exploration} (sound : x.Sound g) {subset : SortedSet State}
    (nonempty : subset ≠ ∅) (inside : ∀ p ∈ subset, p ∈ g.states) :
    ∃ k x', visit g x subset = .ok (k, x') ∧ x'.Sound g ∧ x.Grown x' ∧
      x'.subsets[k]? = some subset := by
  cases search : x.subsets.idxOf? subset with
  | some k =>
    -- A set that has been met keeps its state, and nothing changes.
    obtain ⟨below, stands, _⟩ := List.idxOf?_eq_some_iff.mp search
    refine ⟨k, x, by rw [visit, search], sound, Grown.refl x, ?_⟩
    rw [List.getElem?_eq_getElem below, stands]
  | none =>
    have unmet : subset ∉ x.subsets := List.idxOf?_eq_none_iff.mp search
    obtain ⟨dfa, new, visited⟩ := visit_new sound unmet
    exact ⟨_, _, visited, new.sound sound unmet nonempty inside, new.grown, by simp⟩

/-- Following a character from a state with a set adds the edge to the set that is reached. -/
theorem follow_ok (wf : g.WellFormed) {x : Exploration} (sound : x.Sound g) {k : State}
    {subset : SortedSet State} (stands : x.subsets[k]? = some subset) (c : Char) :
    ∃ x', follow g k subset x c = .ok x' ∧ x'.Sound g ∧ x.Grown x' ∧
      (g.advance subset c ≠ ∅ → ∃ t, ⟨k, .char c, t⟩ ∈ x'.dfa.edges) := by
  rw [follow]
  by_cases nowhere : g.advance subset c = ∅
  · refine ⟨x, by rw [if_pos nowhere], sound, Grown.refl x, fun somewhere => ?_⟩
    exact absurd nowhere somewhere
  · -- What is reached by an edge and silent ones are states of the graph.
    have inside : ∀ p ∈ g.advance subset c, p ∈ g.states := by
      intro p reached
      obtain ⟨_, _, q, edge, path⟩ := Graph.mem_advance.mp reached
      exact wf.mem_of_path path (wf.target_mem _ edge)
    obtain ⟨t, x', visited, sound', grown, stands'⟩ := visit_ok sound nowhere inside
    have source : k ∈ x'.dfa.states :=
      (sound'.mem_states k).mpr (List.getElem?_eq_some_iff.mp (grown.getElem? stands)).1
    have target : t ∈ x'.dfa.states :=
      (sound'.mem_states t).mpr (List.getElem?_eq_some_iff.mp stands').1
    have added : x'.dfa.addEdge ⟨k, .char c, t⟩ = .ok (x'.dfa.withEdge ⟨k, .char c, t⟩) :=
      Graph.addEdge_eq source target
    refine ⟨{ x' with dfa := x'.dfa.withEdge ⟨k, .char c, t⟩ }, ?_, ?_, ?_, fun _ => ⟨t, ?_⟩⟩
    · rw [if_neg nowhere, visited]
      simp only [Outcome.ok_bind, added]
      rfl
    · refine { sound' with wf := sound'.wf.addEdge added, edge := ?_ }
      intro edge member
      rcases Graph.mem_edges_withEdge.mp member with same | member
      · subst same
        exact ⟨c, subset, rfl, grown.getElem? stands, stands'⟩
      · exact sound'.edge edge member
    · refine { grown with edges := ?_ }
      intro edge member
      exact Graph.mem_edges_withEdge.mpr (Or.inr (grown.edges edge member))
    · exact Graph.mem_edges_withEdge.mpr (Or.inl rfl)

/-- What holds after the edges of a state for some characters have been added. -/
structure Followed (g : Graph) (x : Exploration) (k : State) (subset : SortedSet State)
    (before : List Char) (x' : Exploration) : Prop where
  /-- The exploration is still sound. -/
  sound : x'.Sound g
  /-- The exploration has at most grown. -/
  grown : x.Grown x'
  /-- The edges are there, unless the characters lead nowhere. -/
  edges : ∀ c ∈ before, g.advance subset c ≠ ∅ → ∃ t, ⟨k, .char c, t⟩ ∈ x'.dfa.edges

/-- One more character may be followed. -/
theorem Followed.follow (wf : g.WellFormed) {x x₁ : Exploration} {k : State}
    {subset : SortedSet State} {before : List Char} (followed : Followed g x k subset before x₁)
    (stands : x.subsets[k]? = some subset) (c : Char) :
    ∃ x₂, follow g k subset x₁ c = .ok x₂ ∧ Followed g x k subset (before ++ [c]) x₂ := by
  obtain ⟨x₂, done, sound, grown, edge⟩ :=
    follow_ok wf followed.sound (followed.grown.getElem? stands) c
  refine ⟨x₂, done, sound, followed.grown.trans grown, fun d member somewhere => ?_⟩
  -- Earlier edges have stayed, and the last one has just been added.
  rcases List.mem_append.mp member with earlier | last
  · obtain ⟨t, old⟩ := followed.edges d earlier somewhere
    exact ⟨t, grown.edges _ old⟩
  · rw [List.mem_singleton.mp last] at somewhere ⊢
    exact edge somewhere

/-- The edges of a state are there, for every character that leads on from its set. -/
def Expanded (g : Graph) (x : Exploration) (k : State) : Prop :=
  -- Only sets that are not empty have states to lead to.
  ∀ subset, x.subsets[k]? = some subset →
    ∀ c ∈ g.alphabet, g.advance subset c ≠ ∅ → ∃ t, ⟨k, .char c, t⟩ ∈ x.dfa.edges

/-- Expanding a state adds all its edges. -/
theorem expand_ok (wf : g.WellFormed) {x : Exploration} (sound : x.Sound g) {k : State}
    (known : k < x.subsets.length) :
    ∃ x', expand g k x = .ok x' ∧ x'.Sound g ∧ x.Grown x' ∧ x'.Expanded g k := by
  obtain ⟨subset, stands⟩ : ∃ subset, x.subsets[k]? = some subset :=
    ⟨_, List.getElem?_eq_getElem known⟩
  have lookup : x.subsetOf k = subset := by
    rw [subsetOf, List.getD_eq_getElem?_getD, stands]
    rfl
  have initial : Followed g x k subset [] x :=
    ⟨sound, Grown.refl x, fun c none => absurd none List.not_mem_nil⟩
  obtain ⟨x', looped, followed⟩ := Outcome.foldlM_ok (follow g k subset) (Followed g x k subset)
    g.alphabet.toList initial fun _ c _ _ followed => followed.follow wf stands c
  refine ⟨x', ?_, followed.sound, followed.grown, fun other stands' => ?_⟩
  · rw [expand, lookup, looped]
  · -- The state has kept its set.
    have same : other = subset :=
      Option.some.inj (stands'.symm.trans (followed.grown.getElem? stands))
    rw [same]
    exact followed.edges

/-- All states that are not pending have their edges. -/
def Settled (g : Graph) (x : Exploration) : Prop :=
  ∀ k, k < x.subsets.length → k ∉ x.pending → x.Expanded g k

/-- Expanding the state that was taken from the pending ones leaves all others settled. -/
theorem Settled.expand {x x' : Exploration} {k : State} {pending : List State}
    (settled : x.Settled g) (taken : x.pending = k :: pending)
    (grown : Grown { x with pending } x') (expanded : x'.Expanded g k) : x'.Settled g := by
  intro j below idle
  -- A state that is not pending now is not new, and it was the taken one or not pending before.
  have old : j < x.subsets.length := by
    apply Nat.lt_of_not_le
    intro above
    exact idle (grown.fresh j above below)
  by_cases same : j = k
  · exact same ▸ expanded
  · intro subset stands c letter somewhere
    have before : j ∉ x.pending := by
      rw [taken]
      intro waiting
      rcases List.mem_cons.mp waiting with same' | later
      · exact same same'
      · exact idle (grown.pending j later)
    have kept := grown.getElem? (List.getElem?_eq_getElem old)
    have same' : subset = x.subsets[j] := Option.some.inj (stands.symm.trans kept)
    obtain ⟨t, edge⟩ := settled j old before subset (by rw [same', List.getElem?_eq_getElem old])
      c letter somewhere
    exact ⟨t, grown.edges _ edge⟩

/--
The exploration ends with all states settled and none pending.

The bound has to allow for all pending states and for all sets that have not been met.
-/
theorem explore_ok (wf : g.WellFormed) (bound : Nat) {x : Exploration} (sound : x.Sound g)
    (settled : x.Settled g)
    (enough : Nat.pow 2 g.states.size + x.pending.length ≤ bound + x.subsets.length) :
    ∃ x', explore g bound x = .ok x' ∧ x'.Sound g ∧ x'.Settled g ∧ x'.pending = [] ∧
      x'.dfa.start = x.dfa.start ∧ x.subsets.IsPrefix x'.subsets := by
  induction bound generalizing x with
  | zero =>
    -- All sets have been met, so there is no room for a pending state.
    have limit : x.subsets.length ≤ Nat.pow 2 g.states.size :=
      SortedSet.length_le_two_pow sound.distinct sound.inside
    have idle : x.pending = [] := List.eq_nil_of_length_eq_zero (by omega)
    exact ⟨x, rfl, sound, settled, idle, rfl, List.prefix_rfl⟩
  | succ bound ih =>
    rw [explore]
    cases taken : x.pending with
    | nil => exact ⟨x, rfl, sound, settled, taken, rfl, List.prefix_rfl⟩
    | cons k pending =>
      have known : k < x.subsets.length := sound.pending_lt k (taken ▸ List.mem_cons_self)
      have rest := sound.take taken
      obtain ⟨x₁, expansion, sound₁, grown, expanded⟩ := expand_ok wf rest known
      have balance : x₁.subsets.length + pending.length = x.subsets.length + x₁.pending.length :=
        grown.balance
      have room : Nat.pow 2 g.states.size + x₁.pending.length ≤ bound + x₁.subsets.length := by
        rw [taken, List.length_cons] at enough
        omega
      obtain ⟨x', explored, sound', settled', idle, start, subsets⟩ :=
        ih sound₁ (settled.expand taken grown expanded) room
      refine ⟨x', ?_, sound', settled', idle, start.trans grown.start, grown.subsets.trans subsets⟩
      simp only [expansion, Outcome.ok_bind, explored]

/-- The graph of a sound exploration leaves no choice. -/
theorem Sound.deterministic {x : Exploration} (sound : x.Sound g) : x.dfa.Deterministic where
  not_silent p q member := by
    obtain ⟨c, subset, reads, _⟩ := sound.edge _ member
    cases reads
  target_unique p c q q' member member' := by
    -- Both targets stand for the same set, and no set has two states.
    obtain ⟨d, subset, reads, source, target⟩ := sound.edge _ member
    obtain ⟨d', subset', reads', source', target'⟩ := sound.edge _ member'
    cases reads
    cases reads'
    have same : subset = subset' := Option.some.inj (source.symm.trans source')
    subst same
    have below : q < x.subsets.length := (List.getElem?_eq_some_iff.mp target).1
    exact (List.getElem?_inj below sound.distinct).mp (target.trans target'.symm)

/-- The states of a finished exploration keep track of their sets. -/
theorem Sound.tracks (wf : g.WellFormed) {x : Exploration} (sound : x.Sound g)
    (settled : x.Settled g) (idle : x.pending = []) :
    Graph.Tracks x.dfa g fun k subset => x.subsets[k]? = some subset where
  det := sound.deterministic
  final_iff k subset stands := by
    rw [sound.mem_finals, stands]
    simp
  stop k subset c stands nowhere := by
    -- An edge would lead to the state for an empty set.
    refine Graph.successor?_eq_none.mpr fun q member => ?_
    obtain ⟨d, subset', reads, source, target⟩ := sound.edge _ member
    cases reads
    have same : subset' = subset := Option.some.inj (source.symm.trans stands)
    rw [same, nowhere] at target
    exact sound.ne_empty ∅ (List.mem_of_getElem? target) rfl
  onward k subset c stands somewhere := by
    have known : k < x.subsets.length := (List.getElem?_eq_some_iff.mp stands).1
    have expanded := settled k known (by simp [idle])
    obtain ⟨t, edge⟩ :=
      expanded subset stands c (wf.mem_alphabet_of_advance somewhere) somewhere
    refine ⟨t, sound.deterministic.successor?_eq_some.mpr edge, ?_⟩
    obtain ⟨d, subset', reads, source, target⟩ := sound.edge _ edge
    cases reads
    have same : subset' = subset := Option.some.inj (source.symm.trans stands)
    rw [same] at target
    exact target

/-- The exploration that begins in a state, which stands for all that it reaches silently. -/
def begun (g : Graph) (start : State) : Except Error Exploration := do
  -- The first set that is visited gets the first number.
  let (initial, x) ← visit g {} (g.closure {start})
  return { x with dfa := ← x.dfa.setStart initial }

/-- What an exploration consists of when it begins. -/
structure Begun (g : Graph) (start : State) (x : Exploration) : Prop where
  /-- The exploration is sound. -/
  sound : x.Sound g
  /-- The first state is the start. -/
  begins : x.dfa.start = some 0
  /-- The start stands for all that is reached silently. -/
  subsets : x.subsets = [g.closure {start}]
  /-- Its edges are not there yet. -/
  pending : x.pending = [0]

/-- An exploration can begin in any state. -/
theorem begun_ok (wf : g.WellFormed) {start : State} (known : start ∈ g.states) :
    ∃ x, begun g start = .ok x ∧ Begun g start x := by
  have empty : Sound g {} := by
    refine ⟨.blank 0, rfl, ?_, .nil, ?_, ?_, ?_, ?_, ?_⟩ <;> simp
  -- The state reaches itself, and silent paths from it stay in the graph.
  have initial : start ∈ g.closure {start} :=
    Graph.mem_closure.mpr ⟨start, SortedSet.mem_singleton.mpr rfl, Graph.Path.here start⟩
  have nonempty : g.closure {start} ≠ ∅ := fun none => by
    rw [none] at initial
    exact SortedSet.not_mem_empty _ initial
  have inside : ∀ p ∈ g.closure {start}, p ∈ g.states := by
    intro p reached
    obtain ⟨q, only, path⟩ := Graph.mem_closure.mp reached
    rw [SortedSet.mem_singleton.mp only] at path
    exact wf.mem_of_path path known
  have unmet : g.closure {start} ∉ ({} : Exploration).subsets := List.not_mem_nil
  obtain ⟨dfa, new, visited⟩ := visit_new empty unmet
  have sound := new.sound empty unmet nonempty inside
  have marked := Graph.setStart_eq ((sound.mem_states 0).mpr (by simp))
  have begins : Begun g start ⟨{ dfa with start := some 0 }, [g.closure {start}], [0]⟩ :=
    ⟨{ sound with wf := new.wf.setStart marked }, rfl, rfl, rfl⟩
  exact ⟨_, Outcome.bind_ok visited (Outcome.bind_ok marked rfl), begins⟩

/-- More rounds than are needed change nothing. -/
theorem explore_add {bound : Nat} {x x' : Exploration} (explored : explore g bound x = .ok x')
    (idle : x'.pending = []) (more : Nat) : explore g (bound + more) x = .ok x' := by
  induction bound generalizing x with
  | zero =>
    cases explored
    cases more with
    | zero => rfl
    | succ more => rw [Nat.zero_add, explore, idle]
  | succ bound ih =>
    rw [Nat.succ_add, explore]
    rw [explore] at explored
    -- The rounds that are taken are the same, one state after the other.
    split at explored
    · exact explored
    · obtain ⟨next, expanded, explored⟩ := Outcome.bind_eq_ok.mp explored
      exact Outcome.bind_ok expanded (ih explored)

/-- An exploration that began in a state and has nothing left to do. -/
structure Finished (g : Graph) (start : State) (x : Exploration) : Prop where
  /-- The exploration ended after enough rounds, and would have with more of them. -/
  explored : ∃ first, begun g start = .ok first ∧
    ∀ more, explore g (Nat.pow 2 g.states.size + more) first = .ok x
  /-- The exploration is sound. -/
  sound : x.Sound g
  /-- All states that are not pending have their edges. -/
  settled : x.Settled g
  /-- No state is pending. -/
  idle : x.pending = []
  /-- The first state is the start. -/
  begins : x.dfa.start = some 0
  /-- The start stands for all that is reached silently. -/
  initial : x.subsets[0]? = some (g.closure {start})

/-- The states of a finished exploration keep track of their sets. -/
theorem Finished.tracks {start : State} {x : Exploration} (finished : Finished g start x)
    (wf : g.WellFormed) : Graph.Tracks x.dfa g fun k subset => x.subsets[k]? = some subset :=
  finished.sound.tracks wf finished.settled finished.idle

/-- Every exploration finishes. -/
theorem exists_finished (wf : g.WellFormed) {start : State} (known : start ∈ g.states) :
    ∃ x, Finished g start x := by
  obtain ⟨first, begins, begun⟩ := begun_ok wf known
  -- The only state is pending, so nothing has to be settled yet.
  have settled : first.Settled g := by
    intro k below waiting
    rw [begun.subsets, List.length_singleton, Nat.lt_one_iff] at below
    rw [begun.pending, below] at waiting
    exact absurd List.mem_cons_self waiting
  have enough : Nat.pow 2 g.states.size + first.pending.length ≤
      Nat.pow 2 g.states.size + first.subsets.length := by
    simp [begun.subsets, begun.pending]
  obtain ⟨x, explored, sound, settled, idle, start, more, whole⟩ :=
    explore_ok wf (Nat.pow 2 g.states.size) begun.sound settled enough
  refine ⟨x, ⟨first, begins, explore_add explored idle⟩, sound, settled, idle,
    start.trans begun.begins, ?_⟩
  rw [← whole, begun.subsets]
  rfl

end Exploration

namespace Graph

/-- Making a graph with a start deterministic is an exploration that finishes. -/
theorem determinize_eq {g : Graph} (wf : g.WellFormed) {start : State}
    (set : g.start = some start) :
    ∃ x, Exploration.Finished g start x ∧ g.determinize = .ok x.dfa := by
  obtain ⟨x, finished⟩ := Exploration.exists_finished wf (wf.start_mem start set)
  obtain ⟨first, begins, explored⟩ := finished.explored
  -- What has begun the exploration are the first steps of making the graph deterministic.
  obtain ⟨⟨initial, y⟩, visited, begins⟩ := Outcome.bind_eq_ok.mp begins
  obtain ⟨dfa, marked, same⟩ := Outcome.bind_eq_ok.mp begins
  cases same
  refine ⟨x, finished, ?_⟩
  rw [determinize, set]
  exact Outcome.bind_ok visited (Outcome.bind_ok marked (Outcome.bind_ok (explored 0) rfl))

/-- Every well-formed graph can be made deterministic, and accepts the same inputs then. -/
theorem determinize_ok {g : Graph} (wf : g.WellFormed) :
    ∃ dfa, g.determinize = .ok dfa ∧ dfa.WellFormed ∧ dfa.Deterministic ∧
      ∀ input, dfa.accepts input = g.accepts input := by
  cases set : g.start with
  | none =>
    -- Without a start the empty graph is given, which accepts nothing either.
    refine ⟨{}, by rw [determinize, set], .blank 0, .blank, fun input => ?_⟩
    rw [accepts, accepts, set]
  | some start =>
    obtain ⟨x, finished, determined⟩ := determinize_eq wf set
    have sound := finished.sound
    refine ⟨x.dfa, determined, sound.wf, sound.deterministic, fun input => ?_⟩
    rw [sound.deterministic.accepts_eq finished.begins,
      (finished.tracks wf).acceptsFrom_eq finished.initial, accepts, set]

end Graph

end PatternAutomata
