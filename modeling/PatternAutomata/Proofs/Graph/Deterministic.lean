import PatternAutomata.Proofs.Graph.Run

/-! Deterministic graphs follow a single state, and may keep track of another graph. -/

namespace PatternAutomata

namespace Graph

/-- No edge is silent, and no two edges leave a state with one character. -/
structure Deterministic (g : Graph) : Prop where
  /-- Every edge reads a character. -/
  not_silent : ∀ p q, ⟨p, .epsilon, q⟩ ∉ g.edges
  /-- A state and a character leave no choice. -/
  target_unique : ∀ p c q q', ⟨p, .char c, q⟩ ∈ g.edges → ⟨p, .char c, q'⟩ ∈ g.edges → q = q'

/-- A graph is deterministic exactly when it leaves no choice. -/
theorem deterministic_iff {g : Graph} : g.Deterministic ↔ g.isNondeterministic = false := by
  constructor
  · intro det
    -- A choice would be a silent edge or a second target.
    refine Bool.eq_false_iff.mpr fun choice => ?_
    obtain ⟨⟨p, symbol, q⟩, member, bad⟩ := isNondeterministic_iff.mp choice
    cases symbol with
    | epsilon => exact det.not_silent p q member
    | char c =>
      rcases bad with silent | rival
      · cases silent
      · obtain ⟨⟨p', symbol', q'⟩, member', source, symbol, different⟩ := rival
        simp only at source symbol different
        subst source symbol
        exact different (det.target_unique p' c q' q member' member)
  · intro single
    have single : ¬ g.isNondeterministic = true := by simp [single]
    constructor
    · intro p q member
      exact single (isNondeterministic_iff.mpr ⟨_, member, Or.inl rfl⟩)
    · intro p c q q' member member'
      apply Classical.byContradiction
      intro different
      exact single (isNondeterministic_iff.mpr
        ⟨_, member', Or.inr ⟨_, member, rfl, rfl, different⟩⟩)

/-- A state that is named as a successor is entered by an edge. -/
theorem edge_of_successor? {g : Graph} {p q : State} {c : Char} (next : g.successor? p c = some q) :
    ⟨p, .char c, q⟩ ∈ g.edges :=
  mem_successors.mp (List.mem_of_head? next)

/-- A state without successor for a character has no edge with it. -/
theorem successor?_eq_none {g : Graph} {p : State} {c : Char} :
    g.successor? p c = none ↔ ∀ q, ⟨p, .char c, q⟩ ∉ g.edges := by
  -- The first successor is missing exactly if there is none at all.
  rw [successor?, List.head?_eq_none_iff, List.eq_nil_iff_forall_not_mem]
  simp only [mem_successors]

namespace Deterministic

/-- A graph without edges leaves no choice. -/
theorem blank : ({} : Graph).Deterministic where
  not_silent _ _ := SortedSet.not_mem_empty _
  target_unique _ _ _ _ member := absurd member (SortedSet.not_mem_empty _)

variable {g : Graph}

/-- The only target of an edge is the successor. -/
theorem successor?_eq_some (det : g.Deterministic) {p q : State} {c : Char} :
    g.successor? p c = some q ↔ ⟨p, .char c, q⟩ ∈ g.edges := by
  -- Where there is an edge there is a successor, and there is no other target.
  constructor
  · exact edge_of_successor?
  · intro edge
    cases next : g.successor? p c with
    | none => exact absurd edge (successor?_eq_none.mp next q)
    | some q' => rw [det.target_unique p c q' q (edge_of_successor? next) edge]

/-- Without silent edges every set of states is closed. -/
theorem silentlyClosed (det : g.Deterministic) (states : SortedSet State) :
    g.SilentlyClosed states := by
  intro p _ q edge
  exact absurd edge (det.not_silent p q)

/-- Advancing from a single state ends at most in its successor. -/
theorem advance_singleton (det : g.Deterministic) (p : State) (c : Char) :
    g.advance {p} c = match g.successor? p c with
      | some q => {q}
      | none => ∅ := by
  -- Nothing is reached silently, so an advance is a single move.
  rw [advance, (det.silentlyClosed _).closure_eq]
  apply SortedSet.ext
  intro r
  cases next : g.successor? p c with
  | none => simp [successor?_eq_none.mp next]
  | some q =>
    have only : ⟨p, .char c, r⟩ ∈ g.edges ↔ r = q := by
      rw [← det.successor?_eq_some, next, Option.some_inj]
      exact eq_comm
    simp [only]

/-- Reading a character ends in a single state exactly if an edge leads there. -/
theorem advance_eq_singleton_iff (det : g.Deterministic) {p q : State} {c : Char} :
    g.advance {p} c = {q} ↔ ⟨p, .char c, q⟩ ∈ g.edges := by
  rw [det.advance_singleton, ← det.successor?_eq_some]
  -- An empty set is not the set of one state.
  cases g.successor? p c <;> simp

/-- Running begins in the start state alone. -/
theorem accepts_eq (det : g.Deterministic) {start : State} (set : g.start = some start)
    (input : String) : g.accepts input = g.acceptsFrom {start} input.toList := by
  rw [accepts, set]
  -- No silent edge leads on from the start.
  show g.acceptsFrom (g.closure {start}) input.toList = _
  rw [(det.silentlyClosed _).closure_eq]

end Deterministic

/--
Related states of a deterministic graph keep track of sets of states of another graph.

Both agree on being final, and reading a character leads on to related states or nowhere in both.
-/
structure Tracks (d g : Graph) (Related : State → SortedSet State → Prop) : Prop where
  /-- The graph that keeps track is deterministic. -/
  det : d.Deterministic
  /-- A state is final when its set counts as final. -/
  final_iff : ∀ k states, Related k states → (k ∈ d.finals ↔ g.containsFinal states = true)
  /-- Where the set leads nowhere, the state does not either. -/
  stop : ∀ k states c, Related k states → g.advance states c = ∅ → d.successor? k c = none
  /-- Where the set leads on, the state leads to a state for what is reached. -/
  onward : ∀ k states c, Related k states → g.advance states c ≠ ∅ →
    ∃ k', d.successor? k c = some k' ∧ Related k' (g.advance states c)

/-- What keeps track of a set of states accepts the same inputs. -/
theorem Tracks.acceptsFrom_eq {d g : Graph} {Related : State → SortedSet State → Prop}
    (tracks : Tracks d g Related) {k : State} {states : SortedSet State}
    (related : Related k states) (input : List Char) :
    d.acceptsFrom {k} input = g.acceptsFrom states input := by
  -- After every character the state and the set are related again, or both runs have stopped.
  induction input generalizing k states with
  | nil =>
    rw [acceptsFrom, acceptsFrom, Bool.eq_iff_iff, ← tracks.final_iff k states related]
    simp
  | cons c rest ih =>
    rw [acceptsFrom_cons, acceptsFrom_cons, tracks.det.advance_singleton]
    by_cases nowhere : g.advance states c = ∅
    · rw [tracks.stop k states c related nowhere, nowhere]
      show d.acceptsFrom ∅ rest = g.acceptsFrom ∅ rest
      rw [acceptsFrom_empty, acceptsFrom_empty]
    · obtain ⟨k', next, related⟩ := tracks.onward k states c related nowhere
      rw [next]
      exact ih related

/-- Where the set is led to by an input, the state is led to a state that keeps track of it. -/
theorem Tracks.exists_path {d g : Graph} {Related : State → SortedSet State → Prop}
    (tracks : Tracks d g Related) {k : State} {states : SortedSet State}
    (related : Related k states) {input : List Char} (somewhere : g.advanceAll states input ≠ ∅) :
    ∃ k', d.Path k input k' ∧ Related k' (g.advanceAll states input) := by
  induction input generalizing k states with
  | nil => exact ⟨k, Path.here k, related⟩
  | cons c rest ih =>
    -- An input that leads anywhere does not get lost at its first character.
    have first : g.advance states c ≠ ∅ := fun nowhere => by
      apply somewhere
      show g.advanceAll (g.advance states c) rest = ∅
      rw [nowhere, advanceAll_empty]
    obtain ⟨q, next, related⟩ := tracks.onward k states c related first
    obtain ⟨k', path, related⟩ := ih related somewhere
    exact ⟨k', Path.read (edge_of_successor? next) path, related⟩

/-- Wherever the state is led to by an input keeps track of what the set is led to. -/
theorem Tracks.related_of_path {d g : Graph} {Related : State → SortedSet State → Prop}
    (tracks : Tracks d g Related) {k k' : State} {states : SortedSet State}
    (related : Related k states) {input : List Char} (path : d.Path k input k') :
    Related k' (g.advanceAll states input) := by
  induction path generalizing states with
  | here => exact related
  | silent edge _ _ => exact absurd edge (tracks.det.not_silent _ _)
  | @read k q _ c _ edge _ ih =>
    -- The edge is the only one, so it leads to the state for what the character reaches.
    have next := tracks.det.successor?_eq_some.mpr edge
    have somewhere : g.advance states c ≠ ∅ := fun nowhere => by
      rw [tracks.stop k states c related nowhere] at next
      cases next
    obtain ⟨q', next', related'⟩ := tracks.onward k states c related somewhere
    cases next.symm.trans next'
    exact ih related'

end Graph

end PatternAutomata
