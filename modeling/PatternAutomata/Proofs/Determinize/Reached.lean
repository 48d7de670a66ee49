import PatternAutomata.Proofs.Determinize
import PatternAutomata.Proofs.Determinize.Steps
import PatternAutomata.Proofs.Graph.Future

/-! Every set that an exploration meets is reached by an input, so no state of its graph is idle. -/

namespace PatternAutomata

namespace Exploration

variable {g : Graph} {x x' : Exploration} {states subset : SortedSet State}

/-- All sets that have been met are reached from some states by reading inputs. -/
def Reached (g : Graph) (states : SortedSet State) (x : Exploration) : Prop :=
  -- The same set may be reached by many inputs, of which one is enough.
  ∀ subset ∈ x.subsets, ∃ input, subset = g.advanceAll states input

/-- What a character leads to from a set that is reached is reached by one more character. -/
theorem Reached.follow (reached : x.Reached g states) {k : State} {input : List Char}
    (source : subset = g.advanceAll states input) {c : Char}
    (followed : follow g k subset x c = .ok x') : x'.Reached g states := by
  obtain ⟨_, same⟩ | ⟨_, target, y, dfa, visited, _, same⟩ := follow_cases followed
  · rwa [same]
  · rw [same]
    obtain ⟨_, same⟩ | ⟨_, _, _, same, _⟩ := visit_cases visited
    · rwa [same]
    · -- Only the set that is visited joins the sets that have been met.
      rw [same]
      intro other met
      rcases List.mem_append.mp met with old | new
      · exact reached other old
      · refine ⟨input ++ [c], ?_⟩
        rw [List.mem_singleton.mp new, source, Graph.advanceAll, Graph.advanceAll,
          List.foldl_append]
        rfl

/-- Expanding a state keeps all sets reached. -/
theorem Reached.expand (reached : x.Reached g states) {k : State}
    (expanded : expand g k x = .ok x') : x'.Reached g states := by
  rcases Nat.lt_or_ge k x.subsets.length with below | above
  · -- The set of the state has been met, so it is reached.
    have met : x.subsetOf k ∈ x.subsets := by
      simp [subsetOf, List.getD_eq_getElem?_getD, below]
    obtain ⟨input, source⟩ := reached _ met
    exact Outcome.foldlM_preserves (fun _ _ _ reached followed => reached.follow source followed)
      reached expanded
  · -- A state that has not been given out stands for no states, which lead nowhere.
    have nothing : x.subsetOf k = ∅ := by
      simp [subsetOf, List.getD_eq_getElem?_getD, above]
    refine Outcome.foldlM_preserves (fun y c y' reached followed => ?_) reached expanded
    rw [nothing, Exploration.follow, Graph.advance_empty, if_pos rfl] at followed
    cases followed
    exact reached

/-- Exploring keeps all sets reached. -/
theorem Reached.explore {bound : Nat} (reached : x.Reached g states)
    (explored : explore g bound x = .ok x') : x'.Reached g states := by
  -- Which states are pending makes no difference to the sets that have been met.
  have onward : ∀ x k pending x', x.pending = k :: pending → Reached g states x →
      Exploration.expand g k { x with pending } = .ok x' → Reached g states x' := by
    intro x k pending x' _ reached expanded
    have rest : Reached g states { x with pending } := reached
    exact rest.expand expanded
  exact explore_preserves onward reached explored

namespace Finished

variable {start : State}

/-- The sets of a finished exploration are reached from what the start reaches silently. -/
theorem reached (finished : Finished g start x) (wf : g.WellFormed) (known : start ∈ g.states) :
    x.Reached g (g.closure {start}) := by
  obtain ⟨first, begins, explored⟩ := finished.explored
  obtain ⟨first', begins', begun⟩ := begun_ok wf known
  cases begins.symm.trans begins'
  -- The first set is reached by reading nothing.
  have initial : Reached g (g.closure {start}) first := by
    intro subset met
    rw [begun.subsets, List.mem_singleton] at met
    exact ⟨[], met⟩
  exact initial.explore (explored 0)

/-- Every state of a finished exploration has a set, which is not empty. -/
theorem exists_subset (finished : Finished g start x) {k : State} (member : k ∈ x.dfa.states) :
    ∃ subset, x.subsets[k]? = some subset ∧ subset ≠ ∅ := by
  have below := (finished.sound.mem_states k).mp member
  -- States are the places in the list of sets, none of which is empty.
  exact ⟨_, List.getElem?_eq_getElem below, finished.sound.ne_empty _ (List.getElem_mem below)⟩

/-- A set belongs to one state only. -/
theorem unique (finished : Finished g start x) {k k' : State} {subset : SortedSet State}
    (stands : x.subsets[k]? = some subset) (stands' : x.subsets[k']? = some subset) : k = k' := by
  have below : k < x.subsets.length := (List.getElem?_eq_some_iff.mp stands).1
  -- No set is in the list twice.
  exact (List.getElem?_inj below finished.sound.distinct).mp (stands.trans stands'.symm)

/-- Some input leads to every state of a finished exploration. -/
theorem exists_path (finished : Finished g start x) (wf : g.WellFormed) (known : start ∈ g.states)
    {k : State} (member : k ∈ x.dfa.states) : ∃ input, x.dfa.Path 0 input k := by
  obtain ⟨subset, stands, nonempty⟩ := finished.exists_subset member
  obtain ⟨input, source⟩ := finished.reached wf known _ (List.mem_of_getElem? stands)
  -- The input that reaches the set leads to a state for it, of which there is only one.
  obtain ⟨k', path, related⟩ :=
    (finished.tracks wf).exists_path finished.initial (source ▸ nonempty)
  rw [← source] at related
  cases finished.unique related stands
  exact ⟨input, path⟩

/-- Every state of a finished exploration is reached from its start. -/
theorem accessible (finished : Finished g start x) (wf : g.WellFormed) (known : start ∈ g.states) :
    ∀ k ∈ x.dfa.states, x.dfa.Accessible k := by
  intro k member
  -- The start of the result is the first state that was numbered.
  obtain ⟨input, path⟩ := finished.exists_path wf known member
  exact ⟨0, input, finished.begins, path⟩

/-- If all states reach final ones, all states of a finished exploration do. -/
theorem productive (finished : Finished g start x) (wf : g.WellFormed) (known : start ∈ g.states)
    (productive : g.Productive) : x.dfa.Productive := by
  intro k member
  obtain ⟨subset, stands, nonempty⟩ := finished.exists_subset member
  have met := List.mem_of_getElem? stands
  obtain ⟨input, source⟩ := finished.reached wf known _ met
  have closed : g.SilentlyClosed subset := by
    rw [source]
    exact (Graph.silentlyClosed_closure g _).advanceAll input
  -- What one of the states of the set goes on to accept, the set accepts.
  obtain ⟨p, inside⟩ := SortedSet.ne_empty_iff.mp nonempty
  obtain ⟨rest, final, ends, path⟩ := productive p (finished.sound.inside _ met p inside)
  have accepted : g.acceptsFrom subset rest = true :=
    (Graph.acceptsFrom_iff closed).mpr ⟨p, inside, final, ends, path⟩
  rw [← (finished.tracks wf).acceptsFrom_eq stands,
    finished.sound.deterministic.acceptsFrom_eq_true_iff] at accepted
  exact finished.sound.deterministic.coaccessible_iff.mpr ⟨rest, accepted⟩

/-- If a deterministic graph is explored, each set has a single state. -/
theorem exists_singleton (finished : Finished g start x) (wf : g.WellFormed)
    (known : start ∈ g.states) (det : g.Deterministic) {k : State} (member : k ∈ x.dfa.states) :
    ∃ p ∈ g.states, x.subsets[k]? = some {p} := by
  obtain ⟨subset, stands, nonempty⟩ := finished.exists_subset member
  have met := List.mem_of_getElem? stands
  obtain ⟨input, source⟩ := finished.reached wf known _ met
  rw [(det.silentlyClosed _).closure_eq, det.advanceAll_singleton] at source
  -- The input leads somewhere, or else the set would be empty.
  cases reached : g.reach? start input with
  | none =>
    rw [reached] at source
    exact absurd source nonempty
  | some p =>
    rw [reached] at source
    refine ⟨p, wf.mem_of_reach? known reached, ?_⟩
    rw [stands, source]

/-- If the states of a deterministic graph are separated, those of a finished exploration are. -/
theorem separated (finished : Finished g start x) (wf : g.WellFormed) (known : start ∈ g.states)
    (det : g.Deterministic) (separated : g.Separated) : x.dfa.Separated := by
  intro k member k' member' same
  obtain ⟨p, inside, stands⟩ := finished.exists_singleton wf known det member
  obtain ⟨p', inside', stands'⟩ := finished.exists_singleton wf known det member'
  have tracks := finished.tracks wf
  -- The states have the futures of the single states in their sets.
  rw [tracks.future_eq det stands, tracks.future_eq det stands'] at same
  rw [separated p inside p' inside' same] at stands
  exact finished.unique stands stands'

end Finished

end Exploration

end PatternAutomata
