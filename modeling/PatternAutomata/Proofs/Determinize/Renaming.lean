import PatternAutomata.Proofs.Determinize.Lockstep
import PatternAutomata.Proofs.Determinize.Reached
import PatternAutomata.Proofs.Graph.Renaming
import PatternAutomata.Proofs.Session

/-!
Numbers of states have no influence on the graph that is made deterministic.

A graph that is deterministic already loses what inputs do not reach, and after that nothing.
-/

namespace PatternAutomata

namespace Graph

variable {d g h : Graph} {rename : State → State}

/-- Whole renamings match sets of states in a way that lasts when characters are read. -/
theorem WholeRenaming.corresponding (renamed : g.WholeRenaming rename h) (wf : g.WellFormed)
    (wf' : h.WellFormed) : Corresponding g h (Matched g h rename) where
  empty := Matched.empty
  unique _ _ _ _ first second := first.eq_iff renamed second
  final_eq _ _ matched := matched.containsFinal_eq renamed
  advance _ _ c matched := matched.advance renamed wf wf' c

/-- Graphs that differ only in the numbers of their states are made into one deterministic graph. -/
theorem WholeRenaming.determinize_eq (renamed : g.WholeRenaming rename h) (wf : g.WellFormed)
    (wf' : h.WellFormed) : g.determinize = h.determinize := by
  have starts := renamed.start_eq
  cases begins : g.start with
  | none =>
    -- Neither graph has a start, and what is made of them is empty.
    rw [begins, Option.map_none] at starts
    rw [determinize, determinize, begins, starts]
  | some start =>
    rw [begins, Option.map_some] at starts
    -- The starts match, and so does what they reach silently.
    have starts' := Matched.singleton renamed (wf.start_mem start begins)
    exact determinize_eq_of_corresponding wf wf' (renamed.corresponding wf wf') begins starts
      (starts'.closure renamed wf wf')

/-- Single states, and no state, beside the sets of states that they keep track of. -/
inductive Lifted (Related : State → SortedSet State → Prop) :
    SortedSet State → SortedSet State → Prop where
  /-- No state is beside no states. -/
  | nothing : Lifted Related ∅ ∅
  /-- A state that keeps track of a set is beside it. -/
  | single {k : State} {states : SortedSet State} (related : Related k states) :
    Lifted Related {k} states

/-- If sets that are kept track of have states of their own, the states correspond to the sets. -/
theorem Tracks.corresponding {Related : State → SortedSet State → Prop}
    (tracks : Tracks d g Related) (nonempty : ∀ k states, Related k states → states ≠ ∅)
    (unique : ∀ k states k' states', Related k states → Related k' states' →
      (k = k' ↔ states = states')) : Corresponding d g (Lifted Related) where
  empty := Lifted.nothing
  unique _ _ _ _ left right := by
    -- A single state is not nothing, and what it keeps track of is not empty either.
    cases left with
    | nothing =>
      cases right with
      | nothing => simp
      | single related => exact iff_of_false (by simp) (nonempty _ _ related).symm
    | single related =>
      cases right with
      | nothing => exact iff_of_false (by simp) (nonempty _ _ related)
      | single related' => rw [SortedSet.singleton_inj, unique _ _ _ _ related related']
  final_eq _ _ lifted := by
    cases lifted with
    | nothing => rfl
    | single related =>
      rw [Bool.eq_iff_iff, ← tracks.final_iff _ _ related]
      simp
  advance _ states c lifted := by
    cases lifted with
    | nothing =>
      rw [advance_empty, advance_empty]
      exact Lifted.nothing
    | single related =>
      -- Either both lead on, to what is related again, or neither does.
      rw [tracks.det.advance_singleton]
      by_cases nowhere : g.advance states c = ∅
      · rw [tracks.stop _ _ c related nowhere, nowhere]
        exact Lifted.nothing
      · obtain ⟨_, next, related'⟩ := tracks.onward _ _ c related nowhere
        rw [next]
        exact Lifted.single related'

end Graph

namespace Exploration

namespace Finished

variable {g : Graph} {x : Exploration} {start k l p : State} {s t : SortedSet State} {c : Char}

/-- An edge leads from the state for a set to the state for what the character reaches from it. -/
theorem mem_edges_iff (finished : Finished g start x) (wf : g.WellFormed)
    (source : x.subsets[k]? = some s) (target : x.subsets[l]? = some t) :
    ⟨k, .char c, l⟩ ∈ x.dfa.edges ↔ g.advance s c = t := by
  constructor
  · intro edge
    obtain ⟨_, _, reads, source', target'⟩ := finished.sound.edge _ edge
    cases reads
    cases source.symm.trans source'
    exact Option.some.inj (target'.symm.trans target)
  · intro reached
    -- The set that is reached has states, so there is an edge, and it leads to its only state.
    have somewhere : g.advance s c ≠ ∅ :=
      reached ▸ finished.sound.ne_empty t (List.mem_of_getElem? target)
    obtain ⟨l', next, target'⟩ := (finished.tracks wf).onward k s c source somewhere
    rw [reached] at target'
    cases finished.unique target target'
    exact Graph.edge_of_successor? next

/-- In a finished exploration states correspond to the sets that they stand for. -/
theorem corresponding (finished : Finished g start x) (wf : g.WellFormed) :
    Corresponding x.dfa g (Graph.Lifted fun k subset => x.subsets[k]? = some subset) := by
  refine (finished.tracks wf).corresponding ?_ ?_
  · exact fun k subset stands => finished.sound.ne_empty subset (List.mem_of_getElem? stands)
  · intro k subset k' subset' stands stands'
    -- A state stands for one set, and a set for one state.
    constructor
    · rintro rfl
      exact Option.some.inj (stands.symm.trans stands')
    · rintro rfl
      exact finished.unique stands stands'

/-- The states of a deterministic graph that have a set of their own are those that are reached. -/
theorem singleton_mem_iff (finished : Finished g start x) (wf : g.WellFormed)
    (det : g.Deterministic) (begins : g.start = some start) :
    {p} ∈ x.subsets ↔ g.Accessible p := by
  have initial : g.closure {start} = {start} := (det.silentlyClosed _).closure_eq
  constructor
  · intro met
    obtain ⟨input, reached⟩ := finished.reached wf (wf.start_mem start begins) _ met
    rw [initial] at reached
    exact ⟨start, input, begins, det.advanceAll_eq_singleton_iff.mp reached.symm⟩
  · rintro ⟨_, input, begins', path⟩
    cases begins.symm.trans begins'
    have reached := det.advanceAll_eq_singleton_iff.mpr path
    -- The input leads to a state, which stands for what the input reaches.
    have somewhere : g.advanceAll (g.closure {start}) input ≠ ∅ := by simp [initial, reached]
    obtain ⟨k, _, stands⟩ := (finished.tracks wf).exists_path finished.initial somewhere
    rw [initial, reached] at stands
    exact List.mem_of_getElem? stands

/-- Exploring a deterministic graph calls the states that are reached by other numbers. -/
theorem renames (finished : Finished g start x) (wf : g.WellFormed) (det : g.Deterministic)
    (begins : g.start = some start) :
    g.Renaming {p | p ∈ g.states ∧ g.Accessible p} (fun p => x.subsets.idxOf {p}) x.dfa := by
  have stands : ∀ p, g.Accessible p → x.subsets[x.subsets.idxOf {p}]? = some {p} := fun p reached =>
    List.getElem?_idxOf ((finished.singleton_mem_iff wf det begins).mpr reached)
  have number : ∀ p k, x.subsets[k]? = some {p} → x.subsets.idxOf {p} = k := fun p k stands' =>
    finished.unique (List.getElem?_idxOf (List.mem_of_getElem? stands')) stands'
  refine ⟨⟨?_, ?_, ?_⟩, ?_, ?_, ?_⟩
  · -- The number of a state that is reached is a state.
    rintro p ⟨_, reached⟩
    exact (finished.sound.mem_states _).mpr (List.getElem?_eq_some_iff.mp (stands p reached)).1
  · -- What stands in one place is one set, and so one state.
    rintro p ⟨_, reached⟩ q ⟨_, reached'⟩ same
    have place := stands p reached
    rw [show x.subsets.idxOf {p} = x.subsets.idxOf {q} from same, stands q reached'] at place
    exact (SortedSet.singleton_inj.mp (Option.some.inj place)).symm
  · -- Every state stands for a set with a single state, which is reached.
    intro k member
    obtain ⟨p, inside, place⟩ :=
      finished.exists_singleton wf (wf.start_mem start begins) det member
    have reached := (finished.singleton_mem_iff wf det begins).mp (List.mem_of_getElem? place)
    exact ⟨p, ⟨inside, reached⟩, number p k place⟩
  · -- The first set has what the start reaches silently, which is the start alone.
    have first := finished.initial
    rw [(det.silentlyClosed _).closure_eq] at first
    rw [finished.begins, begins, Option.map_some, number start 0 first]
  · -- A set with a single state counts as final exactly if the state is final.
    rintro p ⟨_, reached⟩
    rw [finished.sound.mem_finals, stands p reached]
    simp
  · rintro p ⟨_, reached⟩ q ⟨_, reached'⟩ symbol
    cases symbol with
    | epsilon =>
      exact iff_of_false (det.not_silent p q) (finished.sound.deterministic.not_silent _ _)
    | char c =>
      rw [finished.mem_edges_iff wf (stands p reached) (stands q reached'),
        det.advance_eq_singleton_iff]

end Finished

end Exploration

namespace Graph

/-- A graph that has been made deterministic is made deterministic as it is. -/
theorem exists_determinize_eq {g : Graph} (wf : g.WellFormed) :
    ∃ dfa, g.determinize = .ok dfa ∧ dfa.determinize = .ok dfa := by
  cases begins : g.start with
  | none =>
    -- Without a start the empty graph is given, of which the empty graph is made again.
    exact ⟨{}, by rw [determinize, begins], rfl⟩
  | some start =>
    obtain ⟨x, finished, determined⟩ := determinize_eq wf begins
    have closed := finished.sound.deterministic.silentlyClosed {0}
    refine ⟨x.dfa, determined, ?_⟩
    -- The second exploration goes through single states as the first went through their sets.
    rw [← determined]
    refine determinize_eq_of_corresponding finished.sound.wf wf (finished.corresponding wf)
      finished.begins begins ?_
    rw [closed.closure_eq]
    exact Lifted.single finished.initial

/--
Making a deterministic graph deterministic leaves out what is not reached, and renames the rest.

So whatever has been made deterministic is made into the same graph again.
-/
theorem determinize_renames :
    (∀ (g : Graph) (start : State), g.Reachable → g.start = some start →
      g.isNondeterministic = false → ∃ dfa rename, g.determinize = .ok dfa ∧
        g.Renaming {p | p ∈ g.states ∧ g.Accessible p} rename dfa) ∧
    (∀ g : Graph, g.Reachable → ∃ dfa, g.determinize = .ok dfa ∧ dfa.determinize = .ok dfa) := by
  constructor
  · intro g start reachable begins single
    -- A deterministic graph has single states for sets, which gives each of them a name.
    have wf := reachable.wellFormed
    obtain ⟨x, finished, determined⟩ := determinize_eq wf begins
    exact ⟨x.dfa, _, determined, finished.renames wf (deterministic_iff.mpr single) begins⟩
  · exact fun g reachable => exists_determinize_eq reachable.wellFormed

/-- Of four states one is not reached, and of a graph with a choice a character gets lost. -/
theorem determinize_renames_unreached :
    (∃ (g dfa : Graph) (rename : State → State), g.Reachable ∧ g.start = some 2 ∧
      g.isNondeterministic = false ∧ g.states.size = 4 ∧ g.determinize = .ok dfa ∧
      dfa.states.size = 3 ∧ g.Renaming {p | p ∈ g.states ∧ g.Accessible p} rename dfa) ∧
    (∃ g dfa : Graph, g.Reachable ∧ g.isNondeterministic = true ∧ g.determinize = .ok dfa ∧
      dfa.alphabet ≠ g.alphabet ∧ dfa.determinize = .ok dfa) := by
  -- The first graph has an unreached state, the second one an unused character.
  constructor
  · obtain ⟨g, reachable, begins, single, four, three⟩ : ∃ g : Graph, g.Reachable ∧
        g.start = some 2 ∧ g.isNondeterministic = false ∧ g.states.size = 4 ∧
        g.determinize.map (fun dfa => dfa.states.size) = .ok 3 :=
      ⟨_, ⟨[.newGraph "g", .createStates "g" 4, .addEdge "g" ⟨2, .char 'a', 1⟩,
        .addEdge "g" ⟨2, .char 'b', 0⟩, .addEdge "g" ⟨0, .char 'a', 2⟩,
        .addEdge "g" ⟨3, .char 'c', 0⟩, .setStart "g" 2, .markFinals "g" [0, 3]], "g", rfl⟩,
        rfl, by decide, by decide, by cbv⟩
    obtain ⟨dfa, rename, determined, renames⟩ := determinize_renames.1 g 2 reachable begins single
    rw [determined] at three
    have three : dfa.states.size = 3 := Except.ok.inj three
    exact ⟨g, dfa, rename, reachable, begins, single, four, determined, three, renames⟩
  · obtain ⟨g, reachable, choice, letters, left⟩ : ∃ g : Graph, g.Reachable ∧
        g.isNondeterministic = true ∧ g.alphabet.toList = ['a', 'b', 'c'] ∧
        g.determinize.map (fun dfa => dfa.alphabet.toList) = .ok ['a', 'b'] :=
      ⟨_, ⟨[.newGraph "g", .createStates "g" 4, .addEdge "g" ⟨0, .char 'a', 1⟩,
        .addEdge "g" ⟨0, .char 'a', 2⟩, .addEdge "g" ⟨1, .epsilon, 2⟩,
        .addEdge "g" ⟨2, .char 'b', 0⟩, .addEdge "g" ⟨3, .char 'c', 0⟩, .setStart "g" 0,
        .markFinal "g" 2], "g", rfl⟩, by decide, rfl, by cbv⟩
    obtain ⟨dfa, determined, again⟩ := determinize_renames.2 g reachable
    rw [determined] at left
    have left : dfa.alphabet.toList = ['a', 'b'] := Except.ok.inj left
    refine ⟨g, dfa, reachable, choice, determined, fun same => ?_, again⟩
    rw [same, letters] at left
    exact absurd left (by decide)

/-- Of graphs that differ only in the numbers of their states one deterministic graph is made. -/
theorem determinize_eq_of_wholeRenaming {g h : Graph} (reachable : g.Reachable)
    (reachable' : h.Reachable) {rename : State → State} (renamed : g.WholeRenaming rename h) :
    ∃ dfa, g.determinize = .ok dfa ∧ h.determinize = .ok dfa := by
  obtain ⟨dfa, determined, _⟩ := determinize_ok reachable.wellFormed
  -- Making deterministic never fails, so the results that are equal are graphs.
  have same := renamed.determinize_eq reachable.wellFormed reachable'.wellFormed
  exact ⟨dfa, determined, same.symm.trans determined⟩

/-- A graph with choices and a silent edge, and the graph that has its states in reverse order. -/
theorem determinize_eq_of_wholeRenaming_reverse :
    let g : Graph := {
      states := .ofList [0, 1, 2, 3]
      next := 4
      edges := .ofList [⟨0, .char 'a', 1⟩, ⟨0, .char 'a', 2⟩, ⟨1, .epsilon, 2⟩, ⟨2, .char 'b', 0⟩,
        ⟨2, .char 'b', 3⟩]
      start := some 0
      finals := .ofList [3]
      alphabet := .ofList ['a', 'b'] }
    let h : Graph := { g with
      edges := .ofList [⟨3, .char 'a', 2⟩, ⟨3, .char 'a', 1⟩, ⟨2, .epsilon, 1⟩, ⟨1, .char 'b', 3⟩,
        ⟨1, .char 'b', 0⟩]
      start := some 3
      finals := .ofList [0] }
    g.Reachable ∧ h.Reachable ∧ g.WholeRenaming (fun p => 3 - p) h ∧
      ∃ dfa, g.determinize = .ok dfa ∧ h.determinize = .ok dfa := by
  intro g h
  have reachable : g.Reachable := ⟨[.newGraph "g", .createStates "g" 4,
    .addEdge "g" ⟨0, .char 'a', 1⟩, .addEdge "g" ⟨0, .char 'a', 2⟩, .addEdge "g" ⟨1, .epsilon, 2⟩,
    .addEdge "g" ⟨2, .char 'b', 0⟩, .addEdge "g" ⟨2, .char 'b', 3⟩, .setStart "g" 0,
    .markFinal "g" 3], "g", rfl⟩
  have reachable' : h.Reachable := ⟨[.newGraph "h", .createStates "h" 4,
    .addEdge "h" ⟨3, .char 'a', 2⟩, .addEdge "h" ⟨3, .char 'a', 1⟩, .addEdge "h" ⟨2, .epsilon, 1⟩,
    .addEdge "h" ⟨1, .char 'b', 3⟩, .addEdge "h" ⟨1, .char 'b', 0⟩, .setStart "h" 3,
    .markFinal "h" 0], "h", rfl⟩
  -- Taken twice, the reversal of the order undoes itself.
  have renamed : g.WholeRenaming (fun p => 3 - p) h := WholeRenaming.of_inverse (fun p => 3 - p)
    (by decide) (by decide) rfl (by decide) (by decide) (by decide) (by decide)
  have same := determinize_eq_of_wholeRenaming reachable reachable' renamed
  exact ⟨reachable, reachable', renamed, same⟩

end Graph

end PatternAutomata
