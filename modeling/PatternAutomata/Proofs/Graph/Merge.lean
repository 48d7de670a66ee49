import PatternAutomata.Builder.History
import PatternAutomata.Proofs.Graph.Enclosed
import PatternAutomata.Proofs.Session
import PatternAutomata.Proofs.SortedSet

/-! Merging graphs puts them beside each other, and neither one has any effect on the other. -/

namespace PatternAutomata

namespace Graph

open Builder

/-- From states of a part nothing is reached, silently or by a character, but in the part itself. -/
structure Isolates (g part : Graph) : Prop where
  /-- The same states are reached without reading. -/
  closure_eq : ∀ states : SortedSet State, (∀ p ∈ states, p ∈ part.states) →
    g.closure states = part.closure states
  /-- The same states are reached by reading a character. -/
  move_eq : ∀ states : SortedSet State, (∀ p ∈ states, p ∈ part.states) → ∀ c,
    g.move states c = part.move states c

/-- Two graphs agree in everything but their starts and final states. -/
structure SameBody (g h : Graph) : Prop where
  /-- The states are the same. -/
  states_eq : g.states = h.states
  /-- The edges are the same. -/
  edges_eq : g.edges = h.edges
  /-- The alphabets are the same. -/
  alphabet_eq : g.alphabet = h.alphabet
  /-- New states get the same numbers. -/
  next_eq : g.next = h.next

/-- A graph is that of two others put beside each other, and reads inputs as the first one does. -/
structure PutsBeside (merged g h : Graph) : Prop where
  /-- The two graphs share no state. -/
  apart : Apart g h
  /-- The states are those of both graphs. -/
  mem_states : ∀ p, p ∈ merged.states ↔ p ∈ g.states ∨ p ∈ h.states
  /-- The edges are those of both graphs. -/
  mem_edges : ∀ edge, edge ∈ merged.edges ↔ edge ∈ g.edges ∨ edge ∈ h.edges
  /-- The characters are those of both graphs. -/
  mem_alphabet : ∀ c, c ∈ merged.alphabet ↔ c ∈ g.alphabet ∨ c ∈ h.alphabet
  /-- New states are numbered behind those of both graphs. -/
  next_eq : merged.next = max g.next h.next
  /-- The states of the first graph are kept to themselves. -/
  isolates_left : merged.Isolates g
  /-- The states of the second graph are kept to themselves. -/
  isolates_right : merged.Isolates h
  /-- The start is that of the first graph. -/
  start_eq : merged.start = g.start
  /-- The final states are those of the first graph. -/
  finals_eq : merged.finals = g.finals
  /-- The first graph decides what is accepted. -/
  accepts_eq : ∀ input, merged.accepts input = g.accepts input

variable {g h k merged : Graph}

/-- A part that is not left at all is isolated. -/
theorem Encloses.isolates {part : Graph} (encloses : g.Encloses part fun _ => False)
    (wf : part.WellFormed) : g.Isolates part :=
  ⟨fun _ inside => encloses.closure_eq wf inside, fun _ inside c => encloses.move_eq inside c⟩

/-- Merging fails exactly if a state is shared, and tells the smallest such state. -/
theorem merge_eq_error_iff {error : Error} :
    g.merge h = .error error ↔
      ∃ shared, error = .stateCollision shared ∧
        IsLeast {p | p ∈ g.states ∧ p ∈ h.states} shared := by
  -- States are searched in ascending order, so the first one found is the least.
  have finds : ∀ shared, g.states.toList.find? (· ∈ h.states) = some shared ↔
      IsLeast {p | p ∈ g.states ∧ p ∈ h.states} shared := by
    intro shared
    rw [SortedSet.find?_eq_some_iff]
    simp
  simp only [← finds, merge]
  cases g.states.toList.find? (· ∈ h.states) with
  | none => simp
  | some shared => simp [eq_comm]

/-- Graphs that share a state share a smallest one. -/
theorem exists_isLeast_shared (shared : ¬ Apart g h) :
    ∃ p, IsLeast {p | p ∈ g.states ∧ p ∈ h.states} p := by
  -- If merging did not fail, no state would be shared.
  cases outcome : g.merge h with
  | ok merged => exact absurd (merge_cases outcome).1 shared
  | error error =>
    obtain ⟨p, _, least⟩ := merge_eq_error_iff.mp outcome
    exact ⟨p, least⟩

/-- Merged graphs are put beside each other. -/
theorem putsBeside_of_merge (wf : g.WellFormed) (wf' : h.WellFormed)
    (done : g.merge h = .ok merged) : merged.PutsBeside g h := by
  obtain ⟨apart, whole⟩ := merge_cases done
  have edges : ∀ edge, edge ∈ merged.edges ↔ edge ∈ g.edges ∨ edge ∈ h.edges := by
    intro edge
    rw [whole]
    exact SortedSet.mem_union
  -- An edge that leaves a state of one graph is an edge of that graph, since no state is shared.
  have left : merged.Encloses g fun _ => False := by
    refine ⟨fun edge own => (edges edge).mpr (Or.inl own), fun edge member inside => ?_⟩
    refine Or.inl (((edges edge).mp member).resolve_right fun other => ?_)
    exact apart _ inside (wf'.source_mem edge other)
  have right : merged.Encloses h fun _ => False := by
    refine ⟨fun edge own => (edges edge).mpr (Or.inr own), fun edge member inside => ?_⟩
    refine Or.inl (((edges edge).mp member).resolve_left fun other => ?_)
    exact apart _ (wf.source_mem edge other) inside
  have start : merged.start = g.start := by rw [whole]
  have finals : merged.finals = g.finals := by rw [whole]
  exact {
    apart := apart
    mem_states := fun p => by rw [whole]; exact SortedSet.mem_union
    mem_edges := edges
    mem_alphabet := fun c => by rw [whole]; exact SortedSet.mem_union
    next_eq := by rw [whole]
    isolates_left := left.isolates wf
    isolates_right := right.isolates wf'
    start_eq := start
    finals_eq := finals
    accepts_eq := left.accepts_eq wf start finals }

/-- Whichever of two graphs is merged into the other, the result has the same body. -/
theorem exists_merge_flip (done : g.merge h = .ok merged) :
    ∃ flipped, h.merge g = .ok flipped ∧ merged.SameBody flipped := by
  obtain ⟨apart, whole⟩ := merge_cases done
  have apart' : Apart h g := Apart.symm apart
  -- Sharing no state is symmetric, and so is everything that is put together.
  refine ⟨_, merge_eq apart', ?_⟩
  rw [whole]
  exact ⟨SortedSet.union_comm .., SortedSet.union_comm .., SortedSet.union_comm ..,
    Nat.max_comm ..⟩

/-- Of three graphs that share no states it does not matter which two are merged first. -/
theorem exists_merge_assoc (left : Apart g h) (outer : Apart g k) (right : Apart h k) :
    ∃ gh hk whole, g.merge h = .ok gh ∧ gh.merge k = .ok whole ∧
      h.merge k = .ok hk ∧ g.merge hk = .ok whole := by
  refine ⟨_, _, _, merge_eq left, merge_eq ?_, merge_eq right, ?_⟩
  · intro p member
    exact (SortedSet.mem_union.mp member).elim (outer p) (right p)
  · have apart : ∀ p ∈ g.states, p ∉ h.states ∪ k.states := by
      intro p member
      rw [SortedSet.mem_union, not_or]
      exact ⟨left p member, outer p member⟩
    refine (merge_eq apart).trans (congrArg Except.ok ?_)
    -- Start and final states are those of the first graph on both sides.
    simp only [SortedSet.union_assoc, Nat.max_assoc]

/--
Merging puts graphs beside each other, or fails and tells the smallest state that they share.

It does not matter which graph is merged into which, or which two of three are merged first.
-/
theorem merge_putsBeside (fromFirst : g.Reachable) (fromSecond : h.Reachable) :
    ((∃ error, g.merge h = .error error) ↔ ∃ p ∈ g.states, p ∈ h.states) ∧
    (∀ error, g.merge h = .error error → g.change (.merge h) = (g, .error error) ∧
      ∃ shared, error = .stateCollision shared ∧
        IsLeast {p | p ∈ g.states ∧ p ∈ h.states} shared) ∧
    (∀ merged, g.merge h = .ok merged → merged.PutsBeside g h ∧
      ∃ flipped, h.merge g = .ok flipped ∧ merged.SameBody flipped) ∧
    ∀ k : Graph, Apart g h → Apart g k → Apart h k →
      ∃ gh hk whole, g.merge h = .ok gh ∧ gh.merge k = .ok whole ∧
        h.merge k = .ok hk ∧ g.merge hk = .ok whole := by
  have wf := fromFirst.wellFormed
  have wf' := fromSecond.wellFormed
  -- One part for each of failing, what failing leaves, succeeding, and merging three graphs.
  refine ⟨?_, ?_, ?_, ?_⟩
  · constructor
    · rintro ⟨error, fails⟩
      obtain ⟨shared, _, both, _⟩ := merge_eq_error_iff.mp fails
      exact ⟨shared, both.1, both.2⟩
    · rintro ⟨p, inside, shared⟩
      obtain ⟨least, isLeast⟩ := exists_isLeast_shared fun apart => apart p inside shared
      exact ⟨_, merge_eq_error_iff.mpr ⟨least, rfl, isLeast⟩⟩
  · intro error fails
    exact ⟨by rw [change, fails, adopt], merge_eq_error_iff.mp fails⟩
  · intro merged done
    exact ⟨putsBeside_of_merge wf wf' done, exists_merge_flip done⟩
  · intro k left outer right
    exact exists_merge_assoc left outer right

/--
Graphs with numbers in between each other are merged, and others are not.

The smallest state that is shared is not the smallest one of the graph that is refused.
-/
theorem merge_putsBeside_interleaved : ∃ g h k : Graph, g.Reachable ∧ h.Reachable ∧ k.Reachable ∧
    g.states = .ofList [2, 3, 6, 7] ∧ h.states = .ofList [4, 5] ∧
    (∃ merged, g.merge h = .ok merged ∧ merged.PutsBeside g h) ∧
    g.change (.merge k) = (g, .error (.stateCollision 2)) := by
  let built : List Command := [.newBuilder "b", .literal "b" 'w' "f", .literal "b" 'x' "g",
    .literal "b" 'y' "h", .literal "b" 'z' "i", .merge "g" "i", .newGraph "k",
    .createStates "k" 7]
  have first : Reachable _ := ⟨built, "g", rfl⟩
  have second : Reachable _ := ⟨built, "h", rfl⟩
  have third : Reachable _ := ⟨built, "k", rfl⟩
  exact ⟨_, _, _, first, second, third, by decide, by decide,
    ⟨_, rfl, ((merge_putsBeside first second).2.2.1 _ rfl).1⟩,
    ((merge_putsBeside first third).2.1 _ rfl).1⟩

end Graph

end PatternAutomata
