import PatternAutomata.Graph.Renaming
import PatternAutomata.Proofs.Graph.Run

/-! Paths, and the sets of states in which reading can end, follow when states are renamed. -/

namespace PatternAutomata

namespace Graph

variable {g h : Graph} {rename : State → State} {p q : State} {input : List Char}

namespace WholeRenaming

/-- A state is carried to a state. -/
theorem mem_states (renamed : g.WholeRenaming rename h) (inside : p ∈ g.states) :
    rename p ∈ h.states :=
  renamed.bijective.1 inside

/-- No two states are carried to one. -/
theorem injective (renamed : g.WholeRenaming rename h) (left : p ∈ g.states)
    (right : q ∈ g.states) (same : rename p = rename q) : p = q :=
  renamed.bijective.2.1 left right same

/-- Every state is what some state is carried to. -/
theorem exists_state (renamed : g.WholeRenaming rename h) {k : State} (inside : k ∈ h.states) :
    ∃ p ∈ g.states, rename p = k :=
  renamed.bijective.2.2 inside

/-- A renaming that another one undoes is a renaming of all states. -/
theorem of_inverse (back : State → State)
    (there : ∀ p ∈ g.states, rename p ∈ h.states ∧ back (rename p) = p)
    (again : ∀ k ∈ h.states, back k ∈ g.states ∧ rename (back k) = k)
    (start_eq : h.start = g.start.map rename)
    (finals : ∀ p ∈ g.finals, rename p ∈ h.finals) (finals' : ∀ k ∈ h.finals, back k ∈ g.finals)
    (edges : ∀ edge ∈ g.edges, ⟨rename edge.source, edge.symbol, rename edge.target⟩ ∈ h.edges)
    (edges' : ∀ edge ∈ h.edges, ⟨back edge.source, edge.symbol, back edge.target⟩ ∈ g.edges) :
    g.WholeRenaming rename h where
  bijective := by
    refine ⟨fun p inside => (there p inside).1, fun p left q right same => ?_, fun k inside => ?_⟩
    · rw [← (there p left).2, ← (there q right).2, same]
    · exact ⟨back k, (again k inside).1, (again k inside).2⟩
  start_eq := start_eq
  mem_finals p inside := by
    -- What is final on the other side is final after going back as well.
    refine ⟨finals p, fun final => ?_⟩
    have known := finals' (rename p) final
    rwa [(there p inside).2] at known
  mem_edges p left q right symbol := by
    refine ⟨edges ⟨p, symbol, q⟩, fun edge => ?_⟩
    have known := edges' ⟨rename p, symbol, rename q⟩ edge
    rwa [(there p left).2, (there q right).2] at known

/-- There are paths between states exactly if they are carried to states with such paths. -/
theorem path_iff (renamed : g.WholeRenaming rename h) (wf : g.WellFormed) (wf' : h.WellFormed)
    (left : p ∈ g.states) (right : q ∈ g.states) :
    g.Path p input q ↔ h.Path (rename p) input (rename q) := by
  constructor
  · intro path
    -- Every edge on the way is carried to an edge.
    induction path with
    | here p => exact Path.here (rename p)
    | silent edge _ ih =>
      have inside := wf.target_mem _ edge
      exact Path.silent ((renamed.mem_edges _ left _ inside _).mp edge) (ih inside right)
    | read edge _ ih =>
      have inside := wf.target_mem _ edge
      exact Path.read ((renamed.mem_edges _ left _ inside _).mp edge) (ih inside right)
  · intro path
    -- The induction is on the path, so its two ends are kept as equations.
    generalize begins : rename p = j, ends : rename q = k at path
    induction path generalizing p with
    | here =>
      cases renamed.injective left right (begins.trans ends.symm)
      exact Path.here _
    | silent edge _ ih =>
      subst begins
      obtain ⟨r, inside, rfl⟩ := renamed.exists_state (wf'.target_mem _ edge)
      exact Path.silent ((renamed.mem_edges p left r inside _).mpr edge) (ih inside rfl ends)
    | read edge _ ih =>
      subst begins
      obtain ⟨r, inside, rfl⟩ := renamed.exists_state (wf'.target_mem _ edge)
      exact Path.read ((renamed.mem_edges p left r inside _).mpr edge) (ih inside rfl ends)

end WholeRenaming

/-- Sets of states of two graphs match when the one is carried to the other. -/
structure Matched (g h : Graph) (rename : State → State) (s t : SortedSet State) : Prop where
  /-- The first set has states of the first graph only. -/
  left : ∀ p ∈ s, p ∈ g.states
  /-- The second set has states of the second graph only. -/
  right : ∀ k ∈ t, k ∈ h.states
  /-- A state is in the first set exactly if it is carried into the second. -/
  mem_iff : ∀ p ∈ g.states, (p ∈ s ↔ rename p ∈ t)

namespace Matched

variable {s t s' t' : SortedSet State}

/-- No states match no states. -/
theorem empty : Matched g h rename ∅ ∅ where
  left _ none := absurd none (SortedSet.not_mem_empty _)
  right _ none := absurd none (SortedSet.not_mem_empty _)
  mem_iff _ _ := iff_of_false (SortedSet.not_mem_empty _) (SortedSet.not_mem_empty _)

/-- A state matches what it is carried to. -/
theorem singleton (renamed : g.WholeRenaming rename h) (inside : p ∈ g.states) :
    Matched g h rename {p} {rename p} where
  left q only := by
    rw [SortedSet.mem_singleton.mp only]
    exact inside
  right k only := by
    rw [SortedSet.mem_singleton.mp only]
    exact renamed.mem_states inside
  -- The names of two states are the same only if the states are.
  mem_iff q inside' := by
    rw [SortedSet.mem_singleton, SortedSet.mem_singleton]
    exact ⟨congrArg rename, renamed.injective inside' inside⟩

/-- Matched sets are equal to others exactly if their partners are. -/
theorem eq_iff (renamed : g.WholeRenaming rename h) (first : Matched g h rename s t)
    (second : Matched g h rename s' t') : s = s' ↔ t = t' := by
  constructor
  · rintro rfl
    -- Every state of the other graph is what a state is carried to.
    have carried : ∀ k ∈ h.states, (k ∈ t ↔ k ∈ t') := by
      intro k inside
      obtain ⟨p, member, rfl⟩ := renamed.exists_state inside
      rw [← first.mem_iff p member, second.mem_iff p member]
    ext k
    exact ⟨fun member => (carried k (first.right k member)).mp member,
      fun member => (carried k (second.right k member)).mpr member⟩
  · rintro rfl
    have same : ∀ p ∈ g.states, (p ∈ s ↔ p ∈ s') := fun p inside => by
      rw [first.mem_iff p inside, second.mem_iff p inside]
    ext p
    exact ⟨fun member => (same p (first.left p member)).mp member,
      fun member => (same p (second.left p member)).mpr member⟩

/-- Matched sets agree on being final. -/
theorem containsFinal_eq (renamed : g.WholeRenaming rename h) (matched : Matched g h rename s t) :
    g.containsFinal s = h.containsFinal t := by
  rw [Bool.eq_iff_iff, containsFinal_iff, containsFinal_iff]
  -- Each final state on one side has its partner on the other side.
  constructor
  · rintro ⟨p, member, final⟩
    have inside := matched.left p member
    exact ⟨rename p, (matched.mem_iff p inside).mp member,
      (renamed.mem_finals p inside).mp final⟩
  · rintro ⟨k, member, final⟩
    obtain ⟨p, inside, rfl⟩ := renamed.exists_state (matched.right k member)
    exact ⟨p, (matched.mem_iff p inside).mpr member, (renamed.mem_finals p inside).mpr final⟩

/--
What matched sets are led to is matched, whatever leads on from single states.

It has to lead from states to states, and in the same way in both graphs.
-/
theorem image (renamed : g.WholeRenaming rename h) (matched : Matched g h rename s t)
    {Leads Leads' : State → State → Prop} (mem_left : ∀ q, q ∈ s' ↔ ∃ p ∈ s, Leads p q)
    (mem_right : ∀ k, k ∈ t' ↔ ∃ j ∈ t, Leads' j k)
    (inside : ∀ p ∈ g.states, ∀ q, Leads p q → q ∈ g.states)
    (inside' : ∀ j ∈ h.states, ∀ k, Leads' j k → k ∈ h.states)
    (same : ∀ p ∈ g.states, ∀ q ∈ g.states, (Leads p q ↔ Leads' (rename p) (rename q))) :
    Matched g h rename s' t' where
  left q reached := by
    obtain ⟨p, member, leads⟩ := (mem_left q).mp reached
    exact inside p (matched.left p member) q leads
  right k reached := by
    obtain ⟨j, member, leads⟩ := (mem_right k).mp reached
    exact inside' j (matched.right j member) k leads
  mem_iff q known := by
    rw [mem_left, mem_right]
    -- A state that leads on in the other graph is what some state is carried to.
    constructor
    · rintro ⟨p, member, leads⟩
      have source := matched.left p member
      exact ⟨rename p, (matched.mem_iff p source).mp member, (same p source q known).mp leads⟩
    · rintro ⟨j, member, leads⟩
      obtain ⟨p, source, rfl⟩ := renamed.exists_state (matched.right j member)
      exact ⟨p, (matched.mem_iff p source).mpr member, (same p source q known).mpr leads⟩

/-- What is reached without reading from matched sets is matched. -/
theorem closure (renamed : g.WholeRenaming rename h) (wf : g.WellFormed) (wf' : h.WellFormed)
    (matched : Matched g h rename s t) : Matched g h rename (g.closure s) (h.closure t) :=
  -- A closure is reached by paths without input, which renaming keeps.
  matched.image renamed (fun _ => mem_closure) (fun _ => mem_closure)
    (fun _ source _ path => wf.mem_of_path path source)
    (fun _ source _ path => wf'.mem_of_path path source)
    (fun _ source _ target => renamed.path_iff wf wf' source target)

/-- What edges with a character enter from matched sets is matched. -/
theorem move (renamed : g.WholeRenaming rename h) (wf : g.WellFormed) (wf' : h.WellFormed)
    (matched : Matched g h rename s t) (c : Char) :
    Matched g h rename (g.move s c) (h.move t c) :=
  -- A move is reached by single edges, which renaming keeps.
  matched.image renamed (fun _ => mem_move) (fun _ => mem_move)
    (fun _ _ _ edge => wf.target_mem _ edge) (fun _ _ _ edge => wf'.target_mem _ edge)
    (fun p source q target => renamed.mem_edges p source q target (.char c))

/-- Reading a character leads from matched sets to matched sets. -/
theorem advance (renamed : g.WholeRenaming rename h) (wf : g.WellFormed) (wf' : h.WellFormed)
    (matched : Matched g h rename s t) (c : Char) :
    Matched g h rename (g.advance s c) (h.advance t c) :=
  -- A step is a move and then a closure.
  (matched.move renamed wf wf' c).closure renamed wf wf'

end Matched

end Graph

end PatternAutomata
