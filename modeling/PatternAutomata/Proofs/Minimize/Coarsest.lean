import PatternAutomata.Proofs.Graph.Future
import PatternAutomata.Proofs.Minimize

/-! Joining states that behave alike joins exactly the states with one future. -/

namespace PatternAutomata

namespace Graph

variable {g q : Graph} {p : Partition} {s t : State}

/-- States with one future share their class. -/
def Coarse (g : Graph) (p : Partition) : Prop :=
  ∀ s ∈ g.states, ∀ t ∈ g.states, g.future s = g.future t → p.classOf s = p.classOf t

/-- At first states with one future are together, since they agree on being final. -/
theorem coarse_finality (g : Graph) : g.Coarse g.finality := by
  intro s left t right same
  -- The future on reading nothing tells whether a state is final.
  have final : g.isFinal s = g.isFinal t := by simpa using congrFun same []
  rw [classOf_finality left, classOf_finality right, final]

/-- Classes are not split between states with one future. -/
theorem Coarse.refine (coarse : g.Coarse p) (wf : g.WellFormed) : g.Coarse (g.refine p) := by
  intro s left t right same
  rw [classOf_refine_eq_iff left right, signature, signature, coarse s left t right same]
  congr 1
  refine List.map_congr_left fun c _ => ?_
  -- The successors have one future again, or both states have no successor.
  rcases successor?_of_future_eq same c with ⟨next, next'⟩ | ⟨u, v, next, next', same⟩
  · rw [next, next']
  · rw [next, next']
    exact coarse u (wf.successor?_mem s c u next) v (wf.successor?_mem t c v next') same

/-- Splitting classes until none is left to split keeps states with one future together. -/
theorem Coarse.stabilize (coarse : g.Coarse p) (wf : g.WellFormed) :
    g.Coarse (g.stabilize p) := by
  -- To be coarse is kept by each round, and so by the last one.
  obtain ⟨last, coarse, _, same⟩ :=
    exists_stabilize_eq g.Coarse (fun _ before => before.refine wf) coarse
  rw [same]
  exact coarse.refine wf

/-- States that share a class of a congruence have one future. -/
theorem Congruence.future_eq (cong : g.Congruence p) (wf : g.WellFormed) (left : s ∈ g.states)
    (right : t ∈ g.states) (same : p.classOf s = p.classOf t) : g.future s = g.future t := by
  funext input
  induction input generalizing s t with
  | nil => simpa [isFinal] using cong.finality s left t right same
  | cons c rest ih =>
    -- Reading a character leads to one class again, or nowhere from both states.
    have inside := wf.successor?_mem s c
    have inside' := wf.successor?_mem t c
    rw [future_cons, future_cons]
    rcases cong.of_bind_classOf_eq inside inside' (cong.stable s left t right same c) with
      ⟨next, next'⟩ | ⟨u, v, next, next', same⟩
    · rw [next, next']
    · rw [next, next']
      exact ih (inside u next) (inside' v next') same

/-- Exactly the states with one future end in one class. -/
theorem classOf_stabilize_eq_iff (wf : g.WellFormed) (left : s ∈ g.states) (right : t ∈ g.states) :
    (g.stabilize g.finality).classOf s = (g.stabilize g.finality).classOf t ↔
      g.future s = g.future t := by
  -- Classes are fine enough as they stay as they are, and coarse enough from the beginning.
  constructor
  · exact (congruence_stabilize wf g.divides_finality).future_eq wf left right
  · exact g.coarse_finality.stabilize wf s left t right

namespace IsQuotient

/-- A class has the future of its states. -/
theorem future_eq (quot : g.IsQuotient p q) (cong : g.Congruence p) (wf : g.WellFormed)
    (det : g.Deterministic) {k : Nat} (placed : p.classOf s = some k) :
    q.future k = g.future s :=
  (quot.tracks cong wf det).future_eq det ⟨s, rfl, placed⟩

/-- Every state of a graph of classes is the class of some state. -/
theorem exists_classOf (quot : g.IsQuotient p q) (cong : g.Congruence p) {k : Nat}
    (member : k ∈ q.states) : ∃ s ∈ g.states, p.classOf s = some k := by
  -- A state of the result is the class of its representative.
  obtain ⟨s, chosen⟩ := cong.represented k ((quot.mem_states k).mp member)
  have placed := cong.classOf_representative k s chosen
  exact ⟨s, cong.mem_of_classOf s k placed, placed⟩

/-- Classes are reached if their states are. -/
theorem accessible (quot : g.IsQuotient p q) (cong : g.Congruence p) (wf : g.WellFormed)
    (det : g.Deterministic) (accessible : ∀ s ∈ g.states, g.Accessible s) :
    ∀ k ∈ q.states, q.Accessible k := by
  intro k member
  obtain ⟨s, inside, placed⟩ := quot.exists_classOf cong member
  obtain ⟨start, input, begins, path⟩ := accessible s inside
  obtain ⟨initial, placed', begins'⟩ := quot.exists_start cong wf begins
  -- The classes on the way keep track of the states on the way.
  have ends : g.advanceAll {start} input = {s} := det.advanceAll_eq_singleton_iff.mpr path
  have somewhere : g.advanceAll {start} input ≠ ∅ := by simp [ends]
  obtain ⟨k', path', only⟩ :=
    (quot.tracks cong wf det).exists_path ⟨start, rfl, placed'⟩ somewhere
  obtain ⟨s', same, class_⟩ := only
  rw [ends, SortedSet.singleton_inj] at same
  subst same
  cases placed.symm.trans class_
  exact ⟨initial, input, begins', path'⟩

/-- Classes reach final ones if their states do. -/
theorem productive (quot : g.IsQuotient p q) (cong : g.Congruence p) (wf : g.WellFormed)
    (det : g.Deterministic) (productive : g.Productive) : q.Productive := by
  intro k member
  -- A class has the future of its members, which lead to final states.
  obtain ⟨s, inside, placed⟩ := quot.exists_classOf cong member
  rw [(quot.deterministic wf).coaccessible_iff, quot.future_eq cong wf det placed]
  exact det.coaccessible_iff.mp (productive s inside)

/-- The classes that are left in the end are separated. -/
theorem separated (quot : g.IsQuotient (g.stabilize g.finality) q) (wf : g.WellFormed)
    (det : g.Deterministic) : q.Separated := by
  have cong := congruence_stabilize wf g.divides_finality
  intro k member k' member' same
  obtain ⟨s, inside, placed⟩ := quot.exists_classOf cong member
  obtain ⟨s', inside', placed'⟩ := quot.exists_classOf cong member'
  -- States of the two classes have one future, so they are in one class.
  rw [quot.future_eq cong wf det placed, quot.future_eq cong wf det placed'] at same
  have together := (classOf_stabilize_eq_iff wf inside inside').mpr same
  rw [placed, placed'] at together
  exact Option.some.inj together

end IsQuotient

end Graph

end PatternAutomata
