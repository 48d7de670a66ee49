import Mathlib.Combinatorics.Enumerative.DoubleCounting
import PatternAutomata.Proofs.Determinize.Reached
import PatternAutomata.Proofs.Minimize.Coarsest

/-! Deterministic graphs without useless or redundant states, which are the smallest there are. -/

namespace PatternAutomata

namespace Graph

/-- A deterministic graph in which no state is useless and no two states do the same. -/
structure Reduced (g : Graph) : Prop where
  /-- The graph is well formed. -/
  wf : g.WellFormed
  /-- The graph is deterministic. -/
  det : g.Deterministic
  /-- No state could be left out. -/
  trim : g.Trim
  /-- No two states have one future. -/
  separated : g.Separated

/-- The states of a graph are numbered without gaps. -/
def Gapless (g : Graph) : Prop := ∀ k, k ∈ g.states ↔ k < g.next

variable {g h q : Graph}

/-- A trim graph stays trim when it is made deterministic. -/
theorem Trim.determinize (trim : g.Trim) (wf : g.WellFormed) :
    ∃ dfa, g.determinize = .ok dfa ∧ dfa.WellFormed ∧ dfa.Deterministic ∧ dfa.Trim ∧
      dfa.Gapless ∧ (g.Deterministic → g.Separated → dfa.Separated) := by
  obtain ⟨start, begins⟩ := trim.begins
  have known := wf.start_mem start begins
  obtain ⟨x, finished, determined⟩ := determinize_eq wf begins
  have sound := finished.sound
  -- Each set of states was reached, and one of its members leads to a final state.
  have trim : x.dfa.Trim := ⟨⟨0, finished.begins⟩, finished.accessible wf known,
    finished.productive wf known trim.productive⟩
  have gapless : x.dfa.Gapless := fun k => by rw [sound.mem_states, sound.next_eq]
  exact ⟨x.dfa, determined, sound.wf, sound.deterministic, trim, gapless,
    finished.separated wf known⟩

/-- A trim deterministic graph is reduced by joining states that behave alike. -/
theorem Trim.joinAlike (trim : g.Trim) (wf : g.WellFormed) (det : g.Deterministic) :
    ∃ q, g.joinAlike = .ok q ∧ q.Reduced := by
  obtain ⟨start, begins⟩ := trim.begins
  have cong := congruence_stabilize wf g.divides_finality
  obtain ⟨q, joined, quot⟩ := joinAlike_eq wf begins
  obtain ⟨k, _, begins'⟩ := quot.exists_start cong wf begins
  -- A class is reached if a member is, and leads to a final state if a member does.
  have trim : q.Trim := ⟨⟨k, begins'⟩, quot.accessible cong wf det trim.accessible,
    quot.productive cong wf det trim.productive⟩
  exact ⟨q, joined, quot.wf, quot.deterministic wf, trim, quot.separated wf det⟩

/-- A trim graph is reduced by minimizing it. -/
theorem Trim.minimize (trim : g.Trim) (wf : g.WellFormed) :
    ∃ q, g.minimize = .ok q ∧ q.Reduced := by
  obtain ⟨dfa, origin, joins, wf', det, _⟩ := exists_minimize_eq wf
  rw [joins]
  -- A graph stays trim when it is made deterministic first.
  rcases origin with same | determined
  · exact Trim.joinAlike (same ▸ trim) wf' det
  · obtain ⟨_, again, _, _, trim', _⟩ := trim.determinize wf
    cases determined.symm.trans again
    exact trim'.joinAlike wf' det

/-- A reduced graph stays reduced when it is made deterministic once more. -/
theorem Reduced.determinize (reduced : g.Reduced) :
    ∃ dfa, g.determinize = .ok dfa ∧ dfa.Reduced ∧ dfa.Gapless := by
  -- Sets of single states are told apart as these states are.
  obtain ⟨dfa, determined, wf, det, trim, gapless, separated⟩ :=
    reduced.trim.determinize reduced.wf
  exact ⟨dfa, determined, ⟨wf, det, trim, separated reduced.det reduced.separated⟩, gapless⟩

/-- Whatever a state of a trim graph accepts, some state of any deterministic equivalent does. -/
theorem Trim.exists_counterpart (trim : g.Trim) (det : g.Deterministic) (det' : h.Deterministic)
    (wf' : h.WellFormed) {start : State} (begins : h.start = some start)
    (same : ∀ input, h.accepts input = g.accepts input) {k : State} (member : k ∈ g.states) :
    ∃ t ∈ h.states, g.acceptsFrom {k} = h.acceptsFrom {t} := by
  obtain ⟨initial, input, set, path⟩ := trim.accessible k member
  have reached := det.reach?_eq_some.mpr path
  have alike := acceptsFrom_start_eq det' begins det set same
  -- The input can be continued to an accepted one, so it leads somewhere in the other graph.
  obtain ⟨rest, onward⟩ := det.coaccessible_iff.mp (trim.productive k member)
  rw [← det.acceptsFrom_eq_true_iff, ← det.acceptsFrom_append reached, ← alike,
    det'.acceptsFrom_eq_true_iff] at onward
  obtain ⟨t, reached'⟩ := exists_reach?_of_future_append onward
  refine ⟨t, wf'.mem_of_reach? (wf'.start_mem start begins) reached', ?_⟩
  funext rest
  rw [← det.acceptsFrom_append reached, ← det'.acceptsFrom_append reached', alike]

/-- No deterministic graph for the same inputs has fewer states than a reduced one. -/
theorem Reduced.size_le (reduced : g.Reduced) (wf' : h.WellFormed) (det' : h.Deterministic)
    {start : State} (begins : h.start = some start)
    (same : ∀ input, h.accepts input = g.accepts input) : g.states.size ≤ h.states.size := by
  -- States of the reduced graph are told apart by what their counterparts accept.
  have card (f : Graph) : f.states.toList.toFinset.card = f.states.size :=
    List.toFinset_card_of_nodup f.states.nodup_toList
  rw [← card g, ← card h]
  refine Finset.card_le_card_of_forall_subsingleton
    (fun k t => g.acceptsFrom {k} = h.acceptsFrom {t}) ?_ ?_
  · intro k member
    obtain ⟨t, inside, alike⟩ := reduced.trim.exists_counterpart reduced.det det' wf' begins same
      (List.mem_toFinset.mp member)
    exact ⟨t, List.mem_toFinset.mpr inside, alike⟩
  · intro t _ k left k' right
    have inside : k ∈ g.states := List.mem_toFinset.mp left.1
    have inside' : k' ∈ g.states := List.mem_toFinset.mp right.1
    exact reduced.separated k inside k' inside' (future_eq_of_acceptsFrom_eq reduced.det reduced.wf
      reduced.trim.productive reduced.det reduced.wf reduced.trim.productive inside inside'
      (left.2.trans right.2.symm))

/-- The states of a graph without gaps are listed as the first numbers. -/
theorem Gapless.toList_states (gapless : g.Gapless) : g.states.toList = List.range g.next := by
  have ascending : (List.range g.next).Pairwise fun a b => compare a b = .lt := by
    simpa [Nat.compare_eq_lt] using List.pairwise_lt_range
  -- Both sides are in ascending order, so that it suffices to compare their elements.
  have same : g.states = ⟨List.range g.next, ascending⟩ := by
    ext k
    exact (gapless k).trans List.mem_range.symm
  rw [same]

/-- Without gaps the states determine the number of the next one. -/
theorem Gapless.next_eq (gapless : g.Gapless) (gapless' : h.Gapless)
    (same : g.states = h.states) : g.next = h.next := by
  -- The next number is how many states there are.
  have lists : List.range g.next = List.range h.next := by
    rw [← gapless.toList_states, ← gapless'.toList_states, same]
  simpa using congrArg List.length lists

/-- The states of a separated graph without gaps are numbered like their classes. -/
theorem Separated.classOf_eq (separated : g.Separated) (wf : g.WellFormed) (gapless : g.Gapless)
    {s : State} (member : s ∈ g.states) : (g.stabilize g.finality).classOf s = some s := by
  obtain ⟨p, last⟩ := g.exists_refine_eq g.finality
  -- States with one signature would be in one class and have one future.
  have distinct : ∀ s < g.next, ∀ t < g.next, g.signature p s = g.signature p t → s = t := by
    intro s left t right same
    have inside := (gapless s).mpr left
    have inside' := (gapless t).mpr right
    rw [← classOf_refine_eq_iff inside inside', ← last,
      classOf_stabilize_eq_iff wf inside inside'] at same
    exact separated s inside t inside' same
  rw [last, refine, gapless.toList_states]
  exact Partition.classOf_byKey_range ((gapless s).mp member) distinct

/-- The states of a graph of classes are numbered without gaps. -/
theorem IsQuotient.gapless {p : Partition} (quot : g.IsQuotient p q) : q.Gapless := fun k => by
  rw [quot.mem_states, quot.next_eq]

/-- If the states are numbered like their classes, the graph of classes is the graph itself. -/
theorem IsQuotient.eq_self {p : Partition} (quot : g.IsQuotient p q) (cong : g.Congruence p)
    (wf : g.WellFormed) (det : g.Deterministic) (gapless : g.Gapless)
    (own : ∀ s ∈ g.states, p.classOf s = some s) : q = g := by
  -- A class is represented by the state with its number.
  have represented : ∀ k s, p.representative k = some s → s = k := fun k s chosen => by
    have placed := cong.classOf_representative k s chosen
    exact Option.some.inj ((own s (cong.mem_of_classOf s k placed)).symm.trans placed)
  have represents : ∀ k ∈ g.states, p.representative k = some k := fun k member => by
    obtain ⟨s, chosen⟩ := cong.represented k (cong.class_lt k k (own k member))
    rwa [represented k s chosen] at chosen
  have states : q.states = g.states := by
    ext k
    rw [quot.mem_states]
    constructor
    · intro below
      obtain ⟨s, chosen⟩ := cong.represented k below
      cases represented k s chosen
      exact cong.mem_of_classOf k k (cong.classOf_representative k k chosen)
    · exact fun member => cong.class_lt k k (own k member)
  have finals : q.finals = g.finals := by
    ext k
    rw [quot.mem_finals]
    constructor
    · rintro ⟨s, chosen, final⟩
      exact represented k s chosen ▸ final
    · exact fun final => ⟨k, represents k (wf.finals_mem k final), final⟩
  have leads : ∀ k ∈ g.states, ∀ c target,
      ⟨k, .char c, target⟩ ∈ q.edges ↔ ⟨k, .char c, target⟩ ∈ g.edges := by
    intro k member c target
    rw [quot.mem_edges_iff cong wf (own k member), ← det.successor?_eq_some]
    cases next : g.successor? k c with
    | none => rfl
    | some t => rw [Option.bind_some, own t (wf.successor?_mem k c t next)]
  have edges : q.edges = g.edges := by
    ext ⟨k, symbol, target⟩
    cases symbol with
    | epsilon =>
      exact iff_of_false ((quot.deterministic wf).not_silent k target) (det.not_silent k target)
    | char c =>
      -- Whichever side has the edge knows its source.
      constructor
      · exact fun edge => (leads k (states ▸ quot.wf.source_mem _ edge) c target).mp edge
      · exact fun edge => (leads k (wf.source_mem _ edge) c target).mpr edge
  have start : q.start = g.start := by
    rw [quot.start]
    cases begins : g.start with
    | none => rfl
    | some start => exact own start (wf.start_mem start begins)
  exact quot.wf.ext wf states (quot.gapless.next_eq gapless states) edges start finals

/-- Nothing is joined in a separated graph without gaps, and nothing is numbered anew. -/
theorem Separated.minimize_eq_self (separated : g.Separated) (wf : g.WellFormed)
    (det : g.Deterministic) (gapless : g.Gapless) {start : State} (begins : g.start = some start) :
    g.minimize = .ok g := by
  have cong := congruence_stabilize wf g.divides_finality
  obtain ⟨q, joined, quot⟩ := joinAlike_eq wf begins
  rw [minimize_eq_of_deterministic det, joined]
  -- Each state is a class of its own, whose number is that of the state.
  exact congrArg _ (quot.eq_self cong wf det gapless fun s member =>
    separated.classOf_eq wf gapless member)

/-- A reduced graph without gaps stays as it is. -/
theorem Reduced.minimize_eq_self (reduced : g.Reduced) (gapless : g.Gapless) :
    g.minimize = .ok g := by
  -- A reduced graph has a start, from which its classes can be built.
  obtain ⟨start, begins⟩ := reduced.trim.begins
  exact reduced.separated.minimize_eq_self reduced.wf reduced.det gapless begins

end Graph

end PatternAutomata
