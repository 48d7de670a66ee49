import PatternAutomata.Proofs.Determinize.Lockstep
import PatternAutomata.Proofs.Minimize.Reduced

/-! Reduced graphs for the same inputs are numbered alike by making them deterministic once more. -/

namespace PatternAutomata

namespace Graph

/-- Sets of at most one state of two graphs are paired when their states have one future. -/
inductive Paired (g h : Graph) : SortedSet State → SortedSet State → Prop where
  /-- No state is paired with no state. -/
  | none : Paired g h ∅ ∅
  /-- States are paired when the same can become of all inputs. -/
  | single {s t : State} (left : s ∈ g.states) (right : t ∈ h.states)
      (same : g.future s = h.future t) : Paired g h {s} {t}

variable {g h : Graph}

/-- Pairs of states of separated deterministic graphs correspond. -/
theorem Separated.corresponding (separated : g.Separated) (wf : g.WellFormed)
    (det : g.Deterministic) (separated' : h.Separated) (wf' : h.WellFormed)
    (det' : h.Deterministic) : Corresponding g h (Paired g h) where
  empty := Paired.none
  unique s t s' t' paired paired' := by
    -- A state has only one partner, since a second one would have the same future.
    cases paired with
    | none =>
      cases paired' with
      | none => simp
      | single => simp
    | @single s t left right same =>
      cases paired' with
      | none => simp
      | @single s' t' left' right' same' =>
        rw [SortedSet.singleton_inj, SortedSet.singleton_inj]
        constructor
        · intro equal
          subst equal
          exact separated' t right t' right' (same.symm.trans same')
        · intro equal
          subst equal
          exact separated s left s' left' (same.trans same'.symm)
  final_eq s t paired := by
    cases paired with
    | none => rfl
    | single left right same => simpa [containsFinal] using congrFun same []
  advance s t c paired := by
    cases paired with
    | none =>
      rw [advance_empty, advance_empty]
      exact Paired.none
    | @single s t left right same =>
      rw [det.advance_singleton, det'.advance_singleton]
      rcases successor?_of_future_eq same c with ⟨next, next'⟩ | ⟨u, v, next, next', same⟩
      · rw [next, next']
        exact Paired.none
      · rw [next, next']
        exact Paired.single (wf.successor?_mem s c u next) (wf'.successor?_mem t c v next') same

/-- Reduced graphs for the same inputs become one graph when they are made deterministic. -/
theorem Reduced.determinize_eq (reduced : g.Reduced) (reduced' : h.Reduced)
    (same : ∀ input, g.accepts input = h.accepts input) : g.determinize = h.determinize := by
  obtain ⟨wf, det, trim, separated⟩ := reduced
  obtain ⟨wf', det', trim', separated'⟩ := reduced'
  obtain ⟨s, begins⟩ := trim.begins
  obtain ⟨t, begins'⟩ := trim'.begins
  have left := wf.start_mem s begins
  have right := wf'.start_mem t begins'
  -- What the starts accept is all that there is to know of them.
  have alike := future_eq_of_acceptsFrom_eq det wf trim.productive det' wf' trim'.productive left
    right (acceptsFrom_start_eq det begins det' begins' same)
  refine determinize_eq_of_corresponding wf wf'
    (separated.corresponding wf det separated' wf' det') begins begins' ?_
  rw [(det.silentlyClosed _).closure_eq, (det'.silentlyClosed _).closure_eq]
  exact Paired.single left right alike

/-- A reduced graph without gaps that no conversion changes. -/
structure Canonical (g : Graph) : Prop extends Reduced g where
  /-- The states are numbered without gaps. -/
  gapless : g.Gapless
  /-- The graph is deterministic in the way in which it would be made so. -/
  determined : g.determinize = .ok g

/-- A reduced graph becomes canonical when it is made deterministic once more. -/
theorem Reduced.canonical (reduced : g.Reduced) :
    ∃ dfa, g.determinize = .ok dfa ∧ dfa.Canonical := by
  obtain ⟨dfa, determined, reduced', gapless⟩ := reduced.determinize
  obtain ⟨_, again, _, _, same⟩ := determinize_ok reduced.wf
  cases determined.symm.trans again
  -- The result accepts the same inputs, so it is made into the same graph.
  have again := (reduced'.determinize_eq reduced same).trans determined
  exact ⟨dfa, determined, reduced', gapless, again⟩

/-- Canonical graphs for the same inputs are equal. -/
theorem Canonical.eq (canonical : g.Canonical) (canonical' : h.Canonical)
    (same : ∀ input, g.accepts input = h.accepts input) : g = h := by
  -- Both are what they become when they are made deterministic.
  have both := canonical.determinize_eq canonical'.toReduced same
  rw [canonical.determined, canonical'.determined] at both
  exact Except.ok.inj both

end Graph

end PatternAutomata
