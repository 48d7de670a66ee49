import PatternAutomata.Proofs.Minimize.Canonical
import PatternAutomata.Proofs.Pattern.Trim
import PatternAutomata.Proofs.Session

/-! Minimizing and then making deterministic gives one graph for all patterns of one language. -/

namespace PatternAutomata

namespace Graph

variable {g changed : Graph}

/-- A conversion keeps what is accepted. -/
theorem WellFormed.accepts_convert (wf : g.WellFormed) {conversion : Conversion}
    (converted : g.convert conversion = .ok changed) (input : String) :
    changed.accepts input = g.accepts input := by
  -- Both conversions are known to succeed, so the result is the one that is known of.
  cases conversion with
  | determinize =>
    obtain ⟨dfa, determined, _, _, same⟩ := determinize_ok wf
    cases determined.symm.trans converted
    exact same input
  | minimize =>
    obtain ⟨q, minimized, _, _, same⟩ := minimize_ok wf
    cases minimized.symm.trans converted
    exact same input

/-- Any number of conversions keep what is accepted. -/
theorem WellFormed.accepts_convertAll (wf : g.WellFormed) {conversions : List Conversion}
    (converted : g.convertAll conversions = .ok changed) (input : String) :
    changed.accepts input = g.accepts input := by
  -- By induction over the conversions, each of which keeps what is accepted.
  induction conversions generalizing g with
  | nil =>
    cases converted
    rfl
  | cons conversion rest ih =>
    obtain ⟨next, first, later⟩ := Outcome.bind_eq_ok.mp converted
    exact (ih (kept_wellFormed.convert first) later).trans (wf.accepts_convert first input)

/-- Conversions may be done in two rounds. -/
theorem convertAll_append (g : Graph) (first second : List Conversion) :
    g.convertAll (first ++ second) = g.convertAll first >>= fun h => h.convertAll second :=
  List.foldlM_append

/-- Conversions leave no useless states in a trim graph. -/
theorem Trim.convertAll (trim : g.Trim) (wf : g.WellFormed) (conversions : List Conversion) :
    ∃ changed, g.convertAll conversions = .ok changed ∧ changed.WellFormed ∧ changed.Trim := by
  -- To be well formed and trim is what one conversion hands on to the next.
  refine Outcome.foldlM_ok convert (fun _ h => h.WellFormed ∧ h.Trim) conversions ⟨wf, trim⟩ ?_
  rintro _ conversion _ h ⟨wf, trim⟩
  cases conversion with
  | determinize =>
    obtain ⟨dfa, determined, wf', _, trim', _⟩ := trim.determinize wf
    exact ⟨dfa, determined, wf', trim'⟩
  | minimize =>
    obtain ⟨q, minimized, reduced⟩ := trim.minimize wf
    exact ⟨q, minimized, reduced.wf, reduced.trim⟩

/-- Once a graph is reduced it stays so. -/
theorem Reduced.convertAll (reduced : g.Reduced) (conversions : List Conversion) :
    ∃ changed, g.convertAll conversions = .ok changed ∧ changed.Reduced := by
  -- Each conversion succeeds on a reduced graph and leaves one.
  refine Outcome.foldlM_ok convert (fun _ h => h.Reduced) conversions reduced ?_
  intro _ conversion _ h reduced
  cases conversion with
  | determinize =>
    obtain ⟨dfa, determined, reduced', _⟩ := reduced.determinize
    exact ⟨dfa, determined, reduced'⟩
  | minimize => exact reduced.trim.minimize reduced.wf

/-- Once a graph is canonical it stays the same. -/
theorem Canonical.convertAll (canonical : g.Canonical) (conversions : List Conversion) :
    g.convertAll conversions = .ok g := by
  obtain ⟨_, converted, rfl⟩ :=
    -- The graph itself is all that is left after any number of conversions.
    Outcome.foldlM_ok convert (fun _ h => h = g) conversions rfl fun _ conversion _ h same => by
      subst same
      cases conversion with
      | determinize => exact ⟨h, canonical.determined, rfl⟩
      | minimize => exact ⟨h, canonical.toReduced.minimize_eq_self canonical.gapless, rfl⟩
  exact converted

/-- Minimizing and, at some time later, making deterministic leads to a canonical graph. -/
theorem Trim.convertAll_canonical (trim : g.Trim) (wf : g.WellFormed)
    {conversions : List Conversion}
    (reduces : [.minimize, .determinize].Sublist conversions) :
    ∃ changed, g.convertAll conversions = .ok changed ∧ changed.Canonical := by
  -- The two conversions that count are found in this order, with others around them.
  obtain ⟨first, second, rfl, early, late⟩ := List.cons_sublist_iff.mp reduces
  obtain ⟨before, between, rfl⟩ := List.append_of_mem early
  obtain ⟨more, after, rfl⟩ := List.append_of_mem (List.singleton_sublist.mp late)
  obtain ⟨g₁, converted₁, wf₁, trim₁⟩ := trim.convertAll wf before
  obtain ⟨g₂, minimized, reduced₂⟩ := trim₁.minimize wf₁
  obtain ⟨g₃, converted₃, reduced₃⟩ := reduced₂.convertAll (between ++ more)
  obtain ⟨g₄, determined, canonical₄⟩ := reduced₃.canonical
  refine ⟨g₄, ?_, canonical₄⟩
  rw [List.append_assoc, convertAll_append]
  refine Outcome.bind_ok converted₁ (Outcome.bind_ok minimized ?_)
  show g₂.convertAll (between ++ (more ++ .determinize :: after)) = .ok g₄
  rw [← List.append_assoc, convertAll_append]
  exact Outcome.bind_ok converted₃ (Outcome.bind_ok determined (canonical₄.convertAll after))

end Graph

/--
Patterns of one language, and only these, are converted to one graph.

Conversions may come in any order and any number, as long as the graphs are minimized at some time
and made deterministic at some later time. Then even the numbers of the states are the same.
-/
theorem convertAll_eq_iff {p q : String} {a b : Graph} (left : compile p = .ok a)
    (right : compile q = .ok b) {s t : List Conversion}
    (reduces : [.minimize, .determinize].Sublist s)
    (reduces' : [.minimize, .determinize].Sublist t) :
    ∃ a' b', a.convertAll s = .ok a' ∧ b.convertAll t = .ok b' ∧
      (a'.states = b'.states ∧ a'.start = b'.start ∧ a'.finals = b'.finals ∧
          a'.alphabet = b'.alphabet ∧ a'.edges = b'.edges ↔
        ∀ input, a.accepts input = b.accepts input) ∧
      (a' = b' ↔ ∀ input, a.accepts input = b.accepts input) := by
  have wf := wellFormed_of_compile left
  have wf' := wellFormed_of_compile right
  obtain ⟨a', converted, canonical⟩ := (trim_of_compile left).convertAll_canonical wf reduces
  obtain ⟨b', converted', canonical'⟩ := (trim_of_compile right).convertAll_canonical wf' reduces'
  -- The conversions keep what is accepted, and canonical graphs are determined by this.
  have whole : a' = b' ↔ ∀ input, a.accepts input = b.accepts input := by
    have kept := wf.accepts_convertAll converted
    have kept' := wf'.accepts_convertAll converted'
    constructor
    · rintro rfl input
      rw [← kept, kept']
    · exact fun same => canonical.eq canonical' fun input => by rw [kept, kept', same]
  refine ⟨a', b', converted, converted', ?_, whole⟩
  rw [← whole]
  constructor
  · rintro ⟨states, start, finals, _, edges⟩
    have next := canonical.gapless.next_eq canonical'.gapless states
    exact canonical.wf.ext canonical'.wf states next edges start finals
  · rintro rfl
    exact ⟨rfl, rfl, rfl, rfl, rfl⟩

/-- Two patterns are converted to one graph, though in different ways, so they are equivalent. -/
theorem convertAll_eq_iff_repetition : ∃ a b : Graph, compile "a+" = .ok a ∧
    compile "aa*" = .ok b ∧ ∃ a', a.convertAll [.minimize, .determinize] = .ok a' ∧
      b.convertAll [.determinize, .minimize, .minimize, .determinize] = .ok a' ∧
      ∀ input, a.accepts input = b.accepts input := by
  -- That the results are equal is found by computing them.
  have both : (compile "a+" >>= fun a => a.convertAll [.minimize, .determinize]) =
      (compile "aa*" >>= fun b =>
        b.convertAll [.determinize, .minimize, .minimize, .determinize]) := by decide +kernel
  obtain ⟨a, left⟩ : ∃ a, compile "a+" = .ok a := ⟨_, by cbv⟩
  obtain ⟨b, right⟩ : ∃ b, compile "aa*" = .ok b := ⟨_, by cbv⟩
  rw [left, right] at both
  obtain ⟨a', b', converted, converted', _, whole⟩ := convertAll_eq_iff left right
    (by decide : [.minimize, .determinize].Sublist [Conversion.minimize, .determinize])
    (by decide : [.minimize, .determinize].Sublist
      [Conversion.determinize, .minimize, .minimize, .determinize])
  have same : a' = b' := Except.ok.inj (converted.symm.trans (both.trans converted'))
  exact ⟨a, b, left, right, a', converted, same ▸ converted', whole.mp same⟩

end PatternAutomata
