import PatternAutomata.Determinize
import PatternAutomata.Proofs.Outcome

/-! What a successful step of an exploration has done, and what any number of them preserves. -/

namespace PatternAutomata

namespace Exploration

variable {g : Graph} {x x' : Exploration} {k : State} {subset : SortedSet State}

/--
Visiting a set leaves an exploration as it is or appends the set.

A set that is appended gets a new state, which is marked if the set has a final state.
-/
theorem visit_cases (visited : visit g x subset = .ok (k, x')) :
    x.subsets.idxOf? subset = some k ∧ x' = x ∨
    subset ∉ x.subsets ∧ k = x.dfa.createState.1 ∧
      ∃ dfa, x' = ⟨dfa, x.subsets ++ [subset], k :: x.pending⟩ ∧
        (g.containsFinal subset = true ∧ x.dfa.createState.2.markFinal k = .ok dfa ∨
          g.containsFinal subset = false ∧ dfa = x.dfa.createState.2) := by
  unfold visit at visited
  split at visited
  · rename_i met
    cases visited
    exact Or.inl ⟨met, rfl⟩
  · rename_i unmet
    refine Or.inr ⟨List.idxOf?_eq_none_iff.mp unmet, ?_⟩
    -- The number that is given out does not depend on whether the state is marked.
    dsimp only at visited
    split at visited
    · rename_i final
      obtain ⟨dfa, marked, same⟩ := Outcome.bind_eq_ok.mp visited
      cases same
      exact ⟨rfl, dfa, rfl, Or.inl ⟨final, marked⟩⟩
    · rename_i final
      cases visited
      exact ⟨rfl, _, rfl, Or.inr ⟨Bool.eq_false_iff.mpr final, rfl⟩⟩

/-- Following a character changes nothing, or visits what is reached and adds an edge to it. -/
theorem follow_cases {c : Char} (followed : follow g k subset x c = .ok x') :
    g.advance subset c = ∅ ∧ x' = x ∨
    g.advance subset c ≠ ∅ ∧ ∃ target y dfa, visit g x (g.advance subset c) = .ok (target, y) ∧
      y.dfa.addEdge ⟨k, .char c, target⟩ = .ok dfa ∧ x' = { y with dfa } := by
  unfold follow at followed
  dsimp only at followed
  -- There is no edge where the step leads nowhere.
  split at followed
  · rename_i nowhere
    cases followed
    exact Or.inl ⟨nowhere, rfl⟩
  · rename_i somewhere
    obtain ⟨⟨target, y⟩, visited, followed⟩ := Outcome.bind_eq_ok.mp followed
    obtain ⟨dfa, added, same⟩ := Outcome.bind_eq_ok.mp followed
    cases same
    exact Or.inr ⟨somewhere, target, y, dfa, visited, added, rfl⟩

/-- Whatever is preserved when a pending state is taken and expanded, exploring preserves. -/
theorem explore_preserves {Inv : Exploration → Prop}
    (onward : ∀ x k pending x', x.pending = k :: pending → Inv x →
      expand g k { x with pending } = .ok x' → Inv x')
    {bound : Nat} (holds : Inv x) (explored : explore g bound x = .ok x') : Inv x' := by
  -- The bound falls with every state that is expanded.
  induction bound generalizing x with
  | zero =>
    cases explored
    exact holds
  | succ bound ih =>
    unfold explore at explored
    split at explored
    · cases explored
      exact holds
    · rename_i k pending taken
      obtain ⟨next, expanded, explored⟩ := Outcome.bind_eq_ok.mp explored
      exact ih (onward x k pending next taken holds expanded) explored

end Exploration

end PatternAutomata
