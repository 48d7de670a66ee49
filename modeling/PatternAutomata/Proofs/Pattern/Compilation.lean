import PatternAutomata.Pattern.Compilation
import PatternAutomata.Pattern.Parse
import PatternAutomata.Proofs.Pattern.Reading
import PatternAutomata.Proofs.Pattern.Tree

/-! Compiling a pattern gives the automaton of its tree, and fails exactly as parsing it does. -/

namespace PatternAutomata

open Outcome

namespace Operands

/-- Automata correspond to trees when each was built where the one before it left off. -/
inductive Corresponds : Operands → List Tree → Prop where
  /-- The first automaton is built from a new builder. -/
  | none : Corresponds {} []
  /-- Any other is built from the builder that is there. -/
  | more {builder after : Builder} {graphs : List Graph} {g : Graph} {trees : List Tree}
      {tree : Tree} (earlier : Corresponds ⟨builder, graphs⟩ trees)
      (builds : tree.build builder = .ok (g, after)) :
      Corresponds ⟨after, g :: graphs⟩ (tree :: trees)

/-- One operand is replaced when the operation on automata is the one that builds the new tree. -/
theorem Corresponds.replace {builder : Builder} {graphs : List Graph} {trees : List Tree}
    (earlier : Corresponds ⟨builder, graphs⟩ trees) (tree : Tree)
    {operation : Except Error (Graph × Builder)} (same : tree.build builder = operation) :
    Agree Corresponds
      (operation >>= fun built => (.ok ⟨built.2, built.1 :: graphs⟩ : Except Error Operands))
      (.ok (tree :: trees) : Except Error (List Tree)) := by
  -- Every tree has an automaton, so the operation succeeds.
  obtain ⟨g, after, builds, _⟩ := tree.build_ok builder
  rw [← same, builds]
  exact Agree.ok (Corresponds.more earlier builds)

/-- Automata and trees behave alike as operands. -/
theorem alike_corresponds : Alike Corresponds where
  pushLiteral operands trees c earlier := earlier.replace (.literal c) rfl
  apply operands trees operator position corresponds := by
    -- An operator that lacks an operand lacks it on both sides.
    cases operator with
    | star =>
      cases corresponds with
      | none => exact Agree.error _
      | @more _ _ _ _ _ inner earlier builds =>
        exact earlier.replace (.star inner) (by rw [Tree.build, builds]; rfl)
    | plus =>
      cases corresponds with
      | none => exact Agree.error _
      | @more _ _ _ _ _ inner earlier builds =>
        exact earlier.replace (.plus inner) (by rw [Tree.build, builds]; rfl)
    | concat =>
      cases corresponds with
      | none => exact Agree.error _
      | @more _ _ _ _ _ right earlier buildsRight =>
        cases earlier with
        | none => exact Agree.error _
        | @more _ _ _ _ _ left earliest buildsLeft =>
          refine earliest.replace (.concat left right) ?_
          rw [Tree.build, buildsLeft, ok_bind]
          show (Tree.build _ right >>= _) = _
          rw [buildsRight]
          rfl
    | union =>
      cases corresponds with
      | none => exact Agree.error _
      | @more _ _ _ _ _ right earlier buildsRight =>
        cases earlier with
        | none => exact Agree.error _
        | @more _ _ _ _ _ left earliest buildsLeft =>
          refine earliest.replace (.union left right) ?_
          rw [Tree.build, buildsLeft, ok_bind]
          show (Tree.build _ right >>= _) = _
          rw [buildsRight]
          rfl

end Operands

/-- A compiled pattern is the automaton of the parsed one, and both fail in the same way. -/
theorem agree_compile_parse (pattern : String) :
    Agree (fun g tree => ∃ after, Tree.build {} tree = .ok (g, after)) (compile pattern)
      (Tree.parse pattern) := by
  refine (Reading.agree_ofPattern Operands.alike_corresponds Operands.Corresponds.none _).bind ?_
  intro operands trees corresponds
  -- A single automaton corresponds to a single tree.
  cases corresponds with
  | none => exact Agree.error _
  | more earlier builds =>
    cases earlier with
    | none => exact Agree.ok ⟨_, builds⟩
    | more => exact Agree.error _

/-- A pattern compiles to a graph exactly if it has a tree, of which this is the automaton. -/
theorem compile_eq_ok_iff {pattern : String} {g : Graph} :
    compile pattern = .ok g ↔
      ∃ tree after, Tree.parse pattern = .ok tree ∧ tree.build {} = .ok (g, after) := by
  -- A success on one side is one on the other, and an automaton is built in one way only.
  have agree := agree_compile_parse pattern
  constructor
  · intro compiled
    rw [compiled] at agree
    obtain ⟨tree, parsed, after, builds⟩ := agree.ok_left
    exact ⟨tree, after, parsed, builds⟩
  · intro parsed
    obtain ⟨tree, after, parsed, builds⟩ := parsed
    rw [parsed] at agree
    obtain ⟨other, compiled, _, again⟩ := agree.ok_right
    rw [builds] at again
    cases again
    exact compiled

/-- A compiled pattern is made of operations on graphs, as its tree is built. -/
theorem Kept.compile {P : Graph → Prop} (kept : Kept P) {pattern : String} {g : Graph}
    (compiled : compile pattern = .ok g) : P g := by
  obtain ⟨tree, after, _, builds⟩ := compile_eq_ok_iff.mp compiled
  -- The operations that build the automaton are those of the tree.
  exact kept.build builds

/-- A compiled pattern is well formed. -/
theorem wellFormed_of_compile {pattern : String} {g : Graph} (compiled : compile pattern = .ok g) :
    g.WellFormed :=
  kept_wellFormed.compile compiled

end PatternAutomata
