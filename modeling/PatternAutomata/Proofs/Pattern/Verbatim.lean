import Mathlib.Data.List.Induction
import PatternAutomata.Pattern.Verbatim
import PatternAutomata.Proofs.Graph.Run
import PatternAutomata.Proofs.Pattern.Compilation
import PatternAutomata.Proofs.Pattern.Parsed

/-! A text whose operators are escaped compiles to one automaton, which accepts this text only. -/

namespace PatternAutomata

section Escaping

variable {chosen : Nat → Prop} [DecidablePred chosen] {text : List Char} {c : Char}

omit [DecidablePred chosen] in
/-- A text is protected by what protects all of it but its last character and that one as well. -/
theorem protects_snoc : Protects chosen (text ++ [c]) ↔
    Protects chosen text ∧ (IsPlain c ∨ chosen text.length) := by
  simp [Protects, List.zipIdx_append, or_imp, forall_and]

/-- The last character of a text is escaped behind all others, if its position is chosen. -/
theorem escaped_snoc : escaped chosen (text ++ [c]) =
    escaped chosen text ++ if chosen text.length then ['\\', c] else [c] := by
  simp [escaped, List.zipIdx_append]

/-- A character is an atom as it is or with a backslash in front of it, whichever is allowed. -/
theorem derives_atom {escapes : Prop} [Decidable escapes] (allowed : IsPlain c ∨ escapes) :
    Derives .atom (if escapes then ['\\', c] else [c]) (.literal c) := by
  -- A character without a backslash has to be plain.
  split
  · exact Derives.escaped c
  · rename_i bare
    exact Derives.plain (allowed.resolve_right bare)

end Escaping

namespace Tree

/-- One more character is concatenated to all the others. -/
theorem chain_snoc (first : Char) (rest : List Char) (c : Char) :
    chain first (rest ++ [c]) = concat (chain first rest) (literal c) := by
  simp [chain]

/-- Characters after each other describe the text that they are. -/
theorem matches_chain_iff {first : Char} {rest input : List Char} :
    (chain first rest).Matches input ↔ input = first :: rest := by
  induction rest using List.reverseRecOn generalizing input with
  | nil => exact matches_literal_iff
  | append_singleton rest c ih =>
    rw [chain_snoc, matches_concat_iff]
    -- The input is cut in front of its last character.
    simp only [ih, matches_literal_iff]
    constructor
    · rintro ⟨_, _, whole, rfl, rfl⟩
      exact whole.symm
    · rintro rfl
      exact ⟨_, _, rfl, rfl, rfl⟩

end Tree

/-- However a text is escaped, it is written for its characters after each other. -/
theorem derives_chain {chosen : Nat → Prop} [DecidablePred chosen] {first : Char}
    {rest : List Char} (protects : Protects chosen (first :: rest)) :
    Derives .branch (escaped chosen (first :: rest)) (.chain first rest) := by
  -- By induction from the end, since concatenations are grouped to the left.
  induction rest using List.reverseRecOn with
  | nil =>
    have allowed := (protects_snoc.mp (show Protects chosen ([] ++ [first]) from protects)).2
    show Derives .branch (escaped chosen ([] ++ [first])) (.literal first)
    rw [escaped_snoc]
    exact Derives.branch (Derives.piece (derives_atom allowed))
  | append_singleton rest c ih =>
    rw [← List.cons_append] at protects ⊢
    obtain ⟨before, allowed⟩ := protects_snoc.mp protects
    rw [escaped_snoc, Tree.chain_snoc]
    exact Derives.concat (ih before) (Derives.piece (derives_atom allowed))

/--
A text that is not empty compiles once all is escaped that would not stand for itself.

Whatever else is escaped, the automaton is the same, numbers included, and it accepts the text and
nothing else.
-/
theorem exists_compile_escaped {text : String} (nonempty : text ≠ "") :
    ∃ g, (∀ (chosen : Nat → Prop) [DecidablePred chosen], Protects chosen text.toList →
        compile (.ofList (escaped chosen text.toList)) = .ok g) ∧
      ∀ input, g.accepts input = true ↔ input = text := by
  obtain ⟨first, rest, whole⟩ : ∃ first rest, text.toList = first :: rest := by
    cases whole : text.toList with
    | nil => exact absurd (String.toList_eq_nil_iff.mp whole) nonempty
    | cons first rest => exact ⟨first, rest, rfl⟩
  -- The automaton is that of the characters, which have a tree that does not show the escapes.
  obtain ⟨g, after, builds, built⟩ := (Tree.chain first rest).build_ok {}
  refine ⟨g, fun chosen _ protects => ?_, fun input => ?_⟩
  · rw [whole] at protects ⊢
    have derives := Derives.pattern (derives_chain protects)
    refine compile_eq_ok_iff.mpr ⟨.chain first rest, after, Tree.parse_eq_ok_iff.mpr ?_, builds⟩
    rwa [String.toList_ofList]
  · rw [Graph.accepts_iff_spells, built.spells, Tree.matches_chain_iff, ← whole, String.toList_inj]

/-- An asterisk and a backslash are escaped, and once the letter in front of them as well. -/
theorem exists_compile_escaped_backslash :
    "a*\\" ≠ "" ∧ Protects (· ≠ 0) "a*\\".toList ∧ Protects (fun _ => True) "a*\\".toList ∧
      ∃ g, compile "a\\*\\\\" = .ok g ∧ compile "\\a\\*\\\\" = .ok g ∧
        ∀ input, g.accepts input = true ↔ input = "a*\\" := by
  have nonempty : "a*\\" ≠ "" := by decide
  have needed : Protects (· ≠ 0) "a*\\".toList := by decide
  have whole : Protects (fun _ => True) "a*\\".toList := by decide
  have shorter : String.ofList (escaped (· ≠ 0) "a*\\".toList) = "a\\*\\\\" := by decide
  have longer : String.ofList (escaped (fun _ => True) "a*\\".toList) = "\\a\\*\\\\" := by decide
  -- Protecting more characters than needed makes no difference to the automaton.
  obtain ⟨g, compiles, accepts⟩ := exists_compile_escaped nonempty
  refine ⟨nonempty, needed, whole, g, ?_, ?_, accepts⟩
  · rw [← shorter]
    exact compiles _ needed
  · rw [← longer]
    exact compiles _ whole

end PatternAutomata
