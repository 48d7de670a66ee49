import PatternAutomata.Proofs.Pattern.Nesting
import PatternAutomata.Text.Escape
import PatternAutomata.Text.Reader

/-! Numbers and symbols as they are written may stand between quotes. -/

namespace PatternAutomata

namespace Text

/-- What every digit has is checked for the digits of small numbers. -/
theorem forall_mem_toDigits {P : Char → Prop} {base : Nat} (positive : 1 < base)
    (digits : ∀ d < base, P (Nat.digitChar d)) (n : Nat) : ∀ c ∈ Nat.toDigits base n, P c := by
  -- Behind the digits of the quotient stands that of the remainder, so the quotient is smaller.
  induction n using Nat.strongRecOn with
  | ind n ih =>
    intro c member
    by_cases small : n < base
    · rw [Nat.toDigits_of_lt_base small] at member
      exact List.mem_singleton.mp member ▸ digits n small
    · rw [Nat.toDigits_of_base_le positive (Nat.le_of_not_lt small)] at member
      rcases List.mem_append.mp member with member | member
      · exact ih (n / base) (Nat.div_lt_self (by omega) positive) c member
      · exact List.mem_singleton.mp member ▸ digits (n % base) (Nat.mod_lt _ (by omega))

/-- The ways in which characters are written. -/
inductive Escapes : Char → List Char → Prop where
  /-- Few characters are written as a letter, or as themselves, behind a backslash. -/
  | short {c letter : Char} (named : (letter, c) ∈ Reader.shortForms) : Escapes c ['\\', letter]
  /-- A character that is readable and does not quote or escape is written as itself. -/
  | plain {c : Char} (readable : ' ' ≤ c ∧ c ≤ '~') (quotes : c ≠ '"') (escapes : c ≠ '\\') :
      Escapes c [c]
  /-- Any other character is written as its code point. -/
  | code (c : Char) :
      Escapes c ("\\u\x7b".toList ++ Nat.toDigits 16 c.toNat ++ "\x7d".toList)

/-- Every character is written in one of these ways. -/
theorem escapes_escape (c : Char) : Escapes c (escape c).toList := by
  -- The first six cases have a letter of their own, and the last two depend on the code point.
  fun_cases escape c with
  | case7 c _ _ _ _ quotes escapes readable =>
    rw [String.toList_singleton]
    exact .plain readable quotes escapes
  | case8 c =>
    simpa only [String.toList_append, String.toList_ofList] using Escapes.code c
  | _ => exact .short (by decide)

/-- A text may stand between quotes, neither of which belongs to the text. -/
structure WellQuoted (text : List Char) : Prop where
  /-- The text has readable characters and the letter epsilon only. -/
  readable : ∀ c ∈ text, c = 'ε' ∨ (' ' ≤ c ∧ c ≤ '~')
  /-- The text takes a single line. -/
  unbroken : '\n' ∉ text
  /-- Every quote within the text stands behind an odd number of backslashes. -/
  guarded : ∀ position, ¬ Unescaped text position '"'
  /-- The quote behind the text does not. -/
  closed : ¬ Dangles text

/-- A readable text may stand between quotes if it does not quote and no escape dangles. -/
theorem wellQuoted_of_not_mem {text : List Char}
    (readable : ∀ c ∈ text, c = 'ε' ∨ (' ' ≤ c ∧ c ≤ '~')) (quotes : '"' ∉ text)
    (closed : ¬ Dangles text) : WellQuoted text where
  readable := readable
  -- A line break is not readable, and there is no quote to guard.
  unbroken member := absurd (readable '\n' member) (by decide)
  guarded _ stands := quotes (List.mem_of_getElem? stands.1)
  closed := closed

/-- No escape dangles where there is no backslash. -/
theorem not_dangles_of_not_mem {text : List Char} (absent : '\\' ∉ text) : ¬ Dangles text := by
  -- Only the last character counts, since it is no backslash.
  rcases List.eq_nil_or_concat text with rfl | ⟨front, last, rfl⟩
  · exact not_dangles_nil
  · rw [List.concat_eq_append] at absent ⊢
    exact not_dangles_snoc front fun same => absent (by simp [same])

/-- Digits are readable, and neither quote nor escape. -/
theorem readable_of_mem_toDigits {base : Nat} (positive : 1 < base) (bounded : base ≤ 16)
    (n : Nat) : ∀ c ∈ Nat.toDigits base n, (' ' ≤ c ∧ c ≤ '~') ∧ c ≠ '"' ∧ c ≠ '\\' := by
  -- There are sixteen digits, each of which is looked at.
  have digits : ∀ d < 16, (' ' ≤ Nat.digitChar d ∧ Nat.digitChar d ≤ '~') ∧
      Nat.digitChar d ≠ '"' ∧ Nat.digitChar d ≠ '\\' := by decide
  exact forall_mem_toDigits positive (fun d small => digits d (by omega)) n

/-- The digits of a number may stand between quotes. -/
theorem wellQuoted_repr (n : Nat) : WellQuoted n.repr.toList := by
  have digits := @readable_of_mem_toDigits 10 (by omega) (by omega) n
  rw [Nat.toList_repr]
  -- Digits are readable, and are neither quotes nor backslashes.
  exact wellQuoted_of_not_mem (fun c member => Or.inr (digits c member).1)
    (fun member => (digits _ member).2.1 rfl)
    (not_dangles_of_not_mem fun member => (digits _ member).2.2 rfl)

/-- What is written for a character may stand between quotes. -/
theorem Escapes.wellQuoted {c : Char} {text : List Char} (form : Escapes c text) :
    WellQuoted text := by
  cases form with
  | @short letter named =>
    -- The letter may be a quote or a backslash, and is guarded by the backslash in front of it.
    have letters : ∀ pair ∈ Reader.shortForms, ' ' ≤ pair.1 ∧ pair.1 ≤ '~' := by
      simp [Reader.shortForms]
    have readable : ∀ d ∈ ['\\', letter], d = 'ε' ∨ (' ' ≤ d ∧ d ≤ '~') :=
      List.forall_mem_cons.mpr ⟨by decide, by simpa using Or.inr (letters _ named)⟩
    refine ⟨readable, fun member => absurd (readable '\n' member) (by decide), ?_,
      not_dangles_escaped not_dangles_nil letter⟩
    rintro (_ | _ | position) ⟨stands, whole⟩
    · cases stands
    · have protects : Dangles ['\\'] := by decide
      exact whole protects
    · cases stands
  | plain readable quotes escapes =>
    exact wellQuoted_of_not_mem (by simpa using Or.inr readable) (by simpa using quotes.symm)
      (not_dangles_snoc [] escapes)
  | code =>
    have digits := @readable_of_mem_toDigits 16 (by omega) (by omega) c.toNat
    have all : ∀ d ∈ "\\u\x7b".toList ++ Nat.toDigits 16 c.toNat ++ "\x7d".toList,
        (' ' ≤ d ∧ d ≤ '~') ∧ d ≠ '"' := by
      simp only [List.forall_mem_append]
      exact ⟨⟨by simp, fun d member => ⟨(digits d member).1, (digits d member).2.1⟩⟩, by simp⟩
    exact wellQuoted_of_not_mem (fun d member => Or.inr (all d member).1)
      (fun member => (all _ member).2 rfl) (not_dangles_snoc _ (by decide))

end Text

/-- What is written for a symbol may stand between quotes. -/
theorem Symbol.wellQuoted_text (s : Symbol) : Text.WellQuoted s.text.toList := by
  -- Only characters are escaped, since the sign of a silent edge is harmless.
  cases s with
  | epsilon => exact Text.wellQuoted_of_not_mem (by simp [text]) (by decide) (by decide)
  | char c => exact (Text.escapes_escape c).wellQuoted

end PatternAutomata
