import PatternAutomata.Proofs.Text.Escape

/-! Whatever is written in front of a text is read back from there, and the text is left. -/

namespace PatternAutomata

namespace Reader

/-- The digits of a number stand for it. -/
theorem numeral_toDigits {base : Nat} (positive : 1 < base) (bounded : base ≤ 16) (n : Nat) :
    numeral base (Nat.toDigits base n) = n := by
  -- The last digit is the remainder, and those in front of it are the digits of the quotient.
  have digits : ∀ d < 16, digit (Nat.digitChar d) = d := by decide
  induction n using Nat.strongRecOn with
  | ind n ih =>
    by_cases small : n < base
    · rw [Nat.toDigits_of_lt_base small]
      simpa [numeral] using digits n (by omega)
    · have quotient := ih (n / base) (Nat.div_lt_self (by omega) positive)
      have remainder := digits (n % base) (Nat.lt_of_lt_of_le (Nat.mod_lt n (by omega)) bounded)
      rw [Nat.toDigits_of_base_le positive (Nat.le_of_not_lt small), numeral, List.foldl_append,
        ← numeral, quotient]
      simp only [List.foldl_cons, List.foldl_nil, remainder]
      exact Nat.div_add_mod' n base

section Primitives

/-- A word is found in front of any text. -/
theorem isPrefixOf?_append (word rest : List Char) :
    word.isPrefixOf? (word ++ rest) = some rest := by
  -- By induction over the word, which is taken off one character at a time.
  induction word with
  | nil => rfl
  | cons c word ih => exact (if_pos (beq_self_eq_true c)).trans ih

/-- A word is read where it stands. -/
@[simp] theorem expect_run (word : String) (rest : List Char) :
    (expect word).run (word.toList ++ rest) = some ((), rest) := by
  simp [expect, StateT.run, isPrefixOf?_append]

/-- One of two words is read where it stands, unless the other one is found there as well. -/
theorem choose_run (yes no : String) (choice : Prop) [Decidable choice] (rest : List Char)
    (other : ¬ choice → yes.toList.isPrefixOf? (no.toList ++ rest) = none) :
    (choose yes no).run ((if choice then yes else no).toList ++ rest) =
      some (decide choice, rest) := by
  -- The second word is only tried if the first one does not stand there.
  by_cases made : choice
  · simp [choose, StateT.run, isPrefixOf?_append, made]
  · simp [choose, StateT.run, isPrefixOf?_append, made, other made]

/-- Characters that pass a test are read if the next one does not. -/
theorem span_run {test : Char → Bool} {word : List Char} (rest : List Char)
    (all : ∀ c ∈ word, test c = true) (ends : ∀ c ∈ rest.head?, test c = false) :
    (span test).run (word ++ rest) = some (word, rest) := by
  -- All of the word is taken, and nothing of what stands behind it.
  simp only [StateT.run, span, List.takeWhile_append_of_pos all, List.dropWhile_append_of_pos all]
  cases rest with
  | nil => simp
  | cons c rest => simp [ends c rfl]

/-- A number is read where it stands, unless another digit follows. -/
theorem number_run (n : Nat) (rest : List Char) (ends : ∀ c ∈ rest.head?, c.isDigit = false) :
    number.run (n.repr.toList ++ rest) = some (n, rest) := by
  -- All digits are read, and none of what follows them.
  have digits : ∀ c ∈ Nat.toDigits 10 n, c.isDigit = true := fun c member =>
    Nat.isDigit_of_mem_toDigits (by omega) (by omega) member
  rw [Nat.toList_repr, number, StateT.run_bind, span_run rest digits ends]
  simp [numeral_toDigits, Nat.toDigits_ne_nil]

/-- A code point is read where it stands. -/
theorem codePoint_run (c : Char) (rest : List Char) :
    codePoint.run ("\x7b".toList ++ Nat.toDigits 16 c.toNat ++ "\x7d".toList ++ rest) =
      some (c, rest) := by
  -- No digit is a brace.
  have inside : ∀ d ∈ Nat.toDigits 16 c.toNat, decide (d ≠ '\x7d') = true :=
    Text.forall_mem_toDigits (by decide) (by decide) c.toNat
  have digits := span_run ("\x7d".toList ++ rest) inside (by rintro d ⟨⟩; rfl)
  simp only [codePoint, List.append_assoc, StateT.run_bind, expect_run, digits, Option.bind_eq_bind,
    Option.bind_some, StateT.run_pure]
  rw [numeral_toDigits (by omega) (by omega), Char.ofNat_toNat]
  rfl

/-- A symbol is read where it stands, whatever follows. -/
theorem symbol_run (s : Symbol) (rest : List Char) :
    symbol.run (s.text.toList ++ rest) = some (s, rest) := by
  -- What is written for a character begins with a backslash or is a letter other than epsilon.
  cases s with
  | epsilon => rfl
  | char c =>
    have form := Text.escapes_escape c
    change symbol.run ((Text.escape c).toList ++ rest) = _
    generalize (Text.escape c).toList = text at form
    cases form with
    | @short letter named =>
      have letters : shortForms.all fun pair => shortForms.lookup pair.1 = some pair.2 := by decide
      have found : shortForms.lookup letter = some c :=
        of_decide_eq_true (List.all_eq_true.mp letters _ named)
      have read : escaped.run (letter :: rest) = some (c, rest) := by
        simp [StateT.run, escaped, found]
      exact (StateT.run_map ..).trans (congrArg _ read)
    | plain readable quotes escapes =>
      have other : c ≠ 'ε' := by
        rintro rfl
        exact absurd readable.2 (by decide)
      simp only [List.cons_append, List.nil_append, StateT.run]
      unfold symbol
      split <;> simp_all
    | code =>
      -- No short form begins with the letter that stands in front of a code point.
      have read : escaped.run ("u\x7b".toList ++ Nat.toDigits 16 c.toNat ++ "\x7d".toList ++ rest) =
          some (c, rest) := codePoint_run c rest
      exact (StateT.run_map ..).trans (congrArg _ read)

end Primitives

section Repetition

variable {α β : Type} {item : Reader α} {write : β → List Char} {value : β → α}

/-- Items are read one after the other if each is read in front of what may follow it. -/
theorem many_run (Fits : List Char → Prop) (rest : List Char)
    (reads : ∀ b rest, Fits rest → item.run (write b ++ rest) = some (value b, rest))
    (filled : ∀ b, write b ≠ []) (onward : ∀ b rest, Fits (write b ++ rest)) (fits : Fits rest)
    (ends : item.run rest = none) (items : List β) :
    (many item).run (items.flatMap write ++ rest) = some (items.map value, rest) := by
  -- Reading goes on as long as there are items, so the induction is on what has been written.
  refine congrArg some ?_
  induction items with
  | nil =>
    rw [List.flatMap_nil, List.nil_append, manyFrom, ends]
    rfl
  | cons b items ih =>
    -- What follows an item is another one, or what is left in the end.
    have follows : Fits (items.flatMap write ++ rest) := by
      cases items with
      | nil => exact fits
      | cons c items =>
        rw [List.flatMap_cons, List.append_assoc]
        exact onward c _
    have shorter : (items.flatMap write ++ rest).length <
        (write b ++ (items.flatMap write ++ rest)).length := by
      have taken := List.length_pos_iff.mpr (filled b)
      simp only [List.length_append]
      omega
    rw [List.flatMap_cons, List.append_assoc, manyFrom, reads b _ follows]
    simp only [if_pos shorter, ih]
    rfl

/-- A text is read if nothing is left of it. -/
theorem readAll_eq {reader : Reader α} {text : String} {a : α}
    (read : reader.run text.toList = some (a, [])) : readAll reader text = some a := by
  rw [readAll, read]

end Repetition

end Reader

end PatternAutomata
