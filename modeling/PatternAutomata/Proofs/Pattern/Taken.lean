import PatternAutomata.Proofs.Pattern.Reading
import PatternAutomata.Proofs.Pattern.Token

/-! What every token of a text preserves holds of the reading once the text has been taken in. -/

namespace PatternAutomata

open Outcome PlacedToken

/-- A text is written for a token. -/
inductive WrittenFor : List Char → Token → Prop where
  /-- A plain character is written for itself. -/
  | plain {c : Char} (plain : IsPlain c) : WrittenFor [c] (.literal c)
  /-- Any character is written behind a backslash. -/
  | escaped (c : Char) : WrittenFor ['\\', c] (.literal c)
  /-- The beginning of a group is written as such. -/
  | opening : WrittenFor ['('] .opening
  /-- The end of a group is written as such. -/
  | closing : WrittenFor [')'] .closing
  /-- A bar is written for a union. -/
  | union : WrittenFor ['|'] (.operator .union)
  /-- An asterisk is written for a star. -/
  | star : WrittenFor ['*'] (.operator .star)
  /-- A plus is written for itself. -/
  | plus : WrittenFor ['+'] (.operator .plus)

/-- A character that does not escape is written for its token. -/
theorem writtenFor_ofChar {c : Char} (ordinary : c ≠ '\\') : WrittenFor [c] (Token.ofChar c) := by
  by_cases plain : IsPlain c
  · rw [plain.ofChar]
    exact WrittenFor.plain plain
  · -- The other characters are known one by one.
    have listed : c ∈ ['(', ')', '|', '*', '+', '\\'] := Classical.not_not.mp plain
    simp only [List.mem_cons, List.not_mem_nil, or_false] at listed
    rcases listed with same | same | same | same | same | same
    · subst same
      exact WrittenFor.opening
    · subst same
      exact WrittenFor.closing
    · subst same
      exact WrittenFor.union
    · subst same
      exact WrittenFor.star
    · subst same
      exact WrittenFor.plus
    · exact absurd same ordinary

namespace Reading

variable {σ : Type} [OperandStack σ]

/--
A token that stands behind a text, with the concatenation in front of it, preserves an invariant.

The invariant may speak of the text and of whether an operand ends with it.
-/
def Preserves (Inv : List Char → Bool → Reading σ → Prop) : Prop :=
  ∀ before ended x text placed y, Inv before ended x → WrittenFor text placed.token →
    placed.position = before.length → (joinedAfter ended [placed]).foldlM step x = .ok y →
    Inv (before ++ text) placed.token.endsOperand y

variable {Inv : List Char → Bool → Reading σ → Prop}

/-- A token preserves an invariant, so a text does if what stands behind the token does. -/
theorem Preserves.cons (preserves : Preserves Inv) {before text rest : List Char} {ended : Bool}
    {placed : PlacedToken} {later : List PlacedToken} {x y : Reading σ} (holds : Inv before ended x)
    (form : WrittenFor text placed.token) (place : placed.position = before.length)
    (ran : (joinedAfter ended (placed :: later)).foldlM step x = .ok y)
    (onward : ∀ z, Inv (before ++ text) placed.token.endsOperand z →
      (joinedAfter placed.token.endsOperand later).foldlM step z = .ok y →
      Inv (before ++ text ++ rest) (endsAfter placed.token.endsOperand later) y) :
    Inv (before ++ (text ++ rest)) (endsAfter ended (placed :: later)) y := by
  -- Whether a concatenation stands in front of a token depends only on what comes before it.
  have split : joinedAfter ended (placed :: later) =
      joinedAfter ended [placed] ++ joinedAfter placed.token.endsOperand later :=
    joinedAfter_append ended [placed] later
  rw [split, List.foldlM_append] at ran
  obtain ⟨z, first, second⟩ := bind_eq_ok.mp ran
  rw [← List.append_assoc]
  exact onward z (preserves before ended x text placed z holds form place first) second

/-- What every token preserves is preserved by a text if all its tokens are taken in. -/
theorem Preserves.text (preserves : Preserves Inv) {position : Nat} {rest : List Char}
    {tokens : List PlacedToken} (apart : written position rest = .ok tokens) {before : List Char}
    (place : position = before.length) {ended : Bool} {x y : Reading σ} (holds : Inv before ended x)
    (ran : (joinedAfter ended tokens).foldlM step x = .ok y) :
    Inv (before ++ rest) (endsAfter ended tokens) y := by
  fun_induction written position rest generalizing tokens before ended x with
  | case1 =>
    cases apart
    cases ran
    rw [List.append_nil]
    exact holds
  | case2 => cases apart
  | case3 position c rest ih =>
    -- A backslash and the character behind it are one token.
    obtain ⟨later, behind, whole⟩ := map_eq_ok.mp apart
    subst whole
    exact preserves.cons holds (WrittenFor.escaped c) place ran fun z holds ran =>
      ih behind (by simp [place]) holds ran
  | case4 position c rest alone behindEscape ih =>
    obtain ⟨later, behind, whole⟩ := map_eq_ok.mp apart
    subst whole
    have ordinary : c ≠ '\\' := ne_escape_of_rest alone behindEscape
    exact preserves.cons holds (writtenFor_ofChar ordinary) place ran fun z holds ran =>
      ih behind (by simp [place]) holds ran

/-- What every token preserves holds when all is settled that a pattern has left. -/
theorem Preserves.ofPattern (preserves : Preserves Inv) {initial settled : σ}
    (holds : Inv [] false ⟨initial, []⟩) {pattern : List Char}
    (read : ofPattern initial pattern = .ok settled) :
    pattern ≠ [] ∧ ∃ ended x, Inv pattern ended x ∧ finish x.pending x.operands = .ok settled := by
  cases pattern with
  | nil => cases read
  | cons c rest =>
    refine ⟨List.cons_ne_nil c rest, ?_⟩
    rw [ofPattern_cons] at read
    obtain ⟨tokens, apart, read⟩ := bind_eq_ok.mp read
    -- Tokens are taken apart, joined, and then taken in one by one.
    obtain ⟨written, apart, joins⟩ := map_eq_ok.mp apart
    rw [← joins, joined_eq] at read
    obtain ⟨x, ran, finished⟩ := bind_eq_ok.mp read
    exact ⟨_, x, preserves.text apart rfl holds ran, finished⟩

end Reading

end PatternAutomata
