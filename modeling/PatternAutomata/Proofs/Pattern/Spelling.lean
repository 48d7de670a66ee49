import Mathlib.Data.List.Induction
import PatternAutomata.Pattern.Spelling
import PatternAutomata.Proofs.Pattern.Failing

/-! The tokens of a pattern spell it, with concatenations exactly where they are implied. -/

namespace PatternAutomata

open Outcome

namespace Token

/-- Two tokens are joined exactly if one ends an operand and the other begins one. -/
theorem joins_iff {left right : Token} :
    left.Joins right ↔ left.endsOperand = true ∧ right.beginsOperand = true := by
  -- The lists of tokens are those that the tests go through.
  have ends : left.endsOperand = true ↔ (∃ c, left = literal c) ∨ left = closing ∨
      left = operator .star ∨ left = operator .plus := by
    cases left with
    | operator operator => cases operator <;> simp [endsOperand]
    | _ => simp [endsOperand]
  have begins : right.beginsOperand = true ↔ (∃ c, right = literal c) ∨ right = opening := by
    cases right <;> simp [beginsOperand]
  rw [Joins, ends, begins]

end Token

/-- No text is written for a concatenation. -/
theorem WrittenFor.ne_concat {text : List Char} {token : Token} (form : WrittenFor text token) :
    token ≠ .operator .concat := by
  cases form <;> simp

namespace PlacedToken

variable {pattern before text word rest : List Char} {start : Nat}
  {tokens first second : List PlacedToken} {placed : PlacedToken}

section Pass

/-- Only the last of some tokens is looked at when one more is put behind them. -/
theorem push_eq (tokens : List PlacedToken) (placed : PlacedToken) :
    push tokens placed = tokens ++ joinedAfter (endsAfter false tokens) [placed] := by
  rcases List.eq_nil_or_concat tokens with rfl | ⟨front, last, rfl⟩
  · rfl
  · -- The tokens in front of the last one do not matter.
    have ends : endsAfter false (front ++ [last]) = last.token.endsOperand := by
      rw [endsAfter_append]
      rfl
    rw [List.concat_eq_append, push, List.getLast?_concat, ends]
    by_cases joins : last.token.endsOperand = true ∧ placed.token.beginsOperand = true
    · simp [joinedAfter, joins]
    · simp only [joinedAfter, if_neg joins]
      rfl

/-- A single pass finds the tokens that are written, and joins them to those found before. -/
theorem scan_eq (tokens : List PlacedToken) (position : Nat) (text : List Char) :
    scan tokens position text = (written position text).map fun later =>
      tokens ++ joinedAfter (endsAfter false tokens) later := by
  -- What is put behind a token is joined to it, whether or not it was joined itself.
  have onward : ∀ (tokens : List PlacedToken) (placed : PlacedToken) (later : List PlacedToken),
      push tokens placed ++ joinedAfter (endsAfter false (push tokens placed)) later =
        tokens ++ joinedAfter (endsAfter false tokens) (placed :: later) := by
    intro tokens placed later
    have split : joinedAfter (endsAfter false tokens) (placed :: later) =
        joinedAfter (endsAfter false tokens) [placed] ++
          joinedAfter placed.token.endsOperand later :=
      joinedAfter_append _ [placed] later
    have ends : endsAfter false (push tokens placed) = placed.token.endsOperand := by
      rw [push_eq, endsAfter_append, joinedAfter, endsAfter_append]
      rfl
    rw [ends, split, push_eq, List.append_assoc]
  fun_induction scan tokens position text with
  | case1 => simp [written, Except.map, joinedAfter]
  | case2 => rfl
  | case3 tokens position c rest ih =>
    rw [ih, written, map_map]
    simp only [onward]
  | case4 tokens position c rest alone behindEscape ih =>
    rw [ih, written_of_ne (ne_escape_of_rest alone behindEscape), map_map]
    simp only [onward]

end Pass

section Text

/-- A literal behind a backslash is spelled with the backslash. -/
theorem spelling_escaped (before rest : List Char) (c : Char) :
    spelling (before ++ '\\' :: c :: rest) ⟨.literal c, before.length⟩ = ['\\', c] := by
  simp [spelling]

/-- What a character writes that does not escape is spelled as this character. -/
theorem spelling_ofChar {c : Char} (ordinary : c ≠ '\\') (before rest : List Char) :
    spelling (before ++ c :: rest) ⟨.ofChar c, before.length⟩ = [c] := by
  -- A literal is not escaped there, since the character at its position is itself.
  have unescaped : (before ++ c :: rest)[before.length]? ≠ some '\\' := by simpa using ordinary
  have form := writtenFor_ofChar ordinary
  generalize token_eq : Token.ofChar c = token at form
  cases form with
  | plain => simp [spelling, ordinary]
  | _ => simp [spelling, Operator.char?]

/-- Some tokens of a pattern spell a text of it that begins at some position. -/
structure Spells (pattern : List Char) (start : Nat) (tokens : List PlacedToken)
    (text : List Char) : Prop where
  /-- Each token is spelled as it may be written. -/
  form : ∀ placed ∈ tokens, WrittenFor (spelling pattern placed) placed.token
  /-- What the tokens spell one after the other is the text. -/
  spelled : tokens.flatMap (spelling pattern) = text
  /-- Each token stands where the text of those in front of it ends. -/
  position : ∀ front placed behind, tokens = front ++ placed :: behind →
    placed.position = start + (front.flatMap (spelling pattern)).length

namespace Spells

/-- No tokens spell no text. -/
theorem nil (pattern : List Char) (start : Nat) : Spells pattern start [] [] where
  form _ absent := absurd absent List.not_mem_nil
  spelled := rfl
  position front placed behind whole := by simp at whole

/-- One more token is spelled in front of others. -/
theorem cons (later : Spells pattern (start + word.length) tokens text)
    (form : WrittenFor word placed.token) (place : placed.position = start)
    (spelled : spelling pattern placed = word) :
    Spells pattern start (placed :: tokens) (word ++ text) where
  form other member := by
    rcases List.mem_cons.mp member with same | member
    · rw [same, spelled]
      exact form
    · exact later.form other member
  spelled := by rw [List.flatMap_cons, spelled, later.spelled]
  -- Tokens behind the first one stand as far behind it as the text before them is long.
  position front other behind whole := by
    cases front with
    | nil =>
      cases whole
      simpa using place
    | cons first front =>
      cases whole
      rw [later.position front other behind rfl, List.flatMap_cons, spelled, List.length_append]
      omega

/-- The tokens that are written in a text spell the text. -/
theorem of_written (apart : written before.length text = .ok tokens) :
    Spells (before ++ text) before.length tokens text := by
  -- What has been read moves to the front, and the pattern stays as it is.
  generalize place : before.length = position at apart
  fun_induction written position text generalizing before tokens with
  | case1 =>
    cases apart
    exact nil _ _
  | case2 => cases apart
  | case3 position c rest ih =>
    obtain ⟨later, behind, rfl⟩ := map_eq_ok.mp apart
    subst place
    have split : before ++ '\\' :: c :: rest = before ++ ['\\', c] ++ rest := by simp
    have next := @ih (before ++ ['\\', c]) later (by simp) behind
    rw [← split] at next
    exact next.cons (.escaped c) rfl (spelling_escaped before rest c)
  | case4 position c rest alone behindEscape ih =>
    obtain ⟨later, behind, rfl⟩ := map_eq_ok.mp apart
    subst place
    have ordinary : c ≠ '\\' := ne_escape_of_rest alone behindEscape
    have split : before ++ c :: rest = before ++ [c] ++ rest := by simp
    have next := @ih (before ++ [c]) later (by simp) behind
    rw [← split] at next
    exact next.cons (writtenFor_ofChar ordinary) rfl (spelling_ofChar ordinary before rest)

/-- The tokens at the beginning spell a text of their own. -/
theorem of_append (spells : Spells pattern start (first ++ second) text) :
    Spells pattern start first (first.flatMap (spelling pattern)) where
  form placed member := spells.form placed (List.mem_append_left _ member)
  spelled := rfl
  -- What a token stands behind does not depend on what follows it.
  position front placed behind whole :=
    spells.position front placed (behind ++ second) (by simp [whole])

/-- The last token is written behind what the others spell. -/
theorem snoc_cases (spells : Spells pattern 0 (tokens ++ [placed]) text) :
    ∃ before, Spells pattern 0 tokens before ∧ before ++ spelling pattern placed = text ∧
      placed.position = before.length ∧ WrittenFor (spelling pattern placed) placed.token := by
  -- The last token stands behind the text of all others.
  refine ⟨tokens.flatMap (spelling pattern), spells.of_append, ?_, ?_, ?_⟩
  · rw [← spells.spelled]
    simp
  · rw [spells.position tokens placed [] rfl, Nat.zero_add]
  · exact spells.form placed (by simp)

/-- No escape dangles behind a token. -/
theorem not_dangles (spells : Spells pattern 0 tokens text) : ¬ Dangles text := by
  -- The induction is on the tokens from their end, where the last one is written.
  induction tokens using List.reverseRecOn generalizing text with
  | nil =>
    rw [← spells.spelled]
    exact not_dangles_nil
  | append_singleton tokens placed ih =>
    obtain ⟨before, earlier, rfl, -, form⟩ := spells.snoc_cases
    exact form.not_dangles (ih earlier)

/-- A special character without protection is a token, and its token stands nowhere else. -/
theorem mem_iff_unescaped (spells : Spells pattern 0 tokens text) {c : Char}
    (special : c ∈ ['(', ')', '|', '*', '+']) (position : Nat) :
    ⟨.ofChar c, position⟩ ∈ tokens ↔ Unescaped text position c := by
  have ordinary : c ≠ '\\' := by
    rintro rfl
    simp at special
  -- By induction from the end, where a token is the last one or one before it.
  induction tokens using List.reverseRecOn generalizing text with
  | nil =>
    rw [← spells.spelled]
    simp [Unescaped]
  | append_singleton tokens placed ih =>
    obtain ⟨before, earlier, rfl, place, form⟩ := spells.snoc_cases
    have others : ⟨.ofChar c, position⟩ ∈ tokens ↔ Unescaped before position c := ih earlier
    have last : ⟨.ofChar c, position⟩ = placed ↔
        position = before.length ∧ placed.token = .ofChar c := by
      rw [← place]
      cases placed
      simp [and_comm, eq_comm]
    rw [form.unescaped_iff earlier.not_dangles ordinary, form.eq_singleton_iff special,
      List.mem_append, List.mem_singleton, others, last]

end Spells

end Text

section Between

/-- Leaving the concatenations out of joined tokens gives the tokens back. -/
theorem filter_joinedAfter (all : ∀ placed ∈ tokens, placed.IsWritten) (ended : Bool) :
    (joinedAfter ended tokens).filter (·.IsWritten) = tokens := by
  -- In front of each token there is nothing else, or a concatenation, which is left out.
  induction tokens generalizing ended with
  | nil => rfl
  | cons placed rest ih =>
    obtain ⟨first, later⟩ := List.forall_mem_cons.mp all
    have implied : ¬ IsWritten ⟨.operator .concat, placed.position⟩ := fun other => other rfl
    rw [joinedAfter, List.filter_append, List.filter_cons_of_pos (by simpa using first), ih later]
    split <;> simp [implied]

/-- Joined tokens end with the last of the tokens. -/
theorem getLast?_joinedAfter (ended : Bool) (tokens : List PlacedToken) :
    (joinedAfter ended tokens).getLast? = tokens.getLast? := by
  -- A concatenation is only implied in front of a token.
  induction tokens generalizing ended with
  | nil => rfl
  | cons placed rest ih =>
    rw [joinedAfter, List.getLast?_append, List.getLast?_cons, ih, List.getLast?_cons]
    rfl

/-- What stands in front of the first token that is written is found in one place. -/
theorem eq_of_append_written {first second behind later : List PlacedToken}
    {placed other : PlacedToken} (implied : ∀ p ∈ first, ¬ p.IsWritten)
    (implied' : ∀ p ∈ second, ¬ p.IsWritten) (written : placed.IsWritten)
    (written' : other.IsWritten) (same : first ++ placed :: behind = second ++ other :: later) :
    first = second ∧ placed = other ∧ behind = later := by
  -- A token that is written on one side only would have to be one that is not.
  induction first generalizing second with
  | nil =>
    cases second with
    | nil =>
      cases same
      exact ⟨rfl, rfl, rfl⟩
    | cons p second =>
      cases same
      exact absurd written (implied' placed List.mem_cons_self)
  | cons p first ih =>
    cases second with
    | nil =>
      cases same
      exact absurd written' (implied other List.mem_cons_self)
    | cons q second =>
      obtain ⟨rfl, behind⟩ := List.cons.inj same
      obtain ⟨_, implied⟩ := List.forall_mem_cons.mp implied
      obtain ⟨_, implied'⟩ := List.forall_mem_cons.mp implied'
      obtain ⟨rfl, rest⟩ := ih implied implied' behind
      exact ⟨rfl, rest⟩

/-- Between tokens that follow each other there is a concatenation exactly if it is implied. -/
theorem between_joinedAfter {left x y : PlacedToken} {rest front between behind : List PlacedToken}
    (all : ∀ placed ∈ left :: rest, placed.IsWritten)
    (whole : left :: joinedAfter left.token.endsOperand rest =
      front ++ x :: (between ++ y :: behind))
    (written : x.IsWritten) (written' : y.IsWritten) (implied : ∀ p ∈ between, ¬ p.IsWritten) :
    between = if x.token.endsOperand ∧ y.token.beginsOperand then
      [⟨.operator .concat, y.position⟩] else [] := by
  -- The two tokens are the first two, or are found behind the first one.
  induction rest generalizing left front with
  | nil =>
    -- There are not two tokens here.
    have short := congrArg List.length whole
    simp [joinedAfter] at short
    omega
  | cons right rest ih =>
    obtain ⟨_, all⟩ := List.forall_mem_cons.mp all
    have first : right.IsWritten := all right List.mem_cons_self
    rw [joinedAfter] at whole
    generalize put : (if left.token.endsOperand ∧ right.token.beginsOperand then
      [PlacedToken.mk (.operator .concat) right.position] else []) = concats at whole
    have unwritten : ∀ p ∈ concats, ¬ p.IsWritten := by
      rw [← put]
      split <;> simp [IsWritten]
    cases front with
    | nil =>
      obtain ⟨rfl, split⟩ := List.cons.inj whole
      obtain ⟨rfl, rfl, -⟩ := eq_of_append_written unwritten implied first written' split
      exact put.symm
    | cons p front =>
      -- A concatenation behind the first token is in front of both.
      obtain ⟨-, split⟩ := List.cons.inj whole
      rcases List.append_eq_append_iff.mp split with
        ⟨front, rfl, later⟩ | ⟨later, rfl, same⟩
      · exact ih all later
      · cases later with
        | nil => exact @ih right [] all same.symm
        | cons p later =>
          obtain ⟨rfl, -⟩ := List.cons.inj same
          exact absurd written (unwritten x (by simp))

end Between

/-- Tokens spell a pattern, and concatenations stand among them exactly where they are implied. -/
structure Tokenizes (pattern : List Char) (tokens : List PlacedToken) : Prop where
  /-- The tokens that are written spell the pattern. -/
  spells : Spells pattern 0 (tokens.filter (·.IsWritten)) pattern
  /-- Two of them that follow each other have one concatenation between them, or nothing. -/
  between : ∀ front x concats y behind, tokens = front ++ x :: (concats ++ y :: behind) →
    x.IsWritten → y.IsWritten → (∀ p ∈ concats, ¬ p.IsWritten) →
      (x.token.Joins y.token ∧ concats = [⟨.operator .concat, y.position⟩]) ∨
        (¬ x.token.Joins y.token ∧ concats = [])
  /-- The first token is written. -/
  first : ∀ placed ∈ tokens.head?, placed.IsWritten
  /-- The last token is written. -/
  last : ∀ placed ∈ tokens.getLast?, placed.IsWritten

/-- The tokens of a pattern are what they should be if they are joined. -/
theorem tokenizes_joinedAfter (apart : written 0 pattern = .ok tokens) :
    Tokenizes pattern (joinedAfter false tokens) := by
  have spells : Spells pattern 0 tokens pattern := @Spells.of_written [] _ _ apart
  have all : ∀ placed ∈ tokens, placed.IsWritten := fun placed member =>
    (spells.form placed member).ne_concat
  -- One part for each of the spelling, the places in between, the first token and the last one.
  refine ⟨by rwa [filter_joinedAfter all], ?_, ?_, ?_⟩
  · intro front x concats y behind whole written written' implied
    cases tokens with
    | nil => simp [joinedAfter] at whole
    | cons left rest =>
      rw [between_joinedAfter all whole written written' implied, Token.joins_iff]
      by_cases joins : x.token.endsOperand ∧ y.token.beginsOperand
      · exact Or.inl ⟨joins, if_pos joins⟩
      · exact Or.inr ⟨joins, if_neg joins⟩
  · cases tokens with
    | nil => simp [joinedAfter]
    | cons left rest => simpa [joinedAfter] using all left List.mem_cons_self
  · rw [getLast?_joinedAfter]
    exact fun placed final => all placed (List.mem_of_getLast? final)

/-- The tokens of a pattern are what they should be. -/
theorem tokenizes_of_ofPattern (found : ofPattern pattern = .ok tokens) :
    Tokenizes pattern tokens := by
  -- Tokens are taken apart first, and then joined.
  obtain ⟨plain, apart, rfl⟩ := map_eq_ok.mp found
  rw [joined_eq]
  exact tokenizes_joinedAfter apart

/--
A pattern cannot be taken apart exactly if an escape dangles at its end.

Otherwise its tokens spell the pattern from its beginning to its end, and a concatenation stands
between two of them exactly if one ends an operand and the next one begins another.
A single pass that looks at the last token only finds the same tokens, and fails alike.
-/
theorem ofPattern_tokenizes (pattern : List Char) :
    ((∃ error, ofPattern pattern = .error error) ↔ Dangles pattern) ∧
      (∀ tokens, ofPattern pattern = .ok tokens → Tokenizes pattern tokens) ∧
      scan [] 0 pattern = ofPattern pattern := by
  -- Failing in both directions, then what succeeds, and then the other way to go through a text.
  refine ⟨⟨?_, ?_⟩, ?_, ?_⟩
  · rintro ⟨error, failed⟩
    refine Decidable.byContradiction fun whole => ?_
    obtain ⟨tokens, apart⟩ := exists_written whole
    cases (ofPattern_of_written apart).symm.trans failed
  · intro dangles
    obtain ⟨last, -, failed⟩ := written_of_dangles dangles
    exact ⟨_, map_eq_error.mpr failed⟩
  · exact fun tokens found => tokenizes_of_ofPattern found
  · rw [scan_eq, ofPattern, endsAfter]
    simp only [List.nil_append, ← joined_eq]

/-- An escaped operator is joined like a literal, and three backslashes leave one that dangles. -/
theorem ofPattern_tokenizes_escapes :
    Tokenizes "a\\*(b|ε)+\\\\".toList
      [⟨.literal 'a', 0⟩, ⟨.operator .concat, 1⟩, ⟨.literal '*', 1⟩, ⟨.operator .concat, 3⟩,
        ⟨.opening, 3⟩, ⟨.literal 'b', 4⟩, ⟨.operator .union, 5⟩, ⟨.literal 'ε', 6⟩, ⟨.closing, 7⟩,
        ⟨.operator .plus, 8⟩, ⟨.operator .concat, 9⟩, ⟨.literal '\\', 9⟩] ∧
      ∃ error, ofPattern "a\\\\\\".toList = .error error :=
  ⟨(ofPattern_tokenizes _).2.1 _ (by rfl), (ofPattern_tokenizes _).1.2 (by decide)⟩

end PlacedToken

end PatternAutomata
