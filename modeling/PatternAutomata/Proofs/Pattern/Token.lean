import PatternAutomata.Pattern.Grammar
import PatternAutomata.Pattern.Token
import PatternAutomata.Proofs.Outcome

/-! Tokens of texts that follow each other, with the concatenations between them. -/

namespace PatternAutomata

/-- A plain character writes itself. -/
theorem IsPlain.ofChar {c : Char} (plain : IsPlain c) : Token.ofChar c = .literal c := by
  -- None of the characters that write something else is plain.
  unfold IsPlain at plain
  unfold Token.ofChar
  split <;> simp_all

/-- A plain character does not escape. -/
theorem IsPlain.ne_escape {c : Char} (plain : IsPlain c) : c ≠ '\\' := by
  intro escape
  exact plain (by simp [escape])

namespace PlacedToken

/-- Puts concatenations between tokens, and in front of them if an operand has ended there. -/
def joinedAfter (ended : Bool) : List PlacedToken → List PlacedToken
  | [] => []
  | placed :: rest =>
    -- A concatenation takes the position of the operand that begins.
    (if ended ∧ placed.token.beginsOperand then [⟨.operator .concat, placed.position⟩] else []) ++
      placed :: joinedAfter placed.token.endsOperand rest

/-- Tells whether an operand ends where some tokens end. -/
def endsAfter (ended : Bool) : List PlacedToken → Bool
  | [] => ended
  | placed :: rest => endsAfter placed.token.endsOperand rest

/-- Nothing precedes the first token of a pattern. -/
theorem joined_eq (tokens : List PlacedToken) : joined tokens = joinedAfter false tokens := by
  -- Behind its first token a list is joined according to that token.
  have general : ∀ (rest : List PlacedToken) (left : PlacedToken),
      joined (left :: rest) = left :: joinedAfter left.token.endsOperand rest := by
    intro rest
    induction rest with
    | nil =>
      intro left
      rfl
    | cons right rest ih =>
      intro left
      rw [joined, ih right, joinedAfter]
      split
      · rfl
      · rfl
  cases tokens with
  | nil => rfl
  | cons first rest =>
    rw [general rest first]
    simp [joinedAfter]

/-- The tokens of a pattern are those that are written, joined from its beginning. -/
theorem ofPattern_of_written {pattern : List Char} {tokens : List PlacedToken}
    (apart : written 0 pattern = .ok tokens) :
    ofPattern pattern = .ok (joinedAfter false tokens) := by
  -- Joining looks at pairs of tokens, or else at the last one before.
  rw [ofPattern, apart, ← joined_eq]
  rfl

/-- Lists of tokens are joined one after the other. -/
theorem joinedAfter_append (ended : Bool) (first second : List PlacedToken) :
    joinedAfter ended (first ++ second) =
      joinedAfter ended first ++ joinedAfter (endsAfter ended first) second := by
  -- The second list needs to know only whether an operand has ended in front of it.
  induction first generalizing ended with
  | nil => rfl
  | cons placed rest ih =>
    rw [List.cons_append, joinedAfter, ih, joinedAfter, endsAfter]
    simp

/-- No concatenation is put in front of a token that begins no operand. -/
theorem joinedAfter_singleton {placed : PlacedToken} (alone : placed.token.beginsOperand = false)
    (ended : Bool) : joinedAfter ended [placed] = [placed] := by
  simp [joinedAfter, alone]

/-- An operand ends after two lists of tokens if one ends after the second. -/
theorem endsAfter_append (ended : Bool) (first second : List PlacedToken) :
    endsAfter ended (first ++ second) = endsAfter (endsAfter ended first) second := by
  -- By induction over the first tokens, of which only the last one matters.
  induction first generalizing ended with
  | nil => rfl
  | cons placed rest ih => exact ih _

/-- A character that does not escape writes a token of its own. -/
theorem written_of_ne {c : Char} (ordinary : c ≠ '\\') (position : Nat) (rest : List Char) :
    written position (c :: rest) =
      (written (position + 1) rest).map (⟨.ofChar c, position⟩ :: ·) := by
  -- The cases of a backslash are excluded.
  rw [written]
  · intro escape
    exact absurd escape ordinary
  · intro _ _ escape
    exact absurd escape ordinary

/-- A character escapes unless it is neither the last one nor has another one behind it. -/
theorem ne_escape_of_rest {c : Char} {rest : List Char} (alone : c = '\\' → rest = [] → False)
    (behindEscape : ∀ d later, c = '\\' → rest = d :: later → False) : c ≠ '\\' := by
  intro escape
  -- A backslash either stands at the end or escapes what follows it.
  cases rest with
  | nil => exact alone escape rfl
  | cons d later => exact behindEscape d later escape rfl

/-- A text that can be taken apart is taken apart in the same way in front of another text. -/
theorem written_append {position : Nat} {first : List Char} {tokens : List PlacedToken}
    (apart : written position first = .ok tokens) (second : List Char) :
    written position (first ++ second) =
      (written (position + first.length) second).map (tokens ++ ·) := by
  -- Nothing of the first text waits for the second one, since no backslash dangles.
  fun_induction written position first generalizing tokens with
  | case1 position =>
    cases apart
    show written position second = (written position second).map ([] ++ ·)
    cases written position second <;> rfl
  | case2 => cases apart
  | case3 position c rest ih =>
    obtain ⟨later, behind, whole⟩ := Outcome.map_eq_ok.mp apart
    subst whole
    show (written (position + 2) (rest ++ second)).map _ = _
    rw [ih behind, Outcome.map_map, List.length_cons, List.length_cons, Nat.add_assoc,
      Nat.add_comm 2]
    rfl
  | case4 position c rest alone behindEscape ih =>
    obtain ⟨later, behind, whole⟩ := Outcome.map_eq_ok.mp apart
    subst whole
    have ordinary : c ≠ '\\' := ne_escape_of_rest alone behindEscape
    rw [List.cons_append, written_of_ne ordinary, ih behind, Outcome.map_map, List.length_cons,
      Nat.add_assoc, Nat.add_comm 1]
    rfl

end PlacedToken

end PatternAutomata
