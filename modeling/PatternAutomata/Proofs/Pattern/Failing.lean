import PatternAutomata.Proofs.Pattern.Nesting

/-! Where reading a pattern fails: at its end, or at a token that stands behind a text. -/

namespace PatternAutomata

open Outcome PlacedToken

/-- What is written for a token is taken apart into this token. -/
theorem WrittenFor.written {text : List Char} {token : Token} (form : WrittenFor text token)
    (position : Nat) : PlacedToken.written position text = .ok [⟨token, position⟩] := by
  cases form with
  -- Only a plain character is told from the signs by what it is not.
  | plain plain =>
    rw [written_of_ne plain.ne_escape, plain.ofChar]
    rfl
  | _ => rfl

/-- A text can be taken apart unless an escape dangles, which is then at the end of the text. -/
theorem PlacedToken.written_cases (position : Nat) (text : List Char) {before : List Char}
    (whole : ¬ Dangles before) :
    (Dangles (before ++ text) ∧ ∃ last, last + 1 = position + text.length ∧
      written position text = .error (.malformed .danglingEscape last)) ∨
    (¬ Dangles (before ++ text) ∧ ∃ tokens, written position text = .ok tokens) := by
  -- Whether an escape dangles depends on what has been read, where none dangles.
  fun_induction written position text generalizing before with
  | case1 =>
    rw [List.append_nil]
    exact Or.inr ⟨whole, [], rfl⟩
  | case2 position => exact Or.inl ⟨(dangles_snoc_escape before).mpr whole, position, rfl, rfl⟩
  | case3 position c rest ih =>
    have split : before ++ '\\' :: c :: rest = before ++ ['\\', c] ++ rest := by simp
    rw [split]
    rcases ih (not_dangles_escaped whole c) with ⟨dangles, last, place, failed⟩ | ⟨ends, _, apart⟩
    · refine Or.inl ⟨dangles, last, ?_, by rw [failed]; rfl⟩
      rw [place, List.length_cons, List.length_cons]
      omega
    · exact Or.inr ⟨ends, _, by rw [apart]; rfl⟩
  | case4 position c rest alone behindEscape ih =>
    rw [List.append_cons]
    rcases ih (not_dangles_snoc before (ne_escape_of_rest alone behindEscape)) with
      ⟨dangles, last, place, failed⟩ | ⟨ends, _, apart⟩
    · refine Or.inl ⟨dangles, last, ?_, by rw [failed]; rfl⟩
      rw [place, List.length_cons]
      omega
    · exact Or.inr ⟨ends, _, by rw [apart]; rfl⟩

/-- A pattern cannot be taken apart if an escape dangles at its end. -/
theorem PlacedToken.written_of_dangles {pattern : List Char} (dangles : Dangles pattern) :
    ∃ last, last + 1 = pattern.length ∧
      written 0 pattern = .error (.malformed .danglingEscape last) := by
  -- Taking apart fails exactly where an escape dangles.
  rcases written_cases 0 pattern not_dangles_nil with
    ⟨_, last, place, failed⟩ | ⟨ends, _⟩
  · exact ⟨last, by simpa using place, failed⟩
  · exact absurd dangles ends

/-- A pattern can be taken apart if no escape dangles at its end. -/
theorem PlacedToken.exists_written {pattern : List Char} (whole : ¬ Dangles pattern) :
    ∃ tokens, written 0 pattern = .ok tokens := by
  -- Taking apart fails exactly where an escape dangles.
  rcases written_cases 0 pattern not_dangles_nil with
    ⟨dangles, _⟩ | ⟨_, apart⟩
  · exact absurd dangles whole
  · exact apart

namespace Reading

variable {σ : Type} [OperandStack σ]

/-- The tokens of a text have been taken in from the beginning of a pattern on. -/
structure Taken (initial : σ) (text : List Char) (tokens : List PlacedToken) (x : Reading σ) :
    Prop where
  /-- These are the tokens of the text. -/
  apart : written 0 text = .ok tokens
  /-- Taking them in, with the concatenations between them, has succeeded. -/
  ran : (joinedAfter false tokens).foldlM step ⟨initial, []⟩ = .ok x

/-- A text has been taken in, and the token that is written behind it cannot be. -/
def FailsAt (initial : σ) (before text : List Char) (error : Error) : Prop :=
  ∃ tokens x placed, Taken initial before tokens x ∧ WrittenFor text placed.token ∧
    placed.position = before.length ∧
    -- An implied concatenation in front of the token may fail in its place.
    (joinedAfter (endsAfter false tokens) [placed]).foldlM step x = .error error

variable {initial : σ} {before text rest pattern : List Char} {tokens : List PlacedToken}
  {placed : PlacedToken} {x y : Reading σ} {error : Error}

/-- At the beginning nothing has been taken in. -/
theorem Taken.nothing (initial : σ) : Taken initial [] [] ⟨initial, []⟩ :=
  ⟨rfl, rfl⟩

/-- The tokens of a text and one more are those of a longer text. -/
theorem Taken.written_snoc (taken : Taken initial before tokens x)
    (form : WrittenFor text placed.token) (place : placed.position = before.length) :
    written 0 (before ++ text) = .ok (tokens ++ [placed]) := by
  -- Positions go on where the text before has ended.
  rw [written_append taken.apart, form.written, Nat.zero_add, ← place]
  rfl

/-- One more token is taken in. -/
theorem Taken.snoc (taken : Taken initial before tokens x) (form : WrittenFor text placed.token)
    (place : placed.position = before.length)
    (ran : (joinedAfter (endsAfter false tokens) [placed]).foldlM step x = .ok y) :
    Taken initial (before ++ text) (tokens ++ [placed]) y where
  apart := taken.written_snoc form place
  -- What is implied between two tokens depends on the last one before.
  ran := by
    rw [joinedAfter_append, List.foldlM_append]
    exact bind_ok taken.ran ran

/-- What every token preserves holds of what has been taken in. -/
theorem Preserves.taken {Inv : List Char → Bool → Reading σ → Prop} (preserves : Preserves Inv)
    (holds : Inv [] false ⟨initial, []⟩) (taken : Taken initial text tokens x) :
    Inv text (endsAfter false tokens) x :=
  -- This is the induction over the text, beginning with no text and no token.
  preserves.text taken.apart rfl holds taken.ran

/-- What holds at the beginning, and is kept by each token, holds of what has been taken in. -/
theorem Taken.induct {P : List Char → List PlacedToken → Reading σ → Prop}
    (nothing : P [] [] ⟨initial, []⟩)
    (snoc : ∀ before tokens x text placed y, Taken initial before tokens x → P before tokens x →
      WrittenFor text placed.token → placed.position = before.length →
      (joinedAfter (endsAfter false tokens) [placed]).foldlM step x = .ok y →
      P (before ++ text) (tokens ++ [placed]) y)
    (taken : Taken initial text tokens x) : P text tokens x := by
  -- A token preserves that the tokens before it have been taken in, and what holds of them.
  have preserves : Preserves fun before ended (x : Reading σ) =>
      ∃ tokens, Taken initial before tokens x ∧ endsAfter false tokens = ended ∧
        P before tokens x := by
    rintro before _ x text placed y ⟨tokens, taken, rfl, holds⟩ form place ran
    refine ⟨tokens ++ [placed], taken.snoc form place ran, ?_, ?_⟩
    · rw [endsAfter_append]
      rfl
    · exact snoc before tokens x text placed y taken holds form place ran
  obtain ⟨tokens', taken', _, holds⟩ :=
    preserves.taken ⟨[], Taken.nothing initial, rfl, nothing⟩ taken
  cases taken'.apart.symm.trans taken.apart
  exact holds

/-- The tokens of a pattern are taken in, and what waits then is settled. -/
theorem ofPattern_eq_of_written (filled : pattern ≠ []) (apart : written 0 pattern = .ok tokens) :
    ofPattern initial pattern = (joinedAfter false tokens).foldlM step ⟨initial, []⟩ >>= fun x =>
      finish x.pending x.operands := by
  -- An empty pattern is refused for a reason of its own.
  cases pattern with
  | nil => exact absurd rfl filled
  | cons c rest =>
    rw [ofPattern_cons, ofPattern_of_written apart]
    rfl

/-- Once a pattern has been taken in, what waits is settled. -/
theorem Taken.ofPattern_eq (taken : Taken initial pattern tokens x) (filled : pattern ≠ []) :
    ofPattern initial pattern = finish x.pending x.operands := by
  -- All tokens have been taken in, and what waits is all that is left to do.
  rw [ofPattern_eq_of_written filled taken.apart, taken.ran]
  rfl

/-- The first of several tokens fails, or it is taken in and the others fail. -/
theorem Taken.failsAt_or_snoc (taken : Taken initial before tokens x)
    (form : WrittenFor text placed.token) (place : placed.position = before.length)
    {later : List PlacedToken}
    (failed : (joinedAfter (endsAfter false tokens) (placed :: later)).foldlM step x =
      .error error) :
    FailsAt initial before text error ∨ ∃ y,
      Taken initial (before ++ text) (tokens ++ [placed]) y ∧
        (joinedAfter (endsAfter false (tokens ++ [placed])) later).foldlM step y =
          .error error := by
  have split := joinedAfter_append (endsAfter false tokens) [placed] later
  rw [List.singleton_append, ← endsAfter_append] at split
  rw [split, List.foldlM_append] at failed
  -- The failure is met at this token, or at a later one.
  rcases bind_eq_error.mp failed with failed | ⟨y, ran, failed⟩
  · exact Or.inl ⟨tokens, x, placed, taken, form, place, failed⟩
  · exact Or.inr ⟨y, taken.snoc form place ran, failed⟩

/-- Where taking in the tokens of a text fails, one of them cannot be taken in. -/
theorem Taken.exists_failsAt (taken : Taken initial before tokens x) {position : Nat}
    (place : position = before.length) {later : List PlacedToken}
    (apart : written position rest = .ok later)
    (failed : (joinedAfter (endsAfter false tokens) later).foldlM step x = .error error) :
    ∃ first text last, first ++ text ++ last = rest ∧
      FailsAt initial (before ++ first) text error := by
  -- The tokens in front of the one that fails are taken in one after the other.
  fun_induction written position rest generalizing later before tokens x with
  | case1 =>
    cases apart
    cases failed
  | case2 => cases apart
  | case3 position c rest ih =>
    obtain ⟨behind, others, whole⟩ := map_eq_ok.mp apart
    subst whole
    rcases taken.failsAt_or_snoc (WrittenFor.escaped c) place failed with fails | ⟨y, taken, failed⟩
    · exact ⟨[], ['\\', c], rest, rfl, by simpa using fails⟩
    · obtain ⟨first, text, last, whole, fails⟩ := ih taken (by simp [place]) others failed
      exact ⟨'\\' :: c :: first, text, last, by simp [← whole], by simpa using fails⟩
  | case4 position c rest alone behindEscape ih =>
    obtain ⟨behind, others, whole⟩ := map_eq_ok.mp apart
    subst whole
    have form := writtenFor_ofChar (ne_escape_of_rest alone behindEscape)
    rcases taken.failsAt_or_snoc form place failed with fails | ⟨y, taken, failed⟩
    · exact ⟨[], [c], rest, rfl, by simpa using fails⟩
    · obtain ⟨first, text, last, whole, fails⟩ := ih taken (by simp [place]) others failed
      exact ⟨c :: first, text, last, by simp [← whole], by simpa using fails⟩

/-- The tokens of a pattern begin with those of a text at its beginning, and with the next one. -/
theorem Taken.exists_later (taken : Taken initial before tokens x)
    (form : WrittenFor text placed.token) (place : placed.position = before.length)
    (whole : ¬ Dangles (before ++ text ++ rest)) :
    ∃ later, written 0 (before ++ text ++ rest) = .ok (tokens ++ [placed] ++ later) := by
  obtain ⟨all, apart⟩ := exists_written whole
  have split := apart
  rw [written_append (taken.written_snoc form place)] at split
  -- Tokens of a longer text begin with those of the shorter one.
  obtain ⟨later, _, same⟩ := map_eq_ok.mp split
  exact ⟨later, same ▸ apart⟩

/-- A pattern cannot be read if one of its tokens cannot be taken in. -/
theorem FailsAt.ofPattern_eq (fails : FailsAt initial before text error)
    (whole : ¬ Dangles (before ++ text ++ rest)) :
    ofPattern initial (before ++ text ++ rest) = .error error := by
  obtain ⟨tokens, x, placed, taken, form, place, failed⟩ := fails
  have filled : before ++ text ++ rest ≠ [] := by simp [form.ne_nil]
  -- What follows the token does not change the tokens in front of it.
  obtain ⟨later, apart⟩ := taken.exists_later form place whole
  rw [ofPattern_eq_of_written filled apart, joinedAfter_append, joinedAfter_append,
    List.foldlM_append, List.foldlM_append, taken.ran, ok_bind, failed]
  rfl

/-- A pattern cannot be read if an escape dangles, whatever else is wrong with it. -/
theorem ofPattern_of_dangles (initial : σ) (dangles : Dangles pattern) :
    ∃ last, last + 1 = pattern.length ∧
      ofPattern initial pattern = .error (.malformed .danglingEscape last) := by
  obtain ⟨last, place, failed⟩ := written_of_dangles dangles
  refine ⟨last, place, ?_⟩
  -- Tokens are taken apart before any of them is read.
  cases pattern with
  | nil => cases place
  | cons c rest =>
    rw [ofPattern_cons, PlacedToken.ofPattern, failed]
    rfl

/-- No escape dangles at the end of a pattern in which another fault is found. -/
theorem not_dangles_of_fault {fault : Fault} {position : Nat}
    (failed : ofPattern initial pattern = .error (.malformed fault position))
    (other : fault ≠ .danglingEscape) : ¬ Dangles pattern := by
  intro dangles
  -- A dangling escape would have been told instead.
  obtain ⟨last, _, again⟩ := ofPattern_of_dangles initial dangles
  cases failed.symm.trans again
  exact other rfl

/-- A pattern that can be read has been taken in and settled. -/
theorem exists_taken_of_ofPattern {settled : σ} (filled : pattern ≠ [])
    (read : ofPattern initial pattern = .ok settled) :
    ∃ tokens x, Taken initial pattern tokens x ∧ finish x.pending x.operands = .ok settled := by
  have whole : ¬ Dangles pattern := by
    intro dangles
    obtain ⟨last, _, failed⟩ := ofPattern_of_dangles initial dangles
    cases failed.symm.trans read
  obtain ⟨tokens, apart⟩ := exists_written whole
  rw [ofPattern_eq_of_written filled apart] at read
  -- Nothing has failed, so all tokens have been taken in before the end.
  obtain ⟨x, ran, finished⟩ := bind_eq_ok.mp read
  exact ⟨tokens, x, ⟨apart, ran⟩, finished⟩

/-- A fault that is not that of the whole pattern is found at one of its tokens or at its end. -/
theorem failsAt_or_taken_of_ofPattern {fault : Fault} {position : Nat}
    (failed : ofPattern initial pattern = .error (.malformed fault position))
    (filled : fault ≠ .emptyPattern) (whole : ¬ Dangles pattern) :
    (∃ before text rest, before ++ text ++ rest = pattern ∧
      FailsAt initial before text (.malformed fault position)) ∨
    ∃ tokens x, Taken initial pattern tokens x ∧
      finish x.pending x.operands = .error (.malformed fault position) := by
  have filled : pattern ≠ [] := by
    rintro rfl
    cases failed
    exact filled rfl
  obtain ⟨tokens, apart⟩ := exists_written whole
  rw [ofPattern_eq_of_written filled apart] at failed
  -- Reading has failed at one of the tokens, or after all of them.
  rcases bind_eq_error.mp failed with failed | ⟨x, ran, failed⟩
  · exact Or.inl ((Taken.nothing initial).exists_failsAt rfl apart failed)
  · exact Or.inr ⟨tokens, x, ⟨apart, ran⟩, failed⟩

end Reading

end PatternAutomata
