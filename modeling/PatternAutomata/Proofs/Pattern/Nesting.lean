import PatternAutomata.Pattern.Nesting
import PatternAutomata.Proofs.Pattern.Taken

/-! Escapes and groups as they are met when a text is read from left to right. -/

namespace PatternAutomata

/-- A plain character is none of those that are not. -/
theorem IsPlain.ne {c special : Char} (plain : IsPlain c)
    (listed : special ∈ ['(', ')', '|', '*', '+', '\\']) : c ≠ special := by
  intro same
  -- A plain character is in no list of signs.
  exact plain (same ▸ listed)

/-- Where there is no text no escape dangles. -/
theorem not_dangles_nil : ¬ Dangles [] := by decide

/-- No escape dangles behind another character. -/
theorem not_dangles_snoc (text : List Char) {c : Char} (ordinary : c ≠ '\\') :
    ¬ Dangles (text ++ [c]) := by
  simp [Dangles, ordinary]

/-- A backslash dangles unless it is protected by one that would dangle otherwise. -/
theorem dangles_snoc_escape (text : List Char) : Dangles (text ++ ['\\']) ↔ ¬ Dangles text := by
  simp [Dangles]
  omega

/-- No escape dangles behind the character that it protects. -/
theorem not_dangles_escaped {text : List Char} (whole : ¬ Dangles text) (c : Char) :
    ¬ Dangles (text ++ ['\\', c]) := by
  rw [List.append_cons]
  -- A second backslash is escaped by the first one, and so does not dangle.
  by_cases escape : c = '\\'
  · subst escape
    rw [dangles_snoc_escape, Classical.not_not, dangles_snoc_escape]
    exact whole
  · exact not_dangles_snoc _ escape

/-- Behind what is written for a token no escape dangles. -/
theorem WrittenFor.not_dangles {before text : List Char} {token : Token}
    (form : WrittenFor text token) (whole : ¬ Dangles before) : ¬ Dangles (before ++ text) := by
  -- All but an escaped character are a single character that is no backslash.
  cases form with
  | plain plain => exact not_dangles_snoc _ plain.ne_escape
  | escaped c => exact not_dangles_escaped whole c
  | opening => exact not_dangles_snoc _ (by decide)
  | closing => exact not_dangles_snoc _ (by decide)
  | union => exact not_dangles_snoc _ (by decide)
  | star => exact not_dangles_snoc _ (by decide)
  | plus => exact not_dangles_snoc _ (by decide)

section Prefix

variable {first : List Char} {position : Nat} {c : Char}

/-- Whether a character is protected is decided by what stands in front of it. -/
theorem unescaped_append (before : position < first.length) (second : List Char) :
    Unescaped (first ++ second) position c ↔ Unescaped first position c := by
  -- Whether a character is escaped depends only on what stands before it.
  rw [Unescaped, Unescaped, List.getElem?_append_left before,
    List.take_append_of_le_length (Nat.le_of_lt before)]

/-- The character behind a text is protected exactly if an escape dangles there. -/
theorem unescaped_length (first second : List Char) (c d : Char) :
    Unescaped (first ++ d :: second) first.length c ↔ d = c ∧ ¬ Dangles first := by
  simp [Unescaped]

/-- A character stands somewhere in its text. -/
theorem Unescaped.lt_length (stands : Unescaped first position c) : position < first.length :=
  (List.getElem?_eq_some_iff.mp stands.1).1

/-- Whether a group is empty is decided by what stands up to its end. -/
theorem emptyAt_append (before : position + 1 < first.length) (second : List Char) :
    EmptyAt (first ++ second) position ↔ EmptyAt first position := by
  rw [EmptyAt, EmptyAt, unescaped_append (by omega), List.getElem?_append_left before]

/-- A group ends where it does, whatever follows it. -/
theorem Matched.append {opened closed : Nat} (matched : Matched first opened closed)
    (second : List Char) : Matched (first ++ second) opened closed := by
  obtain ⟨before, inner, after, whole, rest⟩ := matched
  -- What follows the closing bracket is not looked at.
  exact ⟨before, inner, after ++ second, by simp [← whole], rest⟩

/-- One more character stands behind the others, and is protected if an escape dangles there. -/
theorem unescaped_snoc {d : Char} : Unescaped (first ++ [d]) position c ↔
    Unescaped first position c ∨ position = first.length ∧ d = c ∧ ¬ Dangles first := by
  -- The position is in the text, at the new character, or behind it.
  rcases Nat.lt_trichotomy position first.length with before | here | after
  · rw [unescaped_append before, or_iff_left fun last => Nat.ne_of_lt before last.1]
  · subst here
    rw [unescaped_length, or_iff_right fun stands => Nat.lt_irrefl _ stands.lt_length]
    simp
  · refine iff_of_false (fun stands => ?_) ?_
    · have within := stands.lt_length
      simp at within
      omega
    · rintro (stands | ⟨here, _⟩)
      · exact Nat.lt_asymm after stands.lt_length
      · exact Nat.ne_of_gt after here

/-- A group that ends within the beginning of a text is one of the beginning. -/
theorem Matched.of_append {second : List Char} {opened closed : Nat}
    (matched : Matched (first ++ second) opened closed) (within : closed < first.length) :
    Matched first opened closed := by
  obtain ⟨before, inner, after, whole, begins, nested, rfl, rfl⟩ := matched
  -- All of the group is a part of the beginning.
  have reaches : before ++ '(' :: inner ++ [')'] <+: first ++ second :=
    ⟨after, by simpa using whole⟩
  have short : (before ++ '(' :: inner ++ [')']).length ≤ first.length := by
    simp
    omega
  obtain ⟨rest, same⟩ := List.prefix_of_prefix_length_le reaches (List.prefix_append _ _) short
  exact ⟨before, inner, rest, by simpa using same, begins, nested, rfl, rfl⟩

end Prefix

section Token

variable {before text : List Char} {token : Token} {position : Nat}

/-- A group that is empty is closed by the last token, or has been empty before. -/
theorem WrittenFor.emptyAt_cases (form : WrittenFor text token)
    (empty : EmptyAt (before ++ text) position) : EmptyAt before position ∨
      token = .closing ∧ position + 1 = before.length ∧ Unescaped before position '(' := by
  rcases Nat.lt_trichotomy (position + 1) before.length with earlier | here | later
  · exact Or.inl ((emptyAt_append earlier text).mp empty)
  · obtain ⟨opens, closes⟩ := empty
    rw [unescaped_append (by omega)] at opens
    rw [here, List.getElem?_append_right (Nat.le_refl _), Nat.sub_self] at closes
    refine Or.inr ⟨?_, here, opens⟩
    cases form with
    | closing => rfl
    | plain plain =>
      have same := Option.some.inj closes
      exact absurd same (plain.ne (by decide))
    | _ => simp at closes
  · -- No token is written with both an opening and a closing.
    obtain ⟨opens, closes⟩ := empty
    obtain ⟨offset, rfl⟩ := Nat.exists_eq_add_of_le (Nat.lt_succ_iff.mp later)
    have first := opens.1
    rw [Nat.add_assoc] at closes
    rw [List.getElem?_append_right (Nat.le_add_right _ _), Nat.add_sub_cancel_left] at first closes
    cases form with
    | escaped c =>
      cases offset with
      | zero => simp at first
      | succ offset => simp at closes
    | _ => simp at closes

/-- What is written for a token is not empty. -/
theorem WrittenFor.ne_nil (form : WrittenFor text token) : text ≠ [] := by
  cases form <;> exact List.cons_ne_nil _ _

/-- A special character that no backslash protects is all that is written for its token. -/
theorem WrittenFor.unescaped_iff (form : WrittenFor text token) (whole : ¬ Dangles before)
    {c : Char} (ordinary : c ≠ '\\') : Unescaped (before ++ text) position c ↔
      Unescaped before position c ∨ position = before.length ∧ text = [c] := by
  cases form with
  | escaped d =>
    -- Behind the backslash everything is escaped, and the backslash itself is not asked for.
    have dangles : Dangles (before ++ ['\\']) := (dangles_snoc_escape before).mpr whole
    rw [List.append_cons, unescaped_snoc, unescaped_snoc]
    simp [dangles, ordinary.symm]
  | _ => rw [unescaped_snoc]; simp [whole]

/-- A special character is all that is written for a token exactly if it writes the token. -/
theorem WrittenFor.eq_singleton_iff (form : WrittenFor text token) {c : Char}
    (special : c ∈ ['(', ')', '|', '*', '+']) : text = [c] ↔ token = .ofChar c := by
  have other : ¬ IsPlain c := fun plain => plain (List.mem_append_left ['\\'] special)
  constructor
  · rintro rfl
    cases form with
    | plain plain => exact absurd plain other
    | _ => rfl
  · intro same
    have own : WrittenFor [c] token := same ▸ writtenFor_ofChar (by rintro rfl; simp at special)
    -- What is written for a token that is no literal is known from the token.
    cases own with
    | plain plain => exact absurd plain other
    | _ =>
      cases form
      rfl

/-- An opening that nothing follows is the last token. -/
theorem WrittenFor.opening_of_last (form : WrittenFor text token) (whole : ¬ Dangles before)
    (last : position + 1 = (before ++ text).length)
    (opens : Unescaped (before ++ text) position '(') :
    token = .opening ∧ position = before.length := by
  rcases (form.unescaped_iff whole (by decide)).mp opens with earlier | ⟨here, same⟩
  · -- The opening is not the last character, since the token is written behind it.
    have written := List.length_pos_iff.mpr form.ne_nil
    have within := earlier.lt_length
    rw [List.length_append] at last
    omega
  · exact ⟨(form.eq_singleton_iff (by decide)).mp same, here⟩

end Token

namespace Nested

variable {before text first second : List Char}

/-- No escape dangles at the end of a text in which all groups are closed. -/
theorem not_dangles (nested : Nested text) (whole : ¬ Dangles before) :
    ¬ Dangles (before ++ text) := by
  -- What has been read moves to the front, and never dangles there.
  induction nested generalizing before with
  | nothing =>
    rw [List.append_nil]
    exact whole
  | plain _ _ escapes behind ih =>
    rw [List.append_cons]
    exact ih (not_dangles_snoc _ escapes)
  | @escaped c rest behind ih =>
    have split : before ++ '\\' :: c :: rest = before ++ ['\\', c] ++ rest := by simp
    rw [split]
    exact ih (not_dangles_escaped whole c)
  | @group inner rest within behind _ ih =>
    have split : before ++ ('(' :: inner ++ ')' :: rest) =
      before ++ '(' :: inner ++ [')'] ++ rest := by simp
    rw [split]
    exact ih (not_dangles_snoc _ (by decide))

/-- Texts in which all groups are closed may follow each other. -/
theorem append (head : Nested first) (tail : Nested second) : Nested (first ++ second) := by
  -- By induction over the first text, which ends where the second one begins.
  induction head with
  | nothing => exact tail
  | plain opens closes escapes behind ih => exact Nested.plain opens closes escapes ih
  | escaped c behind ih => exact Nested.escaped c ih
  | group within behind _ ih =>
    rw [List.append_assoc, List.cons_append]
    exact Nested.group within ih

/-- The end of a group is found in only one place. -/
theorem closing_unique {inner after inner' after' : List Char} (within : Nested inner)
    (within' : Nested inner') (same : inner ++ ')' :: after = inner' ++ ')' :: after') :
    inner = inner' ∧ after = after' := by
  -- Both texts begin with the same character, so they are put together in the same way.
  induction within generalizing inner' after after' with
  | nothing =>
    cases within' with
    | nothing => simpa using same
    | _ => grind
  | plain opens closes escapes behind ih =>
    cases within' with
    | plain _ _ _ behind' =>
      obtain ⟨first, rest⟩ := List.cons.inj same
      obtain ⟨sameInner, sameAfter⟩ := ih behind' rest
      exact ⟨by rw [first, sameInner], sameAfter⟩
    | _ => grind
  | escaped c behind ih =>
    cases within' with
    | escaped c' behind' =>
      obtain ⟨_, rest⟩ := List.cons.inj same
      obtain ⟨first, rest⟩ := List.cons.inj rest
      obtain ⟨sameInner, sameAfter⟩ := ih behind' rest
      exact ⟨by rw [first, sameInner], sameAfter⟩
    | _ => grind
  | group within behind ihWithin ihBehind =>
    cases within' with
    | group within' behind' =>
      simp only [List.cons_append, List.append_assoc, List.cons.injEq, true_and] at same
      -- The inner groups end in one place, and so what follows them is the same.
      obtain ⟨sameInner, rest⟩ := ihWithin within' same
      obtain ⟨sameRest, sameAfter⟩ := ihBehind behind' rest
      exact ⟨by rw [sameInner, sameRest], sameAfter⟩
    | _ => grind

/-- A text in which all groups are closed does not close one more. -/
theorem not_closing (nested : Nested (first ++ ')' :: second)) : ¬ Nested first := by
  intro head
  -- Otherwise there would be two ways to find the end of one group.
  have same : (first ++ ')' :: second) ++ ')' :: [] = first ++ ')' :: (second ++ [')']) := by simp
  have length := congrArg List.length (nested.closing_unique head same).1
  simp at length

end Nested

/-- What is written for a token has no groups unless the token begins or ends one. -/
theorem WrittenFor.nested {text : List Char} {token : Token} (form : WrittenFor text token)
    (opens : token ≠ .opening) (closes : token ≠ .closing) : Nested text := by
  -- Only brackets open or close a group.
  cases form with
  | opening => exact absurd rfl opens
  | closing => exact absurd rfl closes
  | plain plain =>
    exact Nested.plain (plain.ne (by decide)) (plain.ne (by decide)) plain.ne_escape Nested.nothing
  | escaped c => exact Nested.escaped c Nested.nothing
  | _ => exact Nested.plain (by decide) (by decide) (by decide) Nested.nothing

/-- From a position on all groups of a text are closed, and whatever is closed is a group. -/
def ClosedFrom (start : Nat) (text : List Char) : Prop :=
  ∀ position, start ≤ position →
    -- Each bracket from there on has its partner somewhere in the text.
    (Unescaped text position '(' → ∃ closed, Matched text position closed) ∧
    (Unescaped text position ')' → ∃ opened, Matched text opened position)

namespace ClosedFrom

variable {start : Nat} {text before inner first second : List Char}

/-- No group begins or ends behind the end of a text. -/
theorem of_length_le (past : text.length ≤ start) : ClosedFrom start text := by
  intro position later
  -- There are no characters from there on.
  have behind : ¬ position < text.length := Nat.not_lt.mpr (Nat.le_trans past later)
  exact ⟨fun stands => absurd stands.lt_length behind, fun stands => absurd stands.lt_length behind⟩

/-- One more character is looked at. -/
theorem earlier (rest : ClosedFrom (start + 1) text)
    (opens : Unescaped text start '(' → ∃ closed, Matched text start closed)
    (closes : Unescaped text start ')' → ∃ opened, Matched text opened start) :
    ClosedFrom start text := by
  intro position later
  -- One more position comes first, about which everything is given.
  rcases Nat.eq_or_lt_of_le later with here | behind
  · subst here
    exact ⟨opens, closes⟩
  · exact rest position behind

/-- What is known of two parts of a text is known of both together. -/
theorem append (head : ClosedFrom start first) (tail : ClosedFrom first.length (first ++ second)) :
    ClosedFrom start (first ++ second) := by
  intro position later
  -- A bracket in the first text has its partner there already.
  by_cases before : position < first.length
  · rw [unescaped_append before, unescaped_append before]
    obtain ⟨opens, closes⟩ := head position later
    constructor
    · intro stands
      obtain ⟨closed, matched⟩ := opens stands
      exact ⟨closed, matched.append second⟩
    · intro stands
      obtain ⟨opened, matched⟩ := closes stands
      exact ⟨opened, matched.append second⟩
  · exact tail position (Nat.not_lt.mp before)

/-- A group is closed, and so are the groups in it. -/
theorem group (whole : ¬ Dangles before) (within : Nested inner)
    (enclosed : ClosedFrom (before.length + 1) (before ++ '(' :: inner)) :
    ClosedFrom before.length (before ++ '(' :: inner ++ [')']) := by
  have matched : Matched (before ++ '(' :: inner ++ [')']) before.length
      (before.length + inner.length + 1) := ⟨before, inner, [], by simp, whole, within, rfl, rfl⟩
  -- Behind the groups inside stands the end of the group, and in front of them its beginning.
  have ending : ClosedFrom (before ++ '(' :: inner).length (before ++ '(' :: inner ++ [')']) := by
    refine (of_length_le (by simp; omega)).earlier ?_ ?_
    · simp [Unescaped]
    · exact fun _ => ⟨_, by simpa [Nat.add_assoc] using matched⟩
  refine (enclosed.append ending).earlier ?_ ?_
  · exact fun _ => ⟨_, matched⟩
  · simp [Unescaped]

end ClosedFrom

/-- All groups are closed that begin behind a text, if those of what follows are. -/
theorem Nested.closedFrom {before text : List Char} (nested : Nested text)
    (whole : ¬ Dangles before) : ClosedFrom before.length (before ++ text) := by
  -- What has been read moves to the front again.
  induction nested generalizing before with
  | nothing =>
    rw [List.append_nil]
    exact ClosedFrom.of_length_le (Nat.le_refl _)
  | plain opens closes escapes behind ih =>
    have closed := ih (not_dangles_snoc before escapes)
    rw [List.length_append, ← List.append_cons] at closed
    exact closed.earlier (by simp [Unescaped, opens]) (by simp [Unescaped, closes])
  | @escaped c rest behind ih =>
    have closed := ih (not_dangles_escaped whole c)
    have split : before ++ ['\\', c] ++ rest = before ++ '\\' :: c :: rest := by simp
    rw [split, List.length_append] at closed
    -- The second of the two characters is protected by the first.
    have dangling : Dangles ((before ++ '\\' :: c :: rest).take (before.length + 1)) := by
      rw [List.append_cons, List.take_left' (by simp)]
      exact (dangles_snoc_escape before).mpr whole
    refine (closed.earlier ?_ ?_).earlier ?_ ?_
    · exact fun stands => absurd dangling stands.2
    · exact fun stands => absurd dangling stands.2
    · simp [Unescaped]
    · simp [Unescaped]
  | @group inner rest within behind ihWithin ihBehind =>
    have enclosed := ihWithin (not_dangles_snoc before (by decide : '(' ≠ '\\'))
    have followed := ihBehind (not_dangles_snoc (before ++ '(' :: inner) (by decide : ')' ≠ '\\'))
    rw [List.length_append, ← List.append_cons] at enclosed
    have closed := (ClosedFrom.group whole within enclosed).append followed
    have split : before ++ '(' :: inner ++ [')'] ++ rest =
      before ++ ('(' :: inner ++ ')' :: rest) := by simp
    rw [split] at closed
    exact closed

/-- A group ends with what closes groups. -/
theorem Matched.unescaped {text : List Char} {opened closed : Nat}
    (matched : Matched text opened closed) : Unescaped text closed ')' := by
  obtain ⟨before, inner, after, rfl, begins, nested, rfl, rfl⟩ := matched
  -- The group ends without an open escape, since it is nested.
  have whole : ¬ Dangles (before ++ '(' :: inner) := by
    rw [List.append_cons]
    exact nested.not_dangles (not_dangles_snoc _ (by decide))
  have place : before.length + inner.length + 1 = (before ++ '(' :: inner).length := by
    simp
    omega
  rw [place, unescaped_length]
  exact ⟨rfl, whole⟩

/-- A group that begins in another one is closed in it. -/
theorem Matched.exists_inner {text : List Char} {opened closed position : Nat}
    (matched : Matched text opened closed) (behind : opened < position) (inside : position < closed)
    (stands : Unescaped text position '(') : ∃ last, Matched text position last := by
  obtain ⟨before, inner, after, rfl, begins, nested, rfl, rfl⟩ := matched
  -- All brackets in the group are closed in it.
  have enclosed := nested.closedFrom (not_dangles_snoc before (by decide : '(' ≠ '\\'))
  rw [List.length_append, ← List.append_cons] at enclosed
  have shorter : position < (before ++ '(' :: inner).length := by
    simp
    omega
  obtain ⟨last, found⟩ := (enclosed position behind).1 ((unescaped_append shorter _).mp stands)
  exact ⟨last, found.append _⟩

namespace Opened

variable {groups : List Nat} {text more : List Char} {opened : Nat}

/-- No escape dangles where groups are open. -/
theorem not_dangles (opens : Opened groups text) : ¬ Dangles text := by
  -- By induction over the open groups, each of which begins behind a bracket.
  induction opens with
  | nothing nested => exact nested.not_dangles not_dangles_nil
  | group before within ih =>
    rw [List.append_cons]
    exact within.not_dangles (not_dangles_snoc _ (by decide))

/-- The same groups stay open if all groups that follow are closed. -/
theorem append (opens : Opened groups text) (nested : Nested more) :
    Opened groups (text ++ more) := by
  -- Only the innermost group grows.
  cases opens with
  | nothing head => exact Opened.nothing (head.append nested)
  | group before within =>
    rw [List.append_assoc, List.cons_append]
    exact Opened.group before (within.append nested)

/-- A group that is closed is no longer open. -/
theorem closing (opens : Opened (opened :: groups) text) : Opened groups (text ++ [')']) := by
  -- The innermost group is closed, and belongs to the one around it from then on.
  cases opens with
  | group before within =>
    rw [List.append_assoc, List.cons_append]
    exact before.append (Nested.group within Nested.nothing)

/-- An open group begins with what opens groups. -/
theorem unescaped (opens : Opened groups text) (member : opened ∈ groups) :
    Unescaped text opened '(' := by
  induction opens with
  | nothing => cases member
  | @group groups outer inner before within ih =>
    -- The latest group begins with the latest bracket that is open, and all others before it.
    rcases List.mem_cons.mp member with latest | earlier
    · subst latest
      exact (unescaped_length outer inner '(' '(').mpr ⟨rfl, before.not_dangles⟩
    · have stands := ih earlier
      exact (unescaped_append stands.lt_length _).mpr stands

/-- Whatever is closed where groups are open is a group. -/
theorem exists_matched (opens : Opened groups text) {closed : Nat}
    (stands : Unescaped text closed ')') : ∃ opened, Matched text opened closed := by
  induction opens with
  | nothing nested =>
    exact (nested.closedFrom not_dangles_nil closed (Nat.zero_le _)).2 stands
  | @group groups outer inner before within ih =>
    -- The bracket stands before the latest open group, at its beginning, or in it.
    rcases Nat.lt_trichotomy closed outer.length with earlier | here | later
    · obtain ⟨opened, matched⟩ := ih ((unescaped_append earlier _).mp stands)
      exact ⟨opened, matched.append _⟩
    · rw [here, unescaped_length] at stands
      cases stands.1
    · have enclosed := within.closedFrom (not_dangles_snoc outer (by decide : '(' ≠ '\\'))
      rw [List.length_append, ← List.append_cons] at enclosed
      exact (enclosed closed later).2 stands

/-- The latest of the open groups is the last one that is never closed. -/
theorem lastUnclosedAt (opens : Opened (opened :: groups) text) : LastUnclosedAt text opened := by
  have stands := opens.unescaped List.mem_cons_self
  cases opens with
  | @group groups outer inner before within =>
    refine ⟨stands, ?_, ?_⟩
    · -- The group would end within a text in which all groups are closed.
      rintro closed ⟨front, enclosed, after, whole, _, nested, same, _⟩
      obtain ⟨_, same⟩ := List.append_inj (by simpa using whole) same
      have same : enclosed ++ ')' :: after = inner := by simpa using same
      exact (same ▸ within).not_closing nested
    · intro position later
      have enclosed := within.closedFrom (not_dangles_snoc outer (by decide : '(' ≠ '\\'))
      rw [List.length_append, ← List.append_cons] at enclosed
      exact (enclosed position later).1

/-- Groups that are open were opened one behind the other. -/
theorem pairwise (opens : Opened groups text) : groups.Pairwise (· > ·) := by
  induction opens with
  -- Each group begins in the text before the ones inside of it.
  | nothing => exact List.Pairwise.nil
  | group before within ih =>
    exact List.pairwise_cons.mpr ⟨fun _ earlier => (before.unescaped earlier).lt_length, ih⟩

/-- An open group is never closed. -/
theorem not_matched (opens : Opened groups text) (member : opened ∈ groups) (closed : Nat) :
    ¬ Matched text opened closed := by
  induction opens with
  | nothing => cases member
  | @group groups outer inner before within ih =>
    have latest := (Opened.group before within).lastUnclosedAt
    rcases List.mem_cons.mp member with same | earlier
    · rw [same]
      exact latest.2.1 closed
    · intro matched
      have behind := (before.unescaped earlier).lt_length
      rcases Nat.lt_trichotomy closed outer.length with front | here | later
      · exact ih earlier (matched.of_append front)
      · have ends := matched.unescaped
        rw [here, unescaped_length] at ends
        cases ends.1
      · -- The latest group would be closed within the earlier one.
        obtain ⟨last, found⟩ := matched.exists_inner behind later latest.1
        exact latest.2.1 last found

/-- A group is open exactly if it has been opened and is never closed. -/
theorem mem_iff (opens : Opened groups text) :
    opened ∈ groups ↔ Unescaped text opened '(' ∧ ∀ closed, ¬ Matched text opened closed := by
  refine ⟨fun member => ⟨opens.unescaped member, opens.not_matched member⟩, ?_⟩
  rintro ⟨stands, never⟩
  induction opens with
  | nothing nested =>
    obtain ⟨closed, matched⟩ := (nested.closedFrom not_dangles_nil opened (Nat.zero_le _)).1 stands
    exact absurd matched (never closed)
  | @group groups outer inner before within ih =>
    -- The bracket stands before the latest open group, at its beginning, or in it.
    rcases Nat.lt_trichotomy opened outer.length with earlier | here | later
    · refine List.mem_cons_of_mem _ (ih ((unescaped_append earlier _).mp stands) ?_)
      exact fun closed matched => never closed (matched.append _)
    · exact here ▸ List.mem_cons_self
    · have latest := (Opened.group before within).lastUnclosedAt
      obtain ⟨closed, matched⟩ := latest.2.2 opened later stands
      exact absurd matched (never closed)

end Opened

end PatternAutomata
