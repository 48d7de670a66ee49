/-! Escapes and groups in a text, whatever else the text may be. -/

namespace PatternAutomata

/-- A text ends with an escape that protects nothing, so with an odd number of backslashes. -/
def Dangles (text : List Char) : Prop :=
  -- Two backslashes in a row are one that is escaped.
  (text.reverse.takeWhile (· = '\\')).length % 2 = 1

/-- Whether an escape dangles is found by counting. -/
instance (text : List Char) : Decidable (Dangles text) :=
  inferInstanceAs (Decidable (_ = _))

/-- A character stands at a position, and no backslash protects it. -/
def Unescaped (text : List Char) (position : Nat) (c : Char) : Prop :=
  -- What comes behind the character does not matter.
  text[position]? = some c ∧ ¬ Dangles (text.take position)

/-- Whether a character is protected is found by counting the backslashes in front of it. -/
instance (text : List Char) (position : Nat) (c : Char) : Decidable (Unescaped text position c) :=
  inferInstanceAs (Decidable (_ ∧ _))

/-- Every group in a text is closed, and whatever is closed is a group. -/
inductive Nested : List Char → Prop where
  /-- There need not be any group. -/
  | nothing : Nested []
  /-- A character that neither groups nor escapes may stand anywhere. -/
  | plain {c : Char} {rest : List Char} (opens : c ≠ '(') (closes : c ≠ ')') (escapes : c ≠ '\\')
      (behind : Nested rest) : Nested (c :: rest)
  /-- Any character may stand behind a backslash. -/
  | escaped (c : Char) {rest : List Char} (behind : Nested rest) : Nested ('\\' :: c :: rest)
  /-- A group may enclose groups, and may be followed by others. -/
  | group {inner rest : List Char} (within : Nested inner) (behind : Nested rest) :
      Nested ('(' :: inner ++ ')' :: rest)

/-- A group begins at one position of a text and ends at another. -/
def Matched (text : List Char) (opened closed : Nat) : Prop :=
  -- Brackets in between are closed in between, or are escaped.
  ∃ before inner after, before ++ '(' :: inner ++ ')' :: after = text ∧ ¬ Dangles before ∧
    Nested inner ∧ before.length = opened ∧ opened + inner.length + 1 = closed

/-- A group that begins at a position of a text is closed at once, so there is nothing in it. -/
def EmptyAt (text : List Char) (position : Nat) : Prop :=
  -- The bracket behind cannot be escaped, since the one in front is no backslash.
  Unescaped text position '(' ∧ text[position + 1]? = some ')'

/-- The last one of the groups that are never closed begins at a position of a text. -/
def LastUnclosedAt (text : List Char) (position : Nat) : Prop :=
  -- All groups that begin behind it end in the text.
  Unescaped text position '(' ∧ (∀ closed, ¬ Matched text position closed) ∧
    ∀ opened, position < opened → Unescaped text opened '(' → ∃ closed, Matched text opened closed

/-- The groups that are open where a text ends begin at some positions, the latest first. -/
inductive Opened : List Nat → List Char → Prop where
  /-- All groups are closed. -/
  | nothing {text : List Char} (nested : Nested text) : Opened [] text
  /-- One more group is opened, and what follows it are closed groups. -/
  | group {groups : List Nat} {outer inner : List Char} (before : Opened groups outer)
      (within : Nested inner) : Opened (outer.length :: groups) (outer ++ '(' :: inner)

/-- A position of a text lies in a group that begins at another one. -/
def Inside (text : List Char) (opened position : Nat) : Prop :=
  -- The group may have been closed later, but not before the position.
  ∃ groups, Opened groups (text.take position) ∧ opened ∈ groups

end PatternAutomata
