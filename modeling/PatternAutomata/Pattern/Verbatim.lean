import PatternAutomata.Pattern.Count

/-! Patterns that stand for a single text, with escapes wherever the text needs them. -/

namespace PatternAutomata

/-- A text with a backslash in front of each character at a chosen position. -/
def escaped (chosen : Nat → Prop) [DecidablePred chosen] (text : List Char) : List Char :=
  -- Also characters that stand for themselves may be escaped.
  text.zipIdx.flatMap fun entry => if chosen entry.2 then ['\\', entry.1] else [entry.1]

/-- Every position is chosen at which a character of a text would not stand for itself. -/
def Protects (chosen : Nat → Prop) (text : List Char) : Prop :=
  ∀ entry ∈ text.zipIdx, IsPlain entry.1 ∨ chosen entry.2

/-- Whether a choice protects a text is decided by going through its characters. -/
instance (chosen : Nat → Prop) [DecidablePred chosen] (text : List Char) :
    Decidable (Protects chosen text) :=
  inferInstanceAs (Decidable (∀ entry ∈ text.zipIdx, _))

namespace Tree

/-- Some characters after each other, of which the first ones are concatenated first. -/
def chain (first : Char) (rest : List Char) : Tree :=
  -- This is how operands in a row are grouped.
  rest.foldl (fun tree c => concat tree (literal c)) (literal first)

end Tree

end PatternAutomata
