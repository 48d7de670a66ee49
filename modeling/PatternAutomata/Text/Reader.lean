import PatternAutomata.Graph.Edge

/-! Readers, which take what they find off the front of a text, or find nothing there. -/

namespace PatternAutomata

/-- A reader gives what it has read and leaves the text behind it. -/
abbrev Reader : Type → Type := StateT (List Char) Option

namespace Reader

/-- Reads a word that is known. -/
def expect (word : String) : Reader Unit := fun text =>
  (word.toList.isPrefixOf? text).map fun rest => ((), rest)

/-- Reads one of two words that are known, and tells whether it is the first one. -/
def choose (yes no : String) : Reader Bool := fun text =>
  match yes.toList.isPrefixOf? text with
  | some rest => some (true, rest)
  -- The word for no is only tried where the one for yes does not stand.
  | none => (no.toList.isPrefixOf? text).map fun rest => (false, rest)

/-- Reads as many characters as pass a test. -/
def span (test : Char → Bool) : Reader (List Char) := fun text =>
  some (text.takeWhile test, text.dropWhile test)

/-- The value of a digit in any base up to sixteen. -/
def digit (c : Char) : Nat := "0123456789abcdef".toList.idxOf c

/-- The number that digits stand for, of which the most significant one comes first. -/
def numeral (base : Nat) (digits : List Char) : Nat :=
  digits.foldl (fun value c => value * base + digit c) 0

/-- Reads a number in decimal digits. -/
def number : Reader Nat := do
  let digits ← span Char.isDigit
  -- Where there is no digit there is no number, not even zero.
  if digits = [] then failure else return numeral 10 digits

/-- Reads a code point in hexadecimal digits between braces. -/
def codePoint : Reader Char := do
  expect "\x7b"
  let digits ← span (· ≠ '\x7d')
  expect "\x7d"
  return Char.ofNat (numeral 16 digits)

/-- What some characters are written as behind a backslash, each in front of its character. -/
def shortForms : List (Char × Char) :=
  [('t', '\t'), ('r', '\r'), ('n', '\n'), ('\'', '\''), ('"', '"'), ('\\', '\\')]

/-- Reads what stands for a character behind a backslash. -/
def escaped : Reader Char
  | [] => none
  | letter :: rest =>
    match shortForms.lookup letter with
    | some c => some (c, rest)
    -- There is no short form with this letter, so a code point has to follow.
    | none => if letter = 'u' then codePoint.run rest else none

/-- Reads a symbol, for which the letter epsilon does not stand for a character. -/
def symbol : Reader Symbol
  | [] => none
  | 'ε' :: rest => some (.epsilon, rest)
  -- The character of a silent edge stands for itself only where it is escaped.
  | '\\' :: rest => (Symbol.char <$> escaped).run rest
  | c :: rest => some (.char c, rest)

/-- Reads as many items as there are in front of a text, each of which takes some of it. -/
def manyFrom {α : Type} (item : Reader α) (text : List Char) : List α × List Char :=
  match item.run text with
  | none => ([], text)
  | some (a, rest) =>
    -- An item that takes nothing would be read forever.
    if rest.length < text.length then
      (manyFrom item rest).map (a :: ·) id
    else
      ([], text)
termination_by text.length

/-- Reads as many items as there are, perhaps none. -/
def many {α : Type} (item : Reader α) : Reader (List α) := fun text => some (manyFrom item text)

/-- Reads a text from its beginning to its end. -/
def readAll {α : Type} (reader : Reader α) (text : String) : Option α :=
  match reader.run text.toList with
  | some (a, []) => some a
  -- Nothing may be left over behind what has been read.
  | _ => none

end Reader

end PatternAutomata
