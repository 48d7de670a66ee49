import PatternAutomata.Graph.Edge

/-! Single characters, and the symbols on edges, written in printable ASCII except for epsilon. -/

namespace PatternAutomata

namespace Text

/-- A character as itself where that is readable, and as a backslash sequence otherwise. -/
def escape : Char → String
  | '\t' => "\\t"
  | '\r' => "\\r"
  | '\n' => "\\n"
  | '\'' => "\\'"
  | '"' => "\\\""
  | '\\' => "\\\\"
  | c =>
    if ' ' ≤ c ∧ c ≤ '~' then
      String.singleton c
    else
      -- The code point is written in lower-case hexadecimal digits between braces.
      "\\u\x7b" ++ String.ofList (Nat.toDigits 16 c.toNat) ++ "\x7d"

end Text

/-- A symbol as the letter epsilon or as its escaped character, which never is that letter. -/
def Symbol.text : Symbol → String
  | epsilon => "ε"
  | char c => Text.escape c

end PatternAutomata
