/-! Numbered states, the symbols that edges read, and the order in which edges are listed. -/

namespace PatternAutomata

/--
States are named by numbers.

Numbers and the counters that hand them out have no bound here. So it is assumed of a program that
its counters stay within a machine word, which they would overflow after as many new states only.
-/
abbrev State := Nat

/-- What is read along an edge. -/
inductive Symbol where
  /-- Nothing is read. -/
  | epsilon
  /-- Exactly this character is read. -/
  | char (c : Char)
deriving DecidableEq

namespace Symbol

/-- The character that is read, if there is one. -/
def char? : Symbol → Option Char
  | epsilon => none
  | char c => some c

/-- A symbol is determined by the character it reads or does not read. -/
theorem char?_injective {a b : Symbol} (same : a.char? = b.char?) : a = b := by
  cases a <;> cases b <;> simp_all [char?]

/-- Epsilon comes first, then the characters by code point. -/
instance : Ord Symbol := ⟨compareOn char?⟩

/-- Symbols inherit a transitive order from their characters. -/
instance : Std.TransOrd Symbol := inferInstanceAs (Std.TransCmp (compareOn char?))

/-- Symbols of equal rank are equal. -/
instance : Std.LawfulEqOrd Symbol :=
  ⟨fun {a b} (equal : compare a.char? b.char? = .eq) =>
    char?_injective (Std.LawfulEqOrd.eq_of_compare equal)⟩

end Symbol

/-- A transition from one state to another that reads a symbol. -/
structure Edge where
  /-- The state that the edge leaves. -/
  source : State
  /-- What is read along the edge. -/
  symbol : Symbol
  /-- The state that the edge enters. -/
  target : State
deriving DecidableEq

namespace Edge

/-- Edges are listed by source, then by symbol, then by target. -/
instance : Ord Edge :=
  ⟨compareLex (compareOn source) (compareLex (compareOn symbol) (compareOn target))⟩

/-- The order of edges is transitive as each of its keys is. -/
instance : Std.TransOrd Edge := inferInstanceAs
  (Std.TransCmp (compareLex (compareOn source) (compareLex (compareOn symbol) (compareOn target))))

/-- Edges of equal rank agree in all three parts. -/
instance : Std.LawfulEqOrd Edge where
  eq_of_compare := by
    -- A lexicographic comparison is equal only when every key is.
    rintro ⟨source, symbol, target⟩ ⟨source', symbol', target'⟩ equal
    obtain ⟨sources, equal⟩ := compareLex_eq_eq.mp equal
    obtain ⟨symbols, targets⟩ := compareLex_eq_eq.mp equal
    have sources : source = source' := Std.LawfulEqOrd.eq_of_compare sources
    have symbols : symbol = symbol' := Std.LawfulEqOrd.eq_of_compare symbols
    have targets : target = target' := Std.LawfulEqOrd.eq_of_compare targets
    rw [sources, symbols, targets]

end Edge

end PatternAutomata
