import PatternAutomata.Minimize

/-! Sequences of conversions between automata that accept the same inputs. -/

namespace PatternAutomata

/-- A way to get another automaton for the same inputs. -/
inductive Conversion where
  /-- Make the automaton deterministic. -/
  | determinize
  /-- Make the automaton deterministic and join the states that behave alike. -/
  | minimize
deriving DecidableEq

namespace Graph

/-- The automaton after one conversion. -/
def convert (g : Graph) : Conversion → Except Error Graph
  | .determinize => g.determinize
  | .minimize => g.minimize

/-- The automaton after several conversions, from left to right. -/
def convertAll (g : Graph) (conversions : List Conversion) : Except Error Graph :=
  -- Each conversion gets what the ones before it have made.
  conversions.foldlM convert g

end Graph

end PatternAutomata
