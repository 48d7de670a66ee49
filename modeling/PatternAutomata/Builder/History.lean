import PatternAutomata.Builder.Assembly

/-! Histories of a builder, whose operations use what was built before. -/

namespace PatternAutomata

namespace Builder

/-- Where the operand of an operation comes from. -/
inductive Operand where
  /-- It was built by an earlier operation, of which this is the number from zero. -/
  | earlier (number : Nat)
  /-- It is any other graph. -/
  | foreign (g : Graph)
deriving DecidableEq

/-- A builder after some operations, together with what came of each of them. -/
structure History where
  /-- The builder as it is now. -/
  builder : Builder := {}
  /-- What came of the operations, the first one first. -/
  outcomes : List (Except Error Graph) := []

namespace History

/-- The graph of an operand. -/
def graph (history : History) : Operand → Graph
  | .foreign g => g
  | .earlier number =>
    match history.outcomes[number]? with
    | some (.ok g) => g
    -- A graph that was never built is as good as one that nothing can be done with.
    | _ => {}

/-- The history after one more operation, with the builder as the steps have left it. -/
def next (history : History) (operation : Operation Operand) : History :=
  -- An operation that fails has made some of its steps all the same.
  let (builder, outcome) :=
    (Assembly.ofOperation (operation.map history.graph)).perform history.builder
  ⟨builder, history.outcomes ++ [outcome]⟩

/-- The history after some more operations. -/
def run (history : History) (operations : List (Operation Operand)) : History :=
  -- Every operation can name the graphs that the ones before it have given.
  operations.foldl next history

end History

/-- Operations that use only what they have built before, and use nothing twice. -/
structure Thrifty (plan : List (Operation Operand)) : Prop where
  /-- Each operand was built by an operation with a smaller number. -/
  known : ∀ entry ∈ plan.zipIdx, ∀ operand ∈ entry.1.operands,
    ∃ number < entry.2, operand = .earlier number
  /-- All operands are different. -/
  once : (plan.flatMap Operation.operands).Nodup

/-- Thrift is decided by going through the operands. -/
instance (plan : List (Operation Operand)) : Decidable (Thrifty plan) :=
  decidable_of_iff
    ((∀ entry ∈ plan.zipIdx, ∀ operand ∈ entry.1.operands,
      ∃ number < entry.2, operand = .earlier number) ∧
      (plan.flatMap Operation.operands).Nodup)
    ⟨fun both => ⟨both.1, both.2⟩, fun thrifty => ⟨thrifty.known, thrifty.once⟩⟩

end Builder

end PatternAutomata
