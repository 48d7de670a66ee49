import PatternAutomata.Builder

/-! Operations of a builder as values, with the graphs that they work on. -/

namespace PatternAutomata

namespace Builder

/-- Something that a builder can do with operands of some kind. -/
inductive Operation (α : Type) where
  /-- Build an automaton for a character. -/
  | literal (c : Char)
  /-- Put two automata after each other. -/
  | concat (left right : α)
  /-- Put two automata beside each other. -/
  | union (left right : α)
  /-- Put an automaton into a loop that may be left out. -/
  | star (inner : α)
  /-- Put an automaton into a loop that is taken at least once. -/
  | plus (inner : α)
deriving DecidableEq

namespace Operation

variable {α β : Type}

/-- The operands from left to right. -/
def operands : Operation α → List α
  | literal _ => []
  | concat left right => [left, right]
  | union left right => [left, right]
  -- A repetition works on a single automaton.
  | star inner => [inner]
  | plus inner => [inner]

/-- The number of states that are created, which are none if two automata are only linked. -/
def created : Operation α → Nat
  | literal _ => 2
  -- Two automata are concatenated without any state between them.
  | concat _ _ => 0
  | union _ _ => 2
  | star _ => 2
  | plus _ => 2

/-- The same operation on other operands. -/
def map (f : α → β) : Operation α → Operation β
  | literal c => literal c
  | concat left right => concat (f left) (f right)
  | union left right => union (f left) (f right)
  | star inner => star (f inner)
  | plus inner => plus (f inner)

/-- The operands are exchanged one by one. -/
@[simp] theorem operands_map (f : α → β) (operation : Operation α) :
    (operation.map f).operands = operation.operands.map f := by
  cases operation <;> rfl

/-- What comes in place of the operands is made of one of them. -/
theorem mem_operands_map {f : α → β} {operation : Operation α} {b : β} :
    b ∈ (operation.map f).operands ↔ ∃ a ∈ operation.operands, f a = b := by
  rw [operands_map, List.mem_map]

/-- Other operands need as many new states. -/
@[simp] theorem created_map (f : α → β) (operation : Operation α) :
    (operation.map f).created = operation.created := by
  cases operation <;> rfl

end Operation

/-- Does one thing with graphs. -/
def perform (builder : Builder) : Operation Graph → Except Error (Graph × Builder)
  | .literal c => builder.literal c
  | .concat left right => builder.concat left right
  | .union left right => builder.union left right
  | .star inner => builder.star inner
  | .plus inner => builder.plus inner

/-- Goes over to the builder that has built a graph, and stays with this one otherwise. -/
def settle (builder : Builder) : Except Error (Graph × Builder) → Builder × Except Error Graph
  | .ok (g, after) => (after, .ok g)
  -- Numbers that were taken up to a failure are taken again.
  | .error error => (builder, .error error)

/-- A graph is given exactly if it has been built, and then its builder is the next one. -/
theorem settle_snd_eq_ok {builder : Builder} {outcome : Except Error (Graph × Builder)}
    {g : Graph} : (builder.settle outcome).2 = .ok g ↔
      outcome = .ok (g, (builder.settle outcome).1) := by
  -- Only a failure leaves the builder that there was before.
  rcases outcome with error | ⟨built, after⟩ <;> simp [settle]

/-- The reason for a failure is told. -/
theorem settle_snd_eq_error {builder : Builder} {outcome : Except Error (Graph × Builder)}
    {error : Error} : (builder.settle outcome).2 = .error error ↔ outcome = .error error := by
  rcases outcome with reason | ⟨built, after⟩ <;> simp [settle]

/-- The first number that neither a builder nor any of the graphs that it works on has used. -/
def firstFree (builder : Builder) (operation : Operation Graph) : State :=
  -- The counter of the graph that is built begins at that of the builder, and merges raise it.
  operation.operands.foldl (fun next g => max next g.next) builder.next

/-- Two graphs share no state. -/
def Apart (g h : Graph) : Prop := ∀ state ∈ g.states, state ∉ h.states

/-- What shares no state with a graph is a graph with which that one shares none. -/
theorem Apart.symm {g h : Graph} (apart : Apart g h) : Apart h g :=
  fun state member shared => apart state shared member

end Builder

end PatternAutomata
