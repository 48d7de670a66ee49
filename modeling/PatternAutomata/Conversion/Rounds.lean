import PatternAutomata.Minimize

/-! Conversions as loops that nothing bounds, together with the rounds that they take. -/

namespace PatternAutomata

/--
Pending states are taken, the latest first, and expanded until none is left.

They are listed in the order in which they are taken.
-/
inductive Exploration.Exhausts (g : Graph) : Exploration → List State → Exploration → Prop where
  /-- The loop is over when no state is pending. -/
  | done {x : Exploration} (idle : x.pending = []) : Exhausts g x [] x
  /-- The latest pending state is taken, and what it leads to may be pending from then on. -/
  | take {x next last : Exploration} {state : State} {pending taken : List State}
      (latest : x.pending = state :: pending)
      (expanded : Exploration.expand g state { x with pending } = .ok next)
      (rest : Exhausts g next taken last) : Exhausts g x (state :: taken) last

namespace Graph

/-- A graph is made deterministic by a loop that takes some states in order. -/
inductive DeterminizedBy (g : Graph) : List State → Graph → Prop where
  /-- The loop begins with what the start reaches without reading, and runs until it is over. -/
  | loop {start initial : State} {first last : Exploration} {dfa : Graph} {taken : List State}
      (begins : g.start = some start)
      (visited : Exploration.visit g {} (g.closure {start}) = .ok (initial, first))
      (marked : first.dfa.setStart initial = .ok dfa)
      (exhausts : Exploration.Exhausts g { first with dfa } taken last) :
      DeterminizedBy g taken last.dfa

/--
Classes are split in rounds until one of these leaves their number as it is.

The numbers of classes after the rounds are listed in order.
-/
inductive Settles (g : Graph) : Partition → List Nat → Partition → Prop where
  /-- The last round has as many classes as there were before it. -/
  | last {p : Partition} (unchanged : (g.refine p).count = p.count) :
      Settles g p [(g.refine p).count] (g.refine p)
  /-- Any other round is followed by one more. -/
  | onward {p last : Partition} {counts : List Nat} (changed : (g.refine p).count ≠ p.count)
      (rest : Settles g (g.refine p) counts last) :
      Settles g p ((g.refine p).count :: counts) last

/--
A graph is minimized by a number of nested calls, the innermost of which splits classes in rounds.

This one is for a graph without choices, whose numbers of classes after the rounds are listed.
-/
inductive MinimizedBy : Graph → Nat → Graph → List Nat → Graph → Prop where
  /-- A graph without choices is minimized without a nested call. -/
  | loop {g q : Graph} {start : State} {counts : List Nat} {p : Partition}
      (certain : g.isNondeterministic = false) (begins : g.start = some start)
      (settles : g.Settles g.finality counts p) (built : g.quotient p = .ok q) :
      MinimizedBy g 0 g counts q
  /-- A graph with a choice is made deterministic, and the same is called for the result. -/
  | call {g d innermost q : Graph} {calls : Nat} {counts : List Nat}
      (choice : g.isNondeterministic = true) (determined : g.determinize = .ok d)
      (rest : MinimizedBy d calls innermost counts q) :
      MinimizedBy g (calls + 1) innermost counts q

end Graph

end PatternAutomata
