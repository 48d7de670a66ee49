import PatternAutomata.Minimize

/-! Conversions that keep their data in separate containers and report whatever they do not find. -/

namespace PatternAutomata

/-- What keeps a conversion from giving a result. -/
inductive Lapse where
  /-- An operation on a graph is refused. -/
  | refused (error : Error)
  /-- A new state does not have the number of the place that its set gets. -/
  | misnumbered (state : State)
  /-- No set is kept for a state. -/
  | noSet (state : State)
  /-- No class is known for a state. -/
  | noClass (state : State)
  /-- A class has no members. -/
  | noMember
  /-- No state has been made for a class. -/
  | noState (number : Nat)
  /-- Something is left to do after as many rounds as were allowed. -/
  | unfinished
deriving DecidableEq

namespace Lapse

/-- What has been found, or the lapse that there is no such thing. -/
def unlessFound {α : Type} (lapse : Lapse) : Option α → Except Lapse α
  | none => .error lapse
  | some value => .ok value

/-- Nothing lapses when something has been found. -/
@[simp] theorem unlessFound_some {α : Type} (lapse : Lapse) (value : α) :
    lapse.unlessFound (some value) = .ok value :=
  rfl

end Lapse

namespace Checked

/-- How far a deterministic graph has been built, whose states stand for sets of other states. -/
structure Registry where
  /-- The deterministic graph so far. -/
  dfa : Graph := {}
  /-- The state of each set that has been met. -/
  numbers : List (SortedSet State × State) := []
  /-- The sets that have been met, each at the place that its state is the number of. -/
  sets : List (SortedSet State) := []
  /-- The states whose edges are not there yet, the latest first. -/
  waiting : List State := []
deriving DecidableEq

namespace Registry

/-- The state for a set, and whether the set has not been met before. -/
def register (g : Graph) (r : Registry) (subset : SortedSet State) :
    Except Lapse (State × Bool × Registry) :=
  match r.numbers.lookup subset with
  | some state => .ok (state, false, r)
  | none =>
    let (state, dfa) := r.dfa.createState
    -- The set is found again by the number of its state only if this is the place that it gets.
    if state ≠ r.sets.length then
      .error (.misnumbered state)
    else do
      let dfa ←
        (if g.containsFinal subset then (dfa.markFinal state).mapError .refused else .ok dfa)
      let numbers := (subset, state) :: r.numbers
      return (state, true, { r with dfa, numbers, sets := r.sets ++ [subset] })

/-- Puts a state in front of those that wait, if it is new. -/
def enqueue (r : Registry) (state : State) (isNew : Bool) : Registry :=
  -- A state waits only once, since it is new only once.
  if isNew then { r with waiting := state :: r.waiting } else r

/-- Adds the edge of a state for one character, unless the character leads nowhere from its set. -/
def follow (g : Graph) (source : State) (subset : SortedSet State) (r : Registry) (c : Char) :
    Except Lapse Registry :=
  let reached := g.advance subset c
  -- The empty set gets no state, so that the result may be partial.
  if reached = ∅ then
    .ok r
  else do
    let (target, isNew, r) ← r.register g reached
    let dfa ← (r.dfa.addEdge ⟨source, .char c, target⟩).mapError .refused
    return { r with dfa }.enqueue target isNew

/-- Adds the edges of states that wait, the latest first, and may not have to do so too often. -/
def explore (g : Graph) : Nat → Registry → Except Lapse Registry
  | 0, r => if r.waiting = [] then .ok r else .error .unfinished
  | bound + 1, r =>
    match r.waiting with
    | [] => .ok r
    | state :: waiting => do
      -- The set of the state that is taken is looked up in the list of all sets.
      let subset ← (Lapse.noSet state).unlessFound r.sets[state]?
      explore g bound (← g.alphabet.toList.foldlM (follow g state subset) { r with waiting })

end Registry

/-- A deterministic automaton for the same inputs, made with all lookups checked. -/
def determinize (g : Graph) : Except Lapse Graph :=
  match g.start with
  | none => .ok {}
  | some start => do
    let (initial, _, r) ← Registry.register g {} (g.closure {start})
    let dfa ← (r.dfa.setStart initial).mapError .refused
    let r := { r with dfa, waiting := [initial] }
    -- There are no more sets than this bound, so that all of them are taken.
    return (← Registry.explore g (Nat.pow 2 g.states.size) r).dfa

/-- States with the numbers of their classes, of which the first one listed for a state counts. -/
abbrev Classes := List (State × Nat)

/-- The class of a state, and the class to which each character of the alphabet leads from it. -/
def key (g : Graph) (classes : Classes) (state : State) :
    Except Lapse (Nat × List (Option Nat)) := do
  let own ← (Lapse.noClass state).unlessFound (classes.lookup state)
  -- A target without a class would be taken for a missing edge.
  return (own, g.alphabet.toList.map fun c => (g.successor? state c).bind (classes.lookup ·))

/-- The states that have the same key, for each key, in the order in which the keys first occur. -/
def gather {Key : Type} [DecidableEq Key] (keyed : List (Key × State)) : List (List State) :=
  -- Groups come in the order in which their keys have first been met.
  (keyed.map Prod.fst).eraseDups.map fun k =>
    (keyed.filter fun entry => entry.1 = k).map Prod.snd

/-- Puts lists of states into the order of their first states. -/
def sortByFirst (groups : List (List State)) : Except Lapse (List (List State)) := do
  -- A group without members could not be sorted, and is reported.
  let headed ← groups.mapM fun group => do
    return (← Lapse.noMember.unlessFound group.head?, group)
  return (headed.mergeSort fun a b => a.1 ≤ b.1).map Prod.snd

/-- The states of each class after one more round, however the classes come out of their table. -/
def divide (shuffle : List (List State) → List (List State)) (g : Graph) (classes : Classes) :
    Except Lapse (List (List State)) := do
  let keyed ← g.states.toList.mapM fun state => do return (← key g classes state, state)
  -- States were listed in ascending order, so the first state of each class is its smallest.
  sortByFirst (shuffle (gather keyed))

/-- Gives all states of some classes the places of these as their numbers. -/
def assign (classes : Classes) (groups : List (List State)) : Classes :=
  -- A number that is given later takes the place of an earlier one.
  (groups.zipIdx.flatMap fun entry => entry.1.map fun state => (state, entry.2)).foldl
    (fun classes entry => entry :: classes) classes

/-- Divides classes until a round leaves their number as it is, which may not take too long. -/
def settle (shuffle : List (List State) → List (List State)) (g : Graph) :
    Nat → Nat → Classes → Except Lapse (List (List State) × Classes)
  | 0, _, _ => .error .unfinished
  | rounds + 1, count, classes => do
    let groups ← divide shuffle g classes
    -- The numbers are places in the groups of this round, also when it is the last one.
    let classes := assign classes groups
    if groups.length = count then
      return (groups, classes)
    else
      settle shuffle g rounds groups.length classes

/-- Adds the edge of a new state for one character, if it leads anywhere from a member. -/
def addClassEdge (g : Graph) (classes : Classes) (made : List State) (source member : State)
    (q : Graph) (c : Char) : Except Lapse Graph :=
  match g.successor? member c with
  | none => .ok q
  | some next => do
    -- Both are looked up separately, the class of the state and the state of the class.
    let number ← (Lapse.noClass next).unlessFound (classes.lookup next)
    let target ← (Lapse.noState number).unlessFound made[number]?
    (q.addEdge ⟨source, .char c, target⟩).mapError .refused

/-- Adds the edges of a new state, which its first member has, and makes it final if that is. -/
def addClass (g : Graph) (classes : Classes) (made : List State) (q : Graph)
    (entry : List State × State) : Except Lapse Graph := do
  -- The first member decides for its class, as all members behave alike.
  let member ← Lapse.noMember.unlessFound entry.1.head?
  let q ← g.alphabet.toList.foldlM (addClassEdge g classes made entry.2 member) q
  if g.isFinal member then (q.markFinal entry.2).mapError .refused else .ok q

/-- A deterministic automaton with its states joined that behave alike, with checked lookups. -/
def joinAlike (shuffle : List (List State) → List (List State)) (g : Graph) :
    Except Lapse Graph :=
  match g.start with
  | none => .ok {}
  | some start => do
    -- Each round but the last makes more classes, so this bound is never met.
    let (groups, classes) ← settle shuffle g (g.states.size + 1) 0 g.finality.classes
    let (made, q) := Graph.createStates {} groups.length
    let q ← (groups.zip made).foldlM (addClass g classes made) q
    let number ← (Lapse.noClass start).unlessFound (classes.lookup start)
    let state ← (Lapse.noState number).unlessFound made[number]?
    (q.setStart state).mapError .refused

/-- A smallest deterministic automaton, which a number of nested calls has to be enough for. -/
def minimize (shuffle : List (List State) → List (List State)) :
    Nat → Graph → Except Lapse Graph
  | 0, _ => .error .unfinished
  | depth + 1, g =>
    -- What has been made deterministic leaves no choice, so one nested call is enough.
    if g.isNondeterministic then do
      minimize shuffle depth (← determinize g)
    else
      joinAlike shuffle g

end Checked

end PatternAutomata
