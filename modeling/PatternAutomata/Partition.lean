import PatternAutomata.Graph.Edge

/-! Divisions of states into classes, numbered by their smallest states. -/

namespace PatternAutomata

/-- A division of finitely many states into numbered classes. -/
structure Partition where
  /-- Each state with the number of its class, in ascending order of states. -/
  classes : List (State × Nat)
  /-- The number of classes. -/
  count : Nat
deriving DecidableEq

namespace Partition

/-- Puts states with equal keys into one class, and numbers classes as their keys first occur. -/
def byKey {Key : Type} [DecidableEq Key] (states : List State) (key : State → Key) : Partition :=
  -- Leaving out repetitions keeps each key at its first place, where its smallest state is.
  let keys := states.map key
  let distinct := keys.eraseDups
  { classes := states.zip (keys.map fun k => distinct.idxOf k)
    count := distinct.length }

/-- The class of a state, if the state takes part in the division. -/
def classOf (p : Partition) (state : State) : Option Nat := p.classes.lookup state

/-- The smallest state of a class. -/
def representative (p : Partition) (number : Nat) : Option State :=
  -- States are listed in ascending order, so the first one is the smallest.
  (p.classes.find? fun entry => entry.2 = number).map Prod.fst

/-- Leaving out repetitions makes no list longer. -/
private theorem length_eraseDups_le {Key : Type} [DecidableEq Key] (keys : List Key) :
    keys.eraseDups.length ≤ keys.length := by
  -- Keeping the head leaves a filtered tail, which is no longer than the tail.
  match keys with
  | [] => simp
  | k :: rest =>
    have shorter : (rest.filter fun other => !other == k).length ≤ rest.length :=
      List.length_filter_le ..
    have tail := length_eraseDups_le (rest.filter fun other => !other == k)
    rw [List.eraseDups_cons]
    simp only [List.length_cons]
    omega
termination_by keys.length
decreasing_by simpa using Nat.lt_succ_of_le shorter

/-- There are no more classes than states. -/
theorem count_byKey_le {Key : Type} [DecidableEq Key] (states : List State) (key : State → Key) :
    (byKey states key).count ≤ states.length := by
  -- Every class has a key, and every key comes from a state.
  simpa [byKey] using length_eraseDups_le (states.map key)

end Partition

end PatternAutomata
