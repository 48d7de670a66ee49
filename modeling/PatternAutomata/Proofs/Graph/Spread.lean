import Mathlib.Data.Nat.Init
import Mathlib.Data.Set.Basic
import Mathlib.Logic.Relation
import Mathlib.Order.Bounds.Defs
import PatternAutomata.Graph.Spread
import PatternAutomata.Proofs.Graph.Closure
import PatternAutomata.Proofs.SortedSet

/-! Following silent edges round by round ends, and then exactly the closure has been reached. -/

namespace PatternAutomata

namespace Spread

variable {g : Graph} {x : Spread} {p : State} {states : List State}

/-- Reaching some states reaches these and loses none. -/
theorem mem_reached_enterAll :
    p ∈ (x.enterAll states).reached ↔ p ∈ x.reached ∨ p ∈ states := by
  -- The first of the states is reached before the others, so the spread is general.
  induction states generalizing x with
  | nil => simp [enterAll]
  | cons state rest ih =>
    have step : p ∈ (x.enterAll (state :: rest)).reached ↔
        p ∈ (x.enter state).reached ∨ p ∈ rest := ih
    rw [step, enter]
    split
    · -- A state that is reached again was reached before.
      grind
    · simp only [SortedSet.mem_insert, List.mem_cons]
      grind

/-- States that wait go on waiting, and what is reached for the first time waits as well. -/
theorem mem_waiting_enterAll :
    p ∈ (x.enterAll states).waiting ↔ p ∈ x.waiting ∨ p ∈ states ∧ p ∉ x.reached := by
  induction states generalizing x with
  | nil => simp [enterAll]
  | cons state rest ih =>
    have step : p ∈ (x.enterAll (state :: rest)).waiting ↔
        p ∈ (x.enter state).waiting ∨ p ∈ rest ∧ p ∉ (x.enter state).reached := ih
    rw [step, enter]
    split
    · grind
    · -- What is reached for the first time among the rest may not be the state itself.
      simp only [List.mem_cons, SortedSet.mem_insert]
      grind

/-- As many states begin to wait as are reached for the first time. -/
theorem size_reached_enterAll (x : Spread) (states : List State) :
    (x.enterAll states).reached.size + x.waiting.length =
      x.reached.size + (x.enterAll states).waiting.length := by
  -- Every state that is reached either was reached before or makes both lists one longer.
  induction states generalizing x with
  | nil => rfl
  | cons state rest ih =>
    have later : ((x.enter state).enterAll rest).reached.size + (x.enter state).waiting.length =
      (x.enter state).reached.size + ((x.enter state).enterAll rest).waiting.length := ih _
    have one : (x.enter state).reached.size + x.waiting.length =
        x.reached.size + (x.enter state).waiting.length := by
      rw [enter]
      split
      · rfl
      · rename_i fresh
        have grown : (insert state x.reached).size = x.reached.size + [state].length :=
          SortedSet.size_eq_add (List.nodup_singleton state) (by simpa using fresh)
            (by simp [or_comm])
        simp only [List.length_cons, List.length_nil] at grown ⊢
        omega
    have whole : x.enterAll (state :: rest) = (x.enter state).enterAll rest := rfl
    rw [whole]
    omega

/-- Once no state waits, a round changes nothing. -/
theorem round_done (done : x.waiting = []) : x.round g = x := by
  rw [round, done]

end Spread

/-- What holds after some rounds of following the silent edges from a set of states. -/
structure Spreading (g : Graph) (states : SortedSet State) (rounds : Nat) (x : Spread) : Prop where
  /-- The given states have been reached. -/
  given : ∀ p ∈ states, p ∈ x.reached
  /-- Only states of the closure have been reached. -/
  inside : ∀ p ∈ x.reached, p ∈ g.closure states
  /-- Only reached states wait. -/
  waiting : ∀ p ∈ x.waiting, p ∈ x.reached
  /-- A reached state waits, or its silent edges have been followed. -/
  frontier : ∀ p ∈ x.reached, p ∈ x.waiting ∨ ∀ q, ⟨p, .epsilon, q⟩ ∈ g.edges → q ∈ x.reached
  /-- Each round has followed the edges of one reached state, and the others wait. -/
  counted : x.reached.size = rounds + x.waiting.length

namespace Spreading

variable {g : Graph} {states : SortedSet State} {rounds : Nat} {x : Spread}

/-- Before the first round all given states have been reached and wait. -/
theorem begins (g : Graph) (list : List State) :
    Spreading g (.ofList list) 0 (Spread.enterAll {} list) where
  given p member := Spread.mem_reached_enterAll.mpr (Or.inr (SortedSet.mem_ofList.mp member))
  inside p member := by
    have listed : p ∈ list := by simpa [Spread.mem_reached_enterAll] using member
    exact Graph.mem_closure.mpr ⟨p, SortedSet.mem_ofList.mpr listed, .here p⟩
  waiting p member := by
    simpa [Spread.mem_reached_enterAll, Spread.mem_waiting_enterAll] using member
  frontier p member :=
    Or.inl (by simpa [Spread.mem_reached_enterAll, Spread.mem_waiting_enterAll] using member)
  counted := by
    have counted := Spread.size_reached_enterAll {} list
    have none : ({} : Spread).reached.size = 0 := rfl
    -- Nothing has been reached before, and no round is over.
    simp only [List.length_nil, none] at counted
    omega

/-- A round follows the edges of one more state, and the invariant goes on to hold. -/
theorem round (spreading : Spreading g states rounds x) (more : x.waiting ≠ []) :
    Spreading g states (rounds + 1) (x.round g) := by
  -- The state that is taken stays reached, and its targets are reached now.
  obtain ⟨reached, waiting⟩ := x
  cases waiting with
  | nil => exact absurd rfl more
  | cons state rest =>
    have known : state ∈ reached := spreading.waiting state List.mem_cons_self
    have taken : Spread.round g ⟨reached, state :: rest⟩ =
        Spread.enterAll ⟨reached, rest⟩ (g.successors state .epsilon) := rfl
    rw [taken]
    constructor
    · intro p member
      exact Spread.mem_reached_enterAll.mpr (Or.inl (spreading.given p member))
    · intro p member
      rcases Spread.mem_reached_enterAll.mp member with old | new
      · exact spreading.inside p old
      · -- The targets of a state of the closure are in the closure.
        have edge : ⟨state, .epsilon, p⟩ ∈ g.edges := Graph.mem_successors.mp new
        exact Graph.silentlyClosed_closure g states state (spreading.inside state known) p edge
    · intro p member
      rw [Spread.mem_reached_enterAll]
      rcases Spread.mem_waiting_enterAll.mp member with old | ⟨new, -⟩
      · exact Or.inl (spreading.waiting p (List.mem_cons_of_mem state old))
      · exact Or.inr new
    · intro p member
      simp only [Spread.mem_waiting_enterAll, Spread.mem_reached_enterAll] at member ⊢
      by_cases old : p ∈ reached
      · rcases spreading.frontier p old with waits | followed
        · rcases List.mem_cons.mp waits with same | later
          · -- The edges of the state that was taken have just been followed.
            exact Or.inr fun q edge => Or.inr (Graph.mem_successors.mpr (same ▸ edge))
          · exact Or.inl (Or.inl later)
        · exact Or.inr fun q edge => Or.inl (followed q edge)
      · exact Or.inl (Or.inr ⟨member.resolve_left old, old⟩)
    · have before := spreading.counted
      have grown :=
        Spread.size_reached_enterAll ⟨reached, rest⟩ (g.successors state .epsilon)
      simp only [List.length_cons] at before grown
      omega

/-- When no state waits any more, exactly the closure has been reached. -/
theorem reached_eq (spreading : Spreading g states rounds x) (done : x.waiting = []) :
    x.reached = g.closure states := by
  -- Without a frontier the reached states are closed, so no silent path leaves them.
  have closed : g.SilentlyClosed x.reached := by
    intro p member
    rcases spreading.frontier p member with waits | followed
    · rw [done] at waits
      cases waits
    · exact followed
  apply SortedSet.ext
  intro q
  constructor
  · exact spreading.inside q
  · intro member
    obtain ⟨p, given, path⟩ := Graph.mem_closure.mp member
    exact closed.mem_of_path path (spreading.given p given)

/-- There are never more reached states than the closure has. -/
theorem size_reached_le (spreading : Spreading g states rounds x) :
    x.reached.size ≤ (g.closure states).size :=
  (SortedSet.toList_sublist spreading.inside).length_le

/-- States wait until as many rounds are over as the closure has states. -/
theorem waiting_ne_nil (spreading : Spreading g states rounds x)
    (early : rounds < (g.closure states).size) : x.waiting ≠ [] := by
  -- Otherwise the whole closure would have been reached, with a round for each of its states.
  intro done
  have counted := spreading.counted
  rw [done, spreading.reached_eq done, List.length_nil] at counted
  omega

/-- As many rounds as the closure has states leave no state waiting. -/
theorem waiting_eq_nil (spreading : Spreading g states rounds x)
    (late : (g.closure states).size ≤ rounds) : x.waiting = [] := by
  -- The rounds alone account for all states of the closure, so none is left to wait.
  have counted := spreading.counted
  have bounded := spreading.size_reached_le
  exact List.eq_nil_of_length_eq_zero (by omega)

/-- The invariant holds throughout a run that is not longer than the closure is large. -/
theorem after (g : Graph) (list : List State) {rounds : Nat}
    (early : rounds ≤ (g.closure (.ofList list)).size) :
    Spreading g (.ofList list) rounds (.after g list rounds) := by
  -- The rounds before the last one are not all that the closure asks for, so a state waits.
  induction rounds with
  | zero => exact begins g list
  | succ rounds ih =>
    have before := ih (by omega)
    exact before.round (before.waiting_ne_nil (by omega))

/-- Rounds beyond those that the closure asks for change nothing. -/
theorem waiting_after_eq_nil (g : Graph) (list : List State) {rounds : Nat}
    (late : (g.closure (.ofList list)).size ≤ rounds) :
    (Spread.after g list rounds).waiting = [] := by
  -- No state waits after the last round, and from then on nothing changes.
  induction rounds, late using Nat.le_induction with
  | base => exact (after g list (Nat.le_refl _)).waiting_eq_nil (Nat.le_refl _)
  | succ rounds _ ih => rw [Spread.after, Spread.round_done ih, ih]

/-- A state waits exactly in the rounds that are fewer than the states of the closure. -/
theorem waiting_after_iff (g : Graph) (list : List State) (rounds : Nat) :
    (Spread.after g list rounds).waiting ≠ [] ↔ rounds < (g.closure (.ofList list)).size := by
  -- Each round takes one state of the closure, until all of them have been taken.
  constructor
  · intro more
    by_contra late
    exact more (waiting_after_eq_nil g list (Nat.not_lt.mp late))
  · intro early
    exact (after g list (Nat.le_of_lt early)).waiting_ne_nil early

end Spreading

namespace Graph

/-- One state leads to another silently when an edge without a character joins them. -/
def Silently (g : Graph) (p q : State) : Prop := ⟨p, .epsilon, q⟩ ∈ g.edges

/-- A path that reads nothing is a chain of silent edges. -/
theorem path_nil_iff {g : Graph} {p q : State} :
    g.Path p [] q ↔ Relation.ReflTransGen g.Silently p q := by
  constructor
  · intro path
    -- The induction is on the path, so the empty input is kept as an equation.
    generalize unread : ([] : List Char) = input at path
    induction path with
    | here => exact .refl
    | silent edge _ ih => exact .head edge (ih unread)
    | read => cases unread
  · intro chain
    induction chain using Relation.ReflTransGen.head_induction_on with
    | refl => exact .here q
    | head edge _ ih => exact .silent edge ih

/-- The closure of listed states has what chains of silent edges lead to. -/
theorem mem_closure_ofList {g : Graph} {list : List State} {q : State} :
    q ∈ g.closure (.ofList list) ↔ ∃ p ∈ list, Relation.ReflTransGen g.Silently p q := by
  simp only [mem_closure, SortedSet.mem_ofList, path_nil_iff]

/-- The closure is the least set with the given states that no silent edge leaves. -/
theorem isLeast_closure (g : Graph) (list : List State) :
    IsLeast {states : Set State | (∀ p ∈ list, p ∈ states) ∧
      ∀ p ∈ states, ∀ q, g.Silently p q → q ∈ states} {q | q ∈ g.closure (.ofList list)} := by
  -- The given states reach themselves, and what lies in any such set is found inside it.
  refine ⟨⟨fun p given => mem_closure_ofList.mpr ⟨p, given, .refl⟩,
    silentlyClosed_closure g (.ofList list)⟩, ?_⟩
  rintro states ⟨given, closed⟩ q found
  obtain ⟨p, member, chain⟩ := mem_closure_ofList.mp found
  -- A set that no silent edge leaves is not left by a chain of them either.
  induction chain with
  | refl => exact given p member
  | tail chain edge ih => exact closed _ (ih (mem_closure_ofList.mpr ⟨p, member, chain⟩)) _ edge

/--
Following silent edges ends after as many rounds as the closure has states, and finds the closure.

The given states may be repeated and need not be known to the graph.
A state is found exactly when a chain of silent edges leads to it from a given one.
So the states that are found are the least set that has the given ones and is closed.
-/
theorem reached_after_eq_closure (g : Graph) (list : List State) :
    (∀ rounds, (Spread.after g list rounds).waiting ≠ [] ↔
        rounds < (g.closure (.ofList list)).size) ∧
      (Spread.after g list (g.closure (.ofList list)).size).reached = g.closure (.ofList list) ∧
      (∀ q, q ∈ g.closure (.ofList list) ↔ ∃ p ∈ list, Relation.ReflTransGen g.Silently p q) ∧
      IsLeast {states : Set State | (∀ p ∈ list, p ∈ states) ∧
        ∀ p ∈ states, ∀ q, g.Silently p q → q ∈ states} {q | q ∈ g.closure (.ofList list)} := by
  -- After the last round nothing waits, so what has been reached is closed.
  have last := Spreading.after g list (Nat.le_refl _)
  exact ⟨Spreading.waiting_after_iff g list, last.reached_eq (last.waiting_eq_nil (Nat.le_refl _)),
    fun _ => mem_closure_ofList, isLeast_closure g list⟩

end Graph

end PatternAutomata
