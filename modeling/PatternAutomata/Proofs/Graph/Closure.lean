import PatternAutomata.Graph.Closure
import PatternAutomata.Graph.Path

/-! Saturation finds exactly the states that silent paths lead to. -/

namespace PatternAutomata

namespace Graph

/-- No silent edge leads out of a set of states. -/
def SilentlyClosed (g : Graph) (states : SortedSet State) : Prop :=
  -- Edges that read a character may lead anywhere.
  ∀ p ∈ states, ∀ q, ⟨p, .epsilon, q⟩ ∈ g.edges → q ∈ states

/-- Silent paths do not leave a set that is closed under silent edges. -/
theorem SilentlyClosed.mem_of_path {g : Graph} {states : SortedSet State}
    (closed : g.SilentlyClosed states) {p q : State} (path : g.Path p [] q) (inside : p ∈ states) :
    q ∈ states := by
  -- The induction is on the path, so the empty input is kept as an equation.
  generalize unread : ([] : List Char) = input at path
  induction path with
  | here => exact inside
  | silent edge _ ih => exact ih (closed _ inside _ edge) unread
  | read => cases unread

/-- A state that is dropped because it has been seen stays among the known ones. -/
private theorem known_drop {seen : SortedSet State} {pending : List State} {state q : State}
    (again : state ∈ seen) (known : q ∈ seen ∨ q ∈ state :: pending) : q ∈ seen ∨ q ∈ pending := by
  -- A state that is marked already is not lost when it is taken off the list.
  rcases known with known | waiting
  · exact Or.inl known
  · rcases List.mem_cons.mp waiting with same | later
    · exact Or.inl (same ▸ again)
    · exact Or.inr later

/-- A state that moves from the pending to the seen ones stays known, whatever becomes pending. -/
private theorem known_move {seen : SortedSet State} {pending more : List State} {state q : State}
    (known : q ∈ seen ∨ q ∈ state :: pending) : q ∈ insert state seen ∨ q ∈ more ++ pending := by
  -- The state that is taken off the list is marked, and the list only grows otherwise.
  rcases known with known | waiting
  · exact Or.inl (SortedSet.mem_insert.mpr (Or.inr known))
  · rcases List.mem_cons.mp waiting with same | later
    · exact Or.inl (SortedSet.mem_insert.mpr (Or.inl same))
    · exact Or.inr (List.mem_append_right _ later)

/-- Saturation loses neither what has been seen nor what is pending. -/
theorem mem_saturate {g : Graph} {seen : SortedSet State} {pending : List State} {p : State}
    (known : p ∈ seen ∨ p ∈ pending) : p ∈ g.saturate seen pending := by
  -- Each step moves at most the first pending state among the seen ones.
  induction seen, pending using saturate.induct (g := g) with
  | case1 seen => simpa [saturate] using known
  | case2 seen state pending again ih =>
    rw [saturate, if_pos again]
    exact ih (known_drop again known)
  | case3 seen state pending fresh ih =>
    rw [saturate, if_neg fresh]
    exact ih (known_move known)

/-- Everything that saturation finds was seen before or is on a silent path from a pending state. -/
theorem seen_or_path_of_mem_saturate {g : Graph} {seen : SortedSet State} {pending : List State}
    {q : State} (found : q ∈ g.saturate seen pending) :
    q ∈ seen ∨ ∃ p ∈ pending, g.Path p [] q := by
  -- A state becomes seen only as a pending one, and pending only along a silent edge.
  induction seen, pending using saturate.induct (g := g) with
  | case1 seen => exact Or.inl (by simpa [saturate] using found)
  | case2 seen state pending again ih =>
    rw [saturate, if_pos again] at found
    rcases ih found with known | ⟨p, later, path⟩
    · exact Or.inl known
    · exact Or.inr ⟨p, List.mem_cons_of_mem _ later, path⟩
  | case3 seen state pending fresh ih =>
    rw [saturate, if_neg fresh] at found
    rcases ih found with known | ⟨p, waiting, path⟩
    · rcases SortedSet.mem_insert.mp known with same | known
      · exact Or.inr ⟨state, List.mem_cons_self, same ▸ Path.here q⟩
      · exact Or.inl known
    · rcases List.mem_append.mp waiting with next | later
      · -- The successor is reached from the state by one more silent edge.
        have edge : ⟨state, .epsilon, p⟩ ∈ g.edges := mem_successors.mp next
        exact Or.inr ⟨state, List.mem_cons_self, Path.silent edge path⟩
      · exact Or.inr ⟨p, List.mem_cons_of_mem _ later, path⟩

/--
Saturation ends with a closed set if it starts with a proper frontier.

Every silent edge from a seen state has to enter a seen or a pending one.
-/
theorem silentlyClosed_saturate {g : Graph} {seen : SortedSet State} {pending : List State}
    (frontier : ∀ p ∈ seen, ∀ q, ⟨p, .epsilon, q⟩ ∈ g.edges → q ∈ seen ∨ q ∈ pending) :
    g.SilentlyClosed (g.saturate seen pending) := by
  -- The frontier is the invariant, and without pending states it says that the set is closed.
  induction seen, pending using saturate.induct (g := g) with
  | case1 seen =>
    intro p inside q edge
    rw [saturate] at inside ⊢
    simpa using frontier p inside q edge
  | case2 seen state pending again ih =>
    rw [saturate, if_pos again]
    apply ih
    intro p inside q edge
    exact known_drop again (frontier p inside q edge)
  | case3 seen state pending fresh ih =>
    rw [saturate, if_neg fresh]
    apply ih
    intro p inside q edge
    rcases SortedSet.mem_insert.mp inside with same | inside
    · -- The silent successors of the new state have just been made pending.
      have next : q ∈ g.successors state .epsilon := mem_successors.mpr (same ▸ edge)
      exact Or.inr (List.mem_append_left _ next)
    · exact known_move (frontier p inside q edge)

/-- No silent edge leads out of a closure. -/
theorem silentlyClosed_closure (g : Graph) (states : SortedSet State) :
    g.SilentlyClosed (g.closure states) := by
  -- At first nothing has been seen, so the frontier has no gaps.
  apply silentlyClosed_saturate
  intro p inside
  exact absurd inside (SortedSet.not_mem_empty p)

/-- A closure has exactly the states that silent paths lead to. -/
theorem mem_closure {g : Graph} {states : SortedSet State} {q : State} :
    q ∈ g.closure states ↔ ∃ p ∈ states, g.Path p [] q := by
  -- All states are pending at first, and none has been seen.
  constructor
  · intro found
    rcases seen_or_path_of_mem_saturate found with seen | reached
    · exact absurd seen (SortedSet.not_mem_empty q)
    · exact reached
  · intro reached
    obtain ⟨p, inside, path⟩ := reached
    have start : p ∈ g.closure states := mem_saturate (Or.inr inside)
    exact (silentlyClosed_closure g states).mem_of_path path start

/-- A set that no silent edge leaves is its own closure. -/
theorem SilentlyClosed.closure_eq {g : Graph} {states : SortedSet State}
    (closed : g.SilentlyClosed states) : g.closure states = states := by
  -- Silent paths stay inside, and a path without edges reaches each state of the set.
  apply SortedSet.ext
  intro q
  rw [mem_closure]
  constructor
  · intro reached
    obtain ⟨p, inside, path⟩ := reached
    exact closed.mem_of_path path inside
  · intro inside
    exact ⟨q, inside, Path.here q⟩

end Graph

end PatternAutomata
