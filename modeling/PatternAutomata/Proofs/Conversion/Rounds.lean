import Mathlib.Data.List.Perm.Subperm
import PatternAutomata.Conversion.Rounds
import PatternAutomata.Proofs.Minimize.Checked
import PatternAutomata.Proofs.Session

/-! The loops of conversions end, after a number of rounds that the graph bounds. -/

namespace PatternAutomata

namespace Exploration

variable {g : Graph} {x x' last : Exploration} {start : State} {taken : List State}

/-- While no state is taken, exactly the new states are added to the pending ones. -/
theorem Grown.pending_perm (grown : x.Grown x') (distinct : x.pending.Nodup)
    (known : ∀ k ∈ x.pending, k < x.subsets.length) :
    x'.pending.Perm
      (x.pending ++ List.range' x.subsets.length (x'.subsets.length - x.subsets.length)) := by
  -- Pending states and new ones are all different, and there is room for no others.
  have apart : (x.pending ++
      List.range' x.subsets.length (x'.subsets.length - x.subsets.length)).Nodup := by
    refine List.nodup_append'.mpr ⟨distinct, List.nodup_range', fun k old new => ?_⟩
    have above := (List.mem_range'_1.mp new).1
    exact absurd (known k old) (Nat.not_lt.mpr above)
  have inside : x.pending ++
      List.range' x.subsets.length (x'.subsets.length - x.subsets.length) ⊆ x'.pending := by
    intro k member
    rcases List.mem_append.mp member with old | new
    · exact grown.pending k old
    · obtain ⟨above, below⟩ := List.mem_range'_1.mp new
      exact grown.fresh k above (by omega)
  have balance := grown.balance
  have longer := grown.subsets.length_le
  refine ((List.subperm_of_subset apart inside).perm_of_length_le ?_).symm
  rw [List.length_append, List.length_range']
  omega

/-- States that have been taken and states that are pending are all states, each of them once. -/
-- States are numbered in the order in which their sets are met.
def Partitioned (taken : List State) (x : Exploration) : Prop :=
  (taken ++ x.pending).Perm (List.range x.subsets.length)

/-- Taking the latest pending state and expanding it accounts for all states again. -/
theorem Partitioned.take {before pending : List State} {k : State} (all : x.Partitioned before)
    (latest : x.pending = k :: pending) (grown : Grown { x with pending } x') :
    x'.Partitioned (before ++ [k]) := by
  rw [Partitioned, latest] at all
  have distinct : (before ++ k :: pending).Nodup := all.nodup_iff.mpr List.nodup_range
  have known : ∀ j ∈ pending, j < x.subsets.length := fun j member =>
    List.mem_range.mp (all.mem_iff.mp (by simp [member]))
  have waiting : pending.Nodup := (List.nodup_cons.mp (List.nodup_append.mp distinct).2.1).2
  have fresh := grown.pending_perm waiting known
  have longer := grown.subsets.length_le
  -- The states that were known are permuted, and the new ones are those that follow them.
  calc (before ++ [k] ++ x'.pending).Perm
        (before ++ [k] ++
          (pending ++ List.range' x.subsets.length (x'.subsets.length - x.subsets.length))) :=
        fresh.append_left _
    _ = (before ++ k :: pending) ++
          List.range' x.subsets.length (x'.subsets.length - x.subsets.length) := by simp
    _ |>.Perm (List.range x.subsets.length ++
          List.range' x.subsets.length (x'.subsets.length - x.subsets.length)) :=
        all.append_right _
    _ = List.range x'.subsets.length := by
        have whole := List.range'_append_1 (s := 0) (m := x.subsets.length)
          (n := x'.subsets.length - x.subsets.length)
        rw [Nat.zero_add, Nat.add_sub_cancel' longer] at whole
        rw [List.range_eq_range', whole, List.range_eq_range']

/-- All states of an exploration that exhausts its pending states are taken, each of them once. -/
theorem Exhausts.perm (wf : g.WellFormed) (exhausts : Exhausts g x taken last) (sound : x.Sound g)
    {before : List State} (all : x.Partitioned before) :
    (before ++ taken).Perm (List.range last.subsets.length) := by
  -- Each step takes one state, and what has been taken is put behind what was taken before.
  induction exhausts generalizing before with
  | done idle =>
    rw [Partitioned, idle] at all
    exact all
  | @take x next last k pending taken latest expanded _ ih =>
    have known : k < x.subsets.length := sound.pending_lt k (latest ▸ List.mem_cons_self)
    obtain ⟨next', again, sound', grown, -⟩ := expand_ok wf (sound.take latest) known
    cases expanded.symm.trans again
    rw [List.append_cons]
    exact ih sound' (all.take latest grown)

/-- An exploration with a bound that ends without pending states runs the loop to its end. -/
theorem exists_exhausts {bound : Nat} (explored : explore g bound x = .ok last)
    (idle : last.pending = []) : ∃ taken, Exhausts g x taken last := by
  -- The bound only ends the induction, since the work list is empty in the end.
  induction bound generalizing x with
  | zero =>
    cases explored
    exact ⟨[], .done idle⟩
  | succ bound ih =>
    rw [explore] at explored
    cases latest : x.pending with
    | nil =>
      rw [latest] at explored
      cases explored
      exact ⟨[], .done idle⟩
    | cons k pending =>
      rw [latest] at explored
      obtain ⟨next, expanded, explored⟩ := Outcome.bind_eq_ok.mp explored
      obtain ⟨taken, rest⟩ := ih explored
      exact ⟨k :: taken, .take latest expanded rest⟩

/-- The loop can run in one way only. -/
theorem Exhausts.unique {last' : Exploration} {taken' : List State}
    (exhausts : Exhausts g x taken last) (again : Exhausts g x taken' last') :
    taken' = taken ∧ last' = last := by
  induction exhausts generalizing taken' with
  | done idle =>
    cases again with
    | done => exact ⟨rfl, rfl⟩
    | take latest => cases idle.symm.trans latest
  | take latest expanded _ ih =>
    cases again with
    | done idle => cases idle.symm.trans latest
    | take latest' expanded' rest =>
      -- Both runs take the same state, and expanding it has one result.
      cases latest.symm.trans latest'
      cases expanded.symm.trans expanded'
      obtain ⟨same, ends⟩ := ih rest
      exact ⟨by rw [same], ends⟩

/-- The sets that have been met are fewer than all sets of states, since none is empty. -/
theorem Sound.length_lt (sound : x.Sound g) : x.subsets.length < 2 ^ g.states.size := by
  -- The empty set is a subset as well, and no state stands for it.
  have distinct : (∅ :: x.subsets).Nodup :=
    List.nodup_cons.mpr ⟨fun met => sound.ne_empty ∅ met rfl, sound.distinct⟩
  refine SortedSet.length_le_two_pow distinct fun subset member => ?_
  rcases List.mem_cons.mp member with none | met
  · subst none
    exact fun p absent => absurd absent (SortedSet.not_mem_empty p)
  · exact sound.inside subset met

/-- There are as many states as sets have been met. -/
theorem Sound.size_states (sound : x.Sound g) : x.dfa.states.size = x.subsets.length := by
  rw [SortedSet.size_eq_length List.nodup_range fun k =>
    (sound.mem_states k).trans List.mem_range.symm, List.length_range]

end Exploration

namespace Graph

variable {g d q : Graph} {p last : Partition} {start : State}

/-- Making a graph deterministic can run in one way only. -/
theorem DeterminizedBy.unique {taken taken' : List State} {d' : Graph}
    (made : g.DeterminizedBy taken d) (again : g.DeterminizedBy taken' d') :
    taken' = taken ∧ d' = d := by
  obtain ⟨begins, visited, marked, exhausts⟩ := made
  obtain ⟨begins', visited', marked', exhausts'⟩ := again
  -- The loop begins in the same way both times.
  cases begins.symm.trans begins'
  cases visited.symm.trans visited'
  cases marked.symm.trans marked'
  obtain ⟨same, ends⟩ := exhausts.unique exhausts'
  exact ⟨same, by rw [ends]⟩

/-- The loop by which a graph is made deterministic takes each state of the result once. -/
structure TakesEachOnce (g : Graph) (taken : List State) (d : Graph) : Prop where
  /-- The loop has taken these states when it is over. -/
  made : g.DeterminizedBy taken d
  /-- The result is the deterministic graph. -/
  determined : g.determinize = .ok d
  /-- No state is taken twice. -/
  distinct : taken.Nodup
  /-- Every state is taken. -/
  mem_iff : ∀ k, k ∈ taken ↔ k ∈ d.states
  /-- There are fewer states than sets of states of the original graph. -/
  bounded : d.states.size ≤ 2 ^ g.states.size - 1
  /-- The result leaves no choice. -/
  certain : d.isNondeterministic = false
  /-- The loop cannot run in another way. -/
  only : ∀ taken' d', g.DeterminizedBy taken' d' → taken' = taken ∧ d' = d

/-- Every graph with a start is made deterministic by taking each state of the result once. -/
theorem exists_takesEachOnce (wf : g.WellFormed) (begins : g.start = some start) :
    ∃ taken d, g.TakesEachOnce taken d ∧ d.start = some 0 := by
  obtain ⟨x, finished, determined⟩ := determinize_eq wf begins
  obtain ⟨first, begun, explored⟩ := finished.explored
  obtain ⟨first', begun', initial⟩ := Exploration.begun_ok wf (wf.start_mem start begins)
  cases begun.symm.trans begun'
  obtain ⟨taken, exhausts⟩ := Exploration.exists_exhausts (explored 0) finished.idle
  -- At first the only state is pending, and in the end none is.
  have all : first.Partitioned [] := by
    rw [Exploration.Partitioned, initial.pending, initial.subsets]
    exact List.Perm.refl _
  have perm := exhausts.perm wf initial.sound all
  obtain ⟨⟨state, y⟩, visited, begun⟩ := Outcome.bind_eq_ok.mp begun
  obtain ⟨dfa, marked, same⟩ := Outcome.bind_eq_ok.mp begun
  cases same
  have made : g.DeterminizedBy taken x.dfa := .loop begins visited marked exhausts
  have fewer := finished.sound.length_lt
  refine ⟨taken, x.dfa, ⟨made, determined, ?_, fun k => ?_, ?_, ?_, ?_⟩, finished.begins⟩
  · exact perm.nodup_iff.mpr List.nodup_range
  · rw [finished.sound.mem_states, ← List.mem_range]
    exact perm.mem_iff
  · rw [finished.sound.size_states]
    omega
  · exact deterministic_iff.mp finished.sound.deterministic
  · exact fun _ _ => made.unique

/-- There is at least one round. -/
theorem Settles.ne_nil {counts : List Nat} (settles : g.Settles p counts last) : counts ≠ [] := by
  cases settles <;> exact List.cons_ne_nil _ _

/--
Splitting classes ends after a number of rounds in which their number grows, and one more.

No more rounds are taken than there are states left to be told apart, and the last one.
-/
theorem Divides.exists_settles (divides : g.Divides p) :
    ∃ counts, g.Settles p counts (g.stabilize p) ∧
      (p.count :: counts.dropLast).Pairwise (· < ·) ∧
      counts.length + p.count ≤ g.states.size + 1 := by
  induction p using stabilize.induct (g := g) with
  | case1 p refined grown ih =>
    have grown : p.count < (g.refine p).count := grown
    obtain ⟨counts, rest, ascending, bounded⟩ := ih divides.refine
    rw [stabilize, if_pos grown]
    refine ⟨_, .onward (Nat.ne_of_gt grown) rest, ?_, ?_⟩
    · -- A round in which the number has grown is never the last one.
      rw [List.dropLast_cons_of_ne_nil rest.ne_nil]
      refine List.pairwise_cons.mpr ⟨fun count member => ?_, ascending⟩
      rcases List.mem_cons.mp member with same | later
      · exact same ▸ grown
      · exact Nat.lt_trans grown ((List.pairwise_cons.mp ascending).1 count later)
    · rw [List.length_cons]
      omega
  | case2 p refined settled =>
    have unchanged : (g.refine p).count = p.count :=
      Nat.le_antisymm (Nat.le_of_not_lt settled) (Checked.count_le_count_refine divides)
    have bounded := g.count_refine_le p
    rw [stabilize, if_neg settled]
    refine ⟨_, .last unchanged, List.pairwise_singleton _ _, ?_⟩
    rw [List.length_singleton]
    omega

/-- Splitting classes can run in one way only. -/
theorem Settles.unique {counts counts' : List Nat} {last' : Partition}
    (settles : g.Settles p counts last) (again : g.Settles p counts' last') :
    counts' = counts ∧ last' = last := by
  -- Whether a round is the last one is decided by the number of classes alone.
  induction settles generalizing counts' with
  | last unchanged =>
    cases again with
    | last => exact ⟨rfl, rfl⟩
    | onward changed => exact absurd unchanged changed
  | onward changed _ ih =>
    cases again with
    | last unchanged => exact absurd unchanged changed
    | onward _ rest =>
      obtain ⟨same, ends⟩ := ih rest
      exact ⟨by rw [same], ends⟩

/-- Minimizing a graph can run in one way only. -/
theorem MinimizedBy.unique {calls calls' : Nat} {innermost innermost' q' : Graph}
    {counts counts' : List Nat} (made : MinimizedBy g calls innermost counts q)
    (again : MinimizedBy g calls' innermost' counts' q') :
    calls' = calls ∧ innermost' = innermost ∧ counts' = counts ∧ q' = q := by
  -- Whether there is a nested call is decided by the graph alone.
  induction made generalizing calls' with
  | loop certain begins settles built =>
    cases again with
    | loop _ _ settles' built' =>
      obtain ⟨same, rfl⟩ := settles.unique settles'
      cases built.symm.trans built'
      exact ⟨rfl, rfl, same, rfl⟩
    | call choice => cases certain.symm.trans choice
  | call choice determined _ ih =>
    cases again with
    | loop certain => cases certain.symm.trans choice
    | call _ determined' rest =>
      cases determined.symm.trans determined'
      obtain ⟨same, rest⟩ := ih rest
      exact ⟨by rw [same], rest⟩

/-- The states of a graph without choices are joined after a bounded number of rounds. -/
theorem exists_minimizedBy_of_deterministic (wf : g.WellFormed) (begins : g.start = some start)
    (certain : g.isNondeterministic = false) :
    ∃ counts q, MinimizedBy g 0 g counts q ∧ g.joinAlike = .ok q ∧
      counts.length ≤ g.states.size + 1 ∧ (0 :: counts.dropLast).Pairwise (· < ·) := by
  obtain ⟨counts, settles, ascending, bounded⟩ := g.divides_finality.exists_settles
  obtain ⟨q, built, -⟩ := (congruence_stabilize wf g.divides_finality).quotient_ok wf
  -- No nested call is made, so the rounds are those of the graph itself.
  refine ⟨counts, q, .loop certain begins settles built, ?_, bounded, ascending⟩
  rw [joinAlike, begins]
  exact built

/-- A graph is minimized with few nested calls, and in few rounds that all but one split classes. -/
structure MinimizedInRounds (g : Graph) (calls : Nat) (innermost : Graph) (counts : List Nat)
    (q : Graph) : Prop where
  /-- The loops run like this. -/
  made : MinimizedBy g calls innermost counts q
  /-- The result is the minimized graph. -/
  minimized : g.minimize = .ok q
  /-- There is at most one nested call. -/
  calls_le : calls ≤ 1
  /-- There is at most one round more than the graph has states. -/
  bounded : counts.length ≤ innermost.states.size + 1
  /-- In every round but the last the number of classes grows. -/
  ascending : (0 :: counts.dropLast).Pairwise (· < ·)
  /-- The loops cannot run in another way. -/
  only : ∀ calls' innermost' counts' q', MinimizedBy g calls' innermost' counts' q' →
    calls' = calls ∧ innermost' = innermost ∧ counts' = counts ∧ q' = q

/-- Every graph with a start is minimized with few nested calls and in few rounds. -/
theorem exists_minimizedInRounds (wf : g.WellFormed) (begins : g.start = some start) :
    ∃ calls innermost counts q, g.MinimizedInRounds calls innermost counts q := by
  cases choice : g.isNondeterministic with
  | false =>
    obtain ⟨counts, q, made, joined, bounded, ascending⟩ :=
      exists_minimizedBy_of_deterministic wf begins choice
    have direct := minimize_eq_of_deterministic (deterministic_iff.mpr choice)
    exact ⟨0, g, counts, q, made, direct.trans joined, Nat.zero_le 1, bounded, ascending,
      fun _ _ _ _ => made.unique⟩
  | true =>
    -- The nested call finds no choice any more.
    obtain ⟨_, d, each, begins'⟩ := exists_takesEachOnce wf begins
    have wf' := kept_wellFormed.determinize each.determined
    obtain ⟨counts, q, made, joined, bounded, ascending⟩ :=
      exists_minimizedBy_of_deterministic wf' begins' each.certain
    have nested := minimize_eq_of_nondeterministic choice each.determined
    have called : MinimizedBy g 1 d counts q := .call choice each.determined made
    exact ⟨1, d, counts, q, called, nested.trans joined, Nat.le_refl 1, bounded, ascending,
      fun _ _ _ _ => called.unique⟩

/--
The loops of both conversions end for every graph with a start that can be reached.

Making the graph deterministic takes every state of the result from the pending ones once.
There are fewer of these states than sets of states of the graph, and they leave no choice.
So minimizing calls itself at most once, and then splits classes in at most one round more than
there are states, where the number of classes grows in every round but the last.
-/
theorem conversions_terminate (reachable : g.Reachable) (begins : g.start = some start) :
    (∃ taken d, g.TakesEachOnce taken d) ∧
      ∃ calls innermost counts q, g.MinimizedInRounds calls innermost counts q := by
  have wf := reachable.wellFormed
  -- Both loops end, and both runs are the only ones there are.
  obtain ⟨taken, d, each, -⟩ := exists_takesEachOnce wf begins
  exact ⟨⟨taken, d, each⟩, exists_minimizedInRounds wf begins⟩

/-- The loops end for a graph with a silent cycle, a choice and a state that is not reached. -/
theorem conversions_terminate_silent_cycle : ∃ g : Graph, g.Reachable ∧ g.start = some 0 ∧
    g.isNondeterministic = true ∧ (∃ taken d, g.TakesEachOnce taken d) ∧
      ∃ calls innermost counts q, g.MinimizedInRounds calls innermost counts q := by
  have reachable : Reachable _ := ⟨[.newGraph "g", .createStates "g" 4,
    .addEdge "g" ⟨0, .epsilon, 1⟩, .addEdge "g" ⟨1, .epsilon, 0⟩, .addEdge "g" ⟨1, .char 'a', 1⟩,
    .addEdge "g" ⟨1, .char 'a', 2⟩, .addEdge "g" ⟨3, .char 'b', 2⟩, .setStart "g" 0,
    .markFinal "g" 2], "g", rfl⟩
  -- The silent edges lead in a circle, so a closure without marks would not end.
  exact ⟨_, reachable, rfl, by decide, conversions_terminate reachable rfl⟩

end Graph

end PatternAutomata
