import PatternAutomata.Proofs.Determinize.Checked
import PatternAutomata.Proofs.Minimize.Quotient
import PatternAutomata.Proofs.Partition.Groups

/-! Making a graph as small as possible finds every class, member and state that it looks up. -/

namespace PatternAutomata

namespace Checked

/-- Lists whose first states ascend are put into their order from whatever order they are in. -/
theorem sortByFirst_eq {groups shuffled : List (List State)} (first : List State → State)
    (heads : ∀ group ∈ groups, group.head? = some (first group))
    (ascending : (groups.map first).Pairwise (· < ·)) (perm : shuffled.Perm groups) :
    sortByFirst shuffled = .ok groups := by
  let value (group : List State) : State × List State := (first group, group)
  have headed : shuffled.mapM (fun group => do
      return (← Lapse.noMember.unlessFound group.head?, group)) = .ok (shuffled.map value) :=
    Outcome.mapM_eq_ok fun group member => by
      rw [heads group (perm.mem_iff.mp member)]
      rfl
  -- No two lists have the same first state, so there is only one way to put them into order.
  have distinct : (groups.map first).Nodup := ascending.imp Nat.ne_of_lt
  have antisymm : ∀ a ∈ shuffled.map value, ∀ b ∈ groups.map value, a.1 ≤ b.1 → b.1 ≤ a.1 →
      a = b := by
    intro a left b right below above
    obtain ⟨group, member, rfl⟩ := List.mem_map.mp left
    obtain ⟨group', member', rfl⟩ := List.mem_map.mp right
    have same : first group = first group' := Nat.le_antisymm below above
    rw [List.inj_on_of_nodup_map distinct (perm.mem_iff.mp member) member' same]
  have ordered : (groups.map value).Pairwise fun a b => decide (a.1 ≤ b.1) = true :=
    List.pairwise_map.mpr ((List.pairwise_map.mp ascending).imp fun smaller =>
      decide_eq_true (Nat.le_of_lt smaller))
  have sorted : (shuffled.map value).mergeSort (fun a b => a.1 ≤ b.1) = groups.map value := by
    refine List.Perm.eq_of_pairwise (fun a b left right below above => ?_)
      (List.pairwise_mergeSort ?_ ?_ _) ordered ((List.mergeSort_perm ..).trans (perm.map value))
    · exact antisymm a (List.mem_mergeSort.mp left) b right (of_decide_eq_true below)
        (of_decide_eq_true above)
    · exact fun a b c below above =>
        decide_eq_true (Nat.le_trans (of_decide_eq_true below) (of_decide_eq_true above))
    · exact fun a b => by simpa using Nat.le_total a.1 b.1
  have listed : (groups.map value).map Prod.snd = groups := by simp [value, Function.comp_def]
  refine Outcome.bind_ok headed ?_
  rw [sorted, listed]
  rfl

variable {g : Graph} {p : Partition} {classes : Classes}
  {shuffle : List (List State) → List (List State)}

/-- Every state is found with the number of its class. -/
def Agrees (g : Graph) (classes : Classes) (p : Partition) : Prop :=
  ∀ s ∈ g.states, classes.lookup s = p.classOf s

/-- At first every state is found with its finality. -/
theorem agrees_finality (g : Graph) : Agrees g g.finality.classes g.finality := fun _ _ => rfl

/-- The groups of a refinement can be put into the order of their first states. -/
theorem sortByFirst_groups_refine (g : Graph) (p : Partition) {shuffled : List (List State)}
    (perm : shuffled.Perm ((g.refine p).groups g.states.toList)) :
    sortByFirst shuffled = .ok ((g.refine p).groups g.states.toList) := by
  have heads : ∀ number < (g.refine p).count,
      ∃ s, (g.refine p).representative number = some s ∧
        (g.states.toList.filter fun s => (g.refine p).classOf s = some number).head? = some s := by
    intro number below
    obtain ⟨s, chosen⟩ := Partition.exists_representative_byKey below
    exact ⟨s, chosen, (Partition.head?_filter_classOf_byKey number).trans chosen⟩
  refine sortByFirst_eq (fun group => group.head?.getD 0) ?_ ?_ perm
  · intro group member
    obtain ⟨number, below, rfl⟩ := List.mem_map.mp member
    obtain ⟨s, -, first⟩ := heads number (List.mem_range.mp below)
    rw [first]
    rfl
  · -- Smaller numbers of classes go with smaller representatives.
    rw [Partition.groups, List.map_map, List.pairwise_map]
    refine List.pairwise_lt_range.imp_of_mem fun {m n} left right before => ?_
    obtain ⟨s, chosen, first⟩ := heads m (List.mem_range.mp left)
    obtain ⟨t, chosen', first'⟩ := heads n (List.mem_range.mp right)
    show (List.head? _).getD 0 < (List.head? _).getD 0
    rw [first, first']
    exact Partition.representative_byKey_lt g.pairwise_toList_states chosen chosen' before

/-- In every round all states have keys, and all groups of states have members to be sorted by. -/
theorem divide_eq (wf : g.WellFormed) (divides : g.Divides p) (agrees : Agrees g classes p)
    (permutes : ∀ groups, (shuffle groups).Perm groups) :
    divide shuffle g classes = .ok ((g.refine p).groups g.states.toList) := by
  -- A key is a signature in which the class of the state itself is not missing.
  let value (s : State) : Nat × List (Option Nat) :=
    ((p.classOf s).getD 0, g.alphabet.toList.map fun c => (g.successor? s c).bind p.classOf)
  have leads : ∀ s c, (g.successor? s c).bind (classes.lookup ·) =
      (g.successor? s c).bind p.classOf := by
    intro s c
    cases next : g.successor? s c with
    | none => rfl
    | some t => exact agrees t (wf.successor?_mem s c t next)
  have keyed : g.states.toList.mapM (fun s => do return (← key g classes s, s)) =
      .ok (g.states.toList.map fun s => (value s, s)) := by
    refine Outcome.mapM_eq_ok fun s member => ?_
    obtain ⟨own, placed⟩ := divides.total s member
    rw [key, agrees s member, placed, Lapse.unlessFound_some]
    simp only [Outcome.ok_bind, leads, value, placed, Option.getD_some]
    rfl
  have signatures : ∀ s ∈ g.states.toList,
      g.signature p s = Prod.map some id (value s) := by
    intro s member
    obtain ⟨own, placed⟩ := divides.total s member
    simp [Graph.signature, value, placed]
  have same : g.refine p = .byKey g.states.toList value :=
    Partition.byKey_eq_of_injective
      (Prod.map_injective.mpr ⟨Option.some_injective _, Function.injective_id⟩) signatures
  refine Outcome.bind_ok keyed (sortByFirst_groups_refine g p ?_)
  rw [Partition.gather_eq_groups, ← same]
  exact permutes _

/-- What is listed with only one value is found with it. -/
theorem lookup_eq_some_of_forall {entries : Classes} {s : State} {number : Nat}
    (listed : (s, number) ∈ entries) (only : ∀ other, (s, other) ∈ entries → other = number) :
    entries.lookup s = some number := by
  -- Whatever is found is listed, so it can be nothing else.
  cases found : entries.lookup s with
  | none =>
    have missing := List.lookup_eq_none_iff.mp found (s, number) listed
    simp at missing
  | some other =>
    obtain ⟨before, after, whole, -⟩ := List.lookup_eq_some_iff.mp found
    rw [only other (by simp [whole])]

/-- A state is in the group at some place exactly if its class has the number of the place. -/
theorem mem_entries_iff {s : State} {number : Nat} :
    (s, number) ∈ ((g.refine p).groups g.states.toList).zipIdx.flatMap
        (fun entry => entry.1.map fun state => (state, entry.2)) ↔
      (g.refine p).classOf s = some number := by
  simp only [List.mem_flatMap, List.mem_map, List.mem_zipIdx_iff_getElem?, Prod.mk.injEq,
    Partition.getElem?_groups_eq_some]
  -- A group is where its number says, and its members are the states of that class.
  constructor
  · rintro ⟨entry, ⟨-, group⟩, t, member, rfl, rfl⟩
    rw [group] at member
    exact of_decide_eq_true (List.mem_filter.mp member).2
  · intro placed
    have member : s ∈ g.states.toList.filter fun s => (g.refine p).classOf s = some number :=
      List.mem_filter.mpr ⟨Partition.mem_of_classOf_byKey placed, decide_eq_true placed⟩
    exact ⟨(_, number), ⟨Partition.classOf_byKey_lt placed, rfl⟩, s, member, rfl, rfl⟩

/-- After a round every state is found with the number of its new class. -/
theorem agrees_assign (classes : Classes) :
    Agrees g (assign classes ((g.refine p).groups g.states.toList)) (g.refine p) := by
  intro s member
  obtain ⟨number, placed⟩ : ∃ number, (g.refine p).classOf s = some number :=
    ⟨_, Partition.classOf_byKey member⟩
  -- What has been assigned in the round comes before what was known.
  have listed := List.mem_reverse.mpr (mem_entries_iff.mpr placed)
  rw [assign, List.foldl_flip_cons_eq_append, List.lookup_append, List.map_id', placed,
    lookup_eq_some_of_forall listed]
  · rfl
  · intro other listed'
    have placed' := mem_entries_iff.mp (List.mem_reverse.mp listed')
    exact Option.some.inj (placed'.symm.trans placed)

/-- A round adds classes to those that have been counted, or leaves their number as it is. -/
theorem count_le_count_refine (divides : g.Divides p) : p.count ≤ (g.refine p).count := by
  -- The classes from before are a part of the signatures.
  have classes : (g.states.toList.toFinset.image (g.signature p)).image Prod.fst =
      g.states.toList.toFinset.image p.classOf := Finset.image_image
  have counted := divides.counted
  rw [← classes] at counted
  exact counted.trans (Finset.card_image_le.trans (Partition.count_byKey ..).ge)

/-- Rounds end with the classes that are left in the end, if there may be enough of them. -/
theorem settle_eq (wf : g.WellFormed) (permutes : ∀ groups, (shuffle groups).Perm groups)
    (rounds : Nat) (divides : g.Divides p) (agrees : Agrees g classes p)
    (enough : g.states.size < rounds + p.count) :
    ∃ classes', settle shuffle g rounds p.count classes =
      .ok ((g.stabilize p).groups g.states.toList, classes') ∧
      Agrees g classes' (g.stabilize p) := by
  -- Each round that is not the last one adds a class, and there are no more of them than states.
  have grown := count_le_count_refine divides
  induction rounds generalizing p classes with
  | zero =>
    have bounded := g.count_refine_le p
    omega
  | succ rounds ih =>
    have divided := divide_eq wf divides agrees permutes
    have agrees' := agrees_assign (g := g) (p := p) classes
    rw [settle, divided, Outcome.ok_bind, Graph.stabilize, Partition.length_groups]
    by_cases settled : (g.refine p).count = p.count
    · rw [if_pos settled, if_neg (by omega)]
      exact ⟨_, rfl, agrees'⟩
    · rw [if_neg settled, if_pos (by omega)]
      exact ih divides.refine agrees' (by omega) (count_le_count_refine divides.refine)

/-- An edge of a class is added where it is added to the graph of classes. -/
theorem addClassEdge_eq (wf : g.WellFormed) (cong : g.Congruence p) (agrees : Agrees g classes p)
    {number : Nat} {member : State} {q q' : Graph} {c : Char}
    (added : g.addClassEdge p number member q c = .ok q') :
    addClassEdge g classes (List.range p.count) number member q c = .ok q' := by
  -- A state that an edge leads to has a class, for which a state of that number has been made.
  rw [Graph.addClassEdge] at added
  rw [addClassEdge]
  cases next : g.successor? member c with
  | none =>
    rw [next] at added
    cases added
    rfl
  | some t =>
    have inside : t ∈ g.states := wf.successor?_mem member c t next
    obtain ⟨target, placed⟩ := cong.total t inside
    have made : (List.range p.count)[target]? = some target :=
      List.getElem?_range (cong.class_lt t target placed)
    rw [next, Option.bind_some, placed] at added
    simp only [agrees t inside, placed, made, Lapse.unlessFound_some, Outcome.ok_bind]
    rw [show q.addEdge _ = .ok q' from added]
    rfl

/-- A class is added where it is added to the graph of classes. -/
theorem addClass_eq (wf : g.WellFormed) (cong : g.Congruence p) (agrees : Agrees g classes p)
    {number : Nat} (below : number < p.count) {group : List State}
    (first : group.head? = p.representative number) {q q' : Graph}
    (added : g.addClass p q number = .ok q') :
    addClass g classes (List.range p.count) q (group, number) = .ok q' := by
  -- The first member is the representative, with the edges and the finality that are added.
  obtain ⟨member, chosen⟩ := cong.represented number below
  rw [Graph.addClass, chosen] at added
  obtain ⟨q₁, looped, marked⟩ := Outcome.bind_eq_ok.mp added
  obtain ⟨_, looped', rfl⟩ := Outcome.foldlM_follows
    (addClassEdge g classes (List.range p.count) number member) Eq
    (fun _ _ _ _ q' same added => ⟨q', same ▸ addClassEdge_eq wf cong agrees added, rfl⟩) rfl looped
  have found : Lapse.noMember.unlessFound group.head? = .ok member := by
    rw [first, chosen, Lapse.unlessFound_some]
  refine Outcome.bind_ok found (Outcome.bind_ok looped' ?_)
  split at marked
  · rename_i final
    rw [if_pos final, marked]
    rfl
  · rename_i other
    cases marked
    rw [if_neg other]

/-- The states of an empty graph are numbered from zero on. -/
theorem createStates_blank (count : Nat) :
    (Graph.createStates {} count).1 = List.range count :=
  (Graph.createStates_numbers ..).trans List.range_eq_range'.symm

/-- All classes are added where they are added to the graph of classes. -/
theorem addClasses_eq (wf : g.WellFormed) (cong : g.Congruence p) (agrees : Agrees g classes p)
    (heads : ∀ number, (g.states.toList.filter fun s => p.classOf s = some number).head? =
      p.representative number) {q q' : Graph}
    (added : (List.range p.count).foldlM (g.addClass p) q = .ok q') :
    ((p.groups g.states.toList).zip (List.range p.count)).foldlM
      (addClass g classes (List.range p.count)) q = .ok q' := by
  -- The classes are added one after the other, and each has the number of its place.
  have entries : (p.groups g.states.toList).zip (List.range p.count) =
      (List.range p.count).map fun number =>
        (g.states.toList.filter fun s => p.classOf s = some number, number) := by
    rw [Partition.groups, ← List.zip_map', List.map_id']
  rw [entries, List.foldlM_map]
  obtain ⟨_, looped, rfl⟩ := Outcome.foldlM_follows (fun q number =>
      addClass g classes (List.range p.count) q
        (g.states.toList.filter fun s => p.classOf s = some number, number)) Eq
    (fun number member _ _ q' same added => ⟨q', same ▸
      addClass_eq wf cong agrees (List.mem_range.mp member) (heads number) added, rfl⟩) rfl added
  exact looped

/-- The first state of a class that is left in the end represents it. -/
theorem head?_filter_classOf_stabilize (g : Graph) (p : Partition) (number : Nat) :
    (g.states.toList.filter fun s => (g.stabilize p).classOf s = some number).head? =
      (g.stabilize p).representative number := by
  obtain ⟨last, refined⟩ := g.exists_refine_eq p
  -- Classes that come from a round are listed in ascending order.
  rw [refined]
  exact Partition.head?_filter_classOf_byKey number

/-- Building a graph of classes adds the classes to as many new states and sets the start. -/
theorem exists_addClasses_eq {q : Graph} {start : State} {number : Nat} (set : g.start = some start)
    (placed : p.classOf start = some number) (built : g.quotient p = .ok q) :
    ∃ q', (List.range p.count).foldlM (g.addClass p) (Graph.createStates {} p.count).2 = .ok q' ∧
      q'.setStart number = .ok q := by
  rw [← createStates_blank]
  -- The start is set at the end, so the loop over the classes has succeeded before.
  obtain ⟨q', looped, begins⟩ := Outcome.bind_eq_ok.mp (show
    ((Graph.createStates {} p.count).1.foldlM (g.addClass p) (Graph.createStates {} p.count).2
      >>= fun q => q.setStart? (g.start.bind p.classOf)) = .ok q from built)
  rw [set, Option.bind_some, placed] at begins
  exact ⟨q', looped, begins⟩

/-- The states of a well-formed graph are joined without a lapse. -/
theorem joinAlike_eq (wf : g.WellFormed) (permutes : ∀ groups, (shuffle groups).Perm groups) :
    ∃ q, joinAlike shuffle g = .ok q ∧ g.joinAlike = .ok q := by
  cases set : g.start with
  | none => exact ⟨{}, by rw [joinAlike, set], by rw [Graph.joinAlike, set]⟩
  | some start =>
    have cong := Graph.congruence_stabilize wf g.divides_finality
    have heads := head?_filter_classOf_stabilize g g.finality
    obtain ⟨classes, settled, agrees⟩ := settle_eq wf permutes (g.states.size + 1)
      g.divides_finality (agrees_finality g) (by omega)
    obtain ⟨q, built, -⟩ := cong.quotient_ok wf
    refine ⟨q, ?_, by rw [Graph.joinAlike, set]; exact built⟩
    -- Only this is needed of the classes that are left in the end.
    generalize g.stabilize g.finality = p at cong heads settled agrees built
    have known := wf.start_mem start set
    obtain ⟨number, placed⟩ := cong.total start known
    obtain ⟨q', looped, begins⟩ := exists_addClasses_eq set placed built
    have found : (Lapse.noClass start).unlessFound (classes.lookup start) = .ok number := by
      rw [agrees start known, placed, Lapse.unlessFound_some]
    have made : (Lapse.noState number).unlessFound (List.range p.count)[number]? = .ok number := by
      rw [List.getElem?_range (cong.class_lt start number placed), Lapse.unlessFound_some]
    have marked : (q'.setStart number).mapError Lapse.refused = .ok q := by
      rw [begins]
      rfl
    rw [joinAlike, set]
    refine Outcome.bind_ok settled ?_
    dsimp only
    rw [Partition.length_groups, createStates_blank]
    exact Outcome.bind_ok (addClasses_eq wf cong agrees heads looped)
      (Outcome.bind_ok found (Outcome.bind_ok made marked))

/-- A well-formed graph is minimized without a lapse, with at most one nested call. -/
theorem minimize_eq {g : Graph} (wf : g.WellFormed)
    (permutes : ∀ groups, (shuffle groups).Perm groups) :
    ∃ q, minimize shuffle 2 g = .ok q ∧ g.minimize = .ok q := by
  cases choice : g.isNondeterministic with
  | false =>
    obtain ⟨q, joined, same⟩ := joinAlike_eq wf permutes
    refine ⟨q, ?_, (Graph.minimize_eq_of_deterministic (Graph.deterministic_iff.mpr choice)).trans
      same⟩
    rw [minimize, choice]
    exact joined
  | true =>
    obtain ⟨d, determined, same⟩ := determinize_eq wf
    obtain ⟨d', determined', wf', det, -⟩ := Graph.determinize_ok wf
    cases same.symm.trans determined'
    obtain ⟨q, joined, joined'⟩ := joinAlike_eq wf' permutes
    refine ⟨q, ?_, (Graph.minimize_eq_of_nondeterministic choice same).trans joined'⟩
    -- The graph that has been made deterministic is not made deterministic once more.
    have nested : minimize shuffle 1 d = .ok q := by
      rw [minimize, Graph.deterministic_iff.mp det]
      exact joined
    rw [minimize, choice, if_pos rfl]
    exact Outcome.bind_ok determined nested

end Checked

namespace Graph

/--
No conversion of a graph that can be reached lapses when everything it looks up is checked.

No operation on a graph is refused, and a new state has the number of the place of its set.
Sets are found for all states that wait, and classes for all states, targets and the start.
All classes have members, and states are found for all classes that edges or the start ask for.
This does not depend on the order in which the classes come out of their table.
-/
theorem checked_conversions_eq {g : Graph} (reachable : g.Reachable)
    {shuffle : List (List State) → List (List State)}
    (permutes : ∀ groups, (shuffle groups).Perm groups) :
    (∃ d, Checked.determinize g = .ok d ∧ g.determinize = .ok d) ∧
      ∃ q, Checked.minimize shuffle 2 g = .ok q ∧ g.minimize = .ok q :=
  ⟨Checked.determinize_eq reachable.wellFormed, Checked.minimize_eq reachable.wellFormed permutes⟩

/-- A merged graph with choices and with gaps in its numbers is converted without a lapse. -/
theorem checked_conversions_eq_gaps : ∃ g : Graph, g.Reachable ∧ g.isNondeterministic = true ∧
    g.states.toList = [0, 1, 4, 5, 6] ∧ (∀ groups : List (List State), groups.reverse.Perm groups) ∧
    (∃ d, Checked.determinize g = .ok d ∧ g.determinize = .ok d) ∧
      ∃ q, Checked.minimize List.reverse 2 g = .ok q ∧ g.minimize = .ok q := by
  have reachable : Reachable _ := ⟨[.newBuilder "b", .literal "b" 'a' "g",
    .literal "b" 'x' "unused", .literal "b" 'b' "h", .merge "g" "h", .createStates "g" 1,
    .addEdge "g" ⟨1, .epsilon, 4⟩, .addEdge "g" ⟨4, .char 'b', 4⟩, .addEdge "g" ⟨6, .char 'a', 0⟩,
    .markFinal "g" 5], "g", rfl⟩
  have permutes : ∀ groups : List (List State), groups.reverse.Perm groups := List.reverse_perm
  -- Numbers that the builder has used for another graph are missing among the states.
  exact ⟨_, reachable, by decide, by decide, permutes, checked_conversions_eq reachable permutes⟩

end Graph

end PatternAutomata
