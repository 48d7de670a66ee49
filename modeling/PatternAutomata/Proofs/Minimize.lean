import Mathlib.Data.Finset.Card
import PatternAutomata.Minimize
import PatternAutomata.Proofs.Determinize
import PatternAutomata.Proofs.Kept
import PatternAutomata.Proofs.Partition

/-! Classes that are not split any further can stand for their states. -/

namespace PatternAutomata

namespace Graph

variable {g : Graph} {p : Partition}

/-- What holds of a division of states at all times while it is refined. -/
structure Divides (g : Graph) (p : Partition) : Prop where
  /-- Every state has a class. -/
  total : ∀ s ∈ g.states, ∃ number, p.classOf s = some number
  /-- Final states share no class with others. -/
  finality : ∀ s ∈ g.states, ∀ t ∈ g.states, p.classOf s = p.classOf t →
    (s ∈ g.finals ↔ t ∈ g.finals)
  /-- No more classes have been counted than there are. -/
  counted : p.count ≤ (g.states.toList.toFinset.image p.classOf).card

/-- States of one class lead to the same classes. -/
def Stable (g : Graph) (p : Partition) : Prop :=
  -- Also a missing successor counts, so that it is missing for all of a class.
  ∀ s ∈ g.states, ∀ t ∈ g.states, p.classOf s = p.classOf t →
    ∀ c, (g.successor? s c).bind p.classOf = (g.successor? t c).bind p.classOf

/-- At first the class of a state says whether it is final. -/
theorem classOf_finality {s : State} (member : s ∈ g.states) :
    g.finality.classOf s = some (if g.isFinal s then 1 else 0) :=
  Partition.lookup_map member

/-- The division at first keeps final states apart from others. -/
theorem divides_finality (g : Graph) : g.Divides g.finality where
  total s member := ⟨_, classOf_finality member⟩
  finality s left t right same := by
    rw [classOf_finality left, classOf_finality right] at same
    -- There are two classes at most, one for final states and one for the others.
    by_cases source : s ∈ g.finals <;> by_cases target : t ∈ g.finals <;>
      simp [isFinal, source, target] at same ⊢
  counted := Nat.zero_le _

/-- States of one class after a refinement have the same signature. -/
theorem classOf_refine_eq_iff {s t : State} (left : s ∈ g.states) (right : t ∈ g.states) :
    (g.refine p).classOf s = (g.refine p).classOf t ↔ g.signature p s = g.signature p t :=
  Partition.classOf_byKey_eq_iff left right

/-- A refinement only splits classes. -/
theorem classOf_eq_of_refine {s t : State} (left : s ∈ g.states) (right : t ∈ g.states)
    (same : (g.refine p).classOf s = (g.refine p).classOf t) : p.classOf s = p.classOf t :=
  congrArg Prod.fst ((classOf_refine_eq_iff left right).mp same)

/-- Refining keeps a division in order. -/
theorem Divides.refine (divides : g.Divides p) : g.Divides (g.refine p) where
  total _ member := ⟨_, Partition.classOf_byKey member⟩
  -- States that are in one class after a round have been in one class before.
  finality s left t right same :=
    divides.finality s left t right (classOf_eq_of_refine left right same)
  counted := Nat.le_of_eq (Partition.count_byKey_eq_card_classOf _ _)

/-- If a refinement does not have more classes, states of one class had the same signature. -/
theorem Divides.signature_eq (divides : g.Divides p) (settled : (g.refine p).count ≤ p.count)
    {s t : State} (left : s ∈ g.states) (right : t ∈ g.states)
    (same : p.classOf s = p.classOf t) : g.signature p s = g.signature p t := by
  -- Taking the class out of a signature loses no signature, since there are as many classes.
  let signatures := g.states.toList.toFinset.image (g.signature p)
  have classes : signatures.image Prod.fst = g.states.toList.toFinset.image p.classOf :=
    Finset.image_image
  have counted : signatures.card ≤ p.count := by
    have exact_ := Partition.count_byKey g.states.toList (g.signature p)
    exact exact_ ▸ settled
  have enough : (signatures.image Prod.fst).card = signatures.card := by
    refine Nat.le_antisymm Finset.card_image_le ?_
    rw [classes]
    exact Nat.le_trans counted divides.counted
  have inside : ∀ u ∈ g.states, g.signature p u ∈ signatures := fun u member =>
    Finset.mem_image_of_mem _ (List.mem_toFinset.mpr member)
  exact Finset.injOn_of_card_image_eq enough (inside s left) (inside t right) same

/-- What has one class, if anything, is missing on both sides or on neither. -/
theorem Divides.of_bind_classOf_eq (divides : g.Divides p) {first second : Option State}
    (left : ∀ u ∈ first, u ∈ g.states) (right : ∀ v ∈ second, v ∈ g.states)
    (same : first.bind p.classOf = second.bind p.classOf) :
    (first = none ∧ second = none) ∨
      ∃ u v, first = some u ∧ second = some v ∧ p.classOf u = p.classOf v := by
  -- Every state has a class, so a missing class is that of a missing state.
  cases first with
  | none =>
    cases second with
    | none => exact Or.inl ⟨rfl, rfl⟩
    | some v =>
      obtain ⟨number, placed⟩ := divides.total v (right v rfl)
      simp [placed] at same
  | some u =>
    cases second with
    | none =>
      obtain ⟨number, placed⟩ := divides.total u (left u rfl)
      simp [placed] at same
    | some v => exact Or.inr ⟨u, v, rfl, rfl, same⟩

/-- If a refinement does not have more classes, what was in one class still is. -/
theorem Divides.bind_classOf_eq (divides : g.Divides p) (settled : (g.refine p).count ≤ p.count)
    {first second : Option State} (left : ∀ u ∈ first, u ∈ g.states)
    (right : ∀ v ∈ second, v ∈ g.states) (same : first.bind p.classOf = second.bind p.classOf) :
    first.bind (g.refine p).classOf = second.bind (g.refine p).classOf := by
  -- Successors are missing on both sides, or are in one class on both sides.
  rcases divides.of_bind_classOf_eq left right same with ⟨rfl, rfl⟩ | ⟨u, v, rfl, rfl, class_⟩
  · rfl
  · have signatures := divides.signature_eq settled (left u rfl) (right v rfl) class_
    exact (classOf_refine_eq_iff (left u rfl) (right v rfl)).mpr signatures

/-- The successor of a state is a state. -/
theorem WellFormed.successor?_mem (wf : g.WellFormed) (s : State) (c : Char) :
    ∀ u ∈ g.successor? s c, u ∈ g.states := fun _ next =>
  wf.target_mem _ (edge_of_successor? next)

/-- A refinement without more classes is stable. -/
theorem Divides.stable_refine (wf : g.WellFormed) (divides : g.Divides p)
    (settled : (g.refine p).count ≤ p.count) : g.Stable (g.refine p) := by
  intro s left t right same c
  have signatures := (classOf_refine_eq_iff left right).mp same
  by_cases letter : c ∈ g.alphabet
  · have entries := congrArg Prod.snd signatures
    have entry : (g.successor? s c).bind p.classOf = (g.successor? t c).bind p.classOf :=
      List.map_inj_left.mp entries c letter
    exact divides.bind_classOf_eq settled (wf.successor?_mem s c) (wf.successor?_mem t c) entry
  · -- No edge has a character from outside the alphabet.
    have foreign : ∀ u, g.successor? u c = none := fun u =>
      successor?_eq_none.mpr fun v edge => letter ((wf.alphabet_iff c).mpr ⟨_, edge, rfl⟩)
    rw [foreign s, foreign t]

/-- A division whose classes can stand for their states. -/
structure Congruence (g : Graph) (p : Partition) : Prop extends Divides g p where
  /-- States of one class lead to the same classes. -/
  stable : g.Stable p
  /-- Classes are numbered below their count. -/
  class_lt : ∀ s number, p.classOf s = some number → number < p.count
  /-- Only states of the graph have a class. -/
  mem_of_classOf : ∀ s number, p.classOf s = some number → s ∈ g.states
  /-- A class is represented by one of its states. -/
  classOf_representative : ∀ number s, p.representative number = some s →
    p.classOf s = some number
  /-- Every number below the count is that of a class with a representative. -/
  represented : ∀ number, number < p.count → ∃ s, p.representative number = some s

/-- A refinement without more classes is a congruence. -/
theorem Divides.congruence_refine (wf : g.WellFormed) (divides : g.Divides p)
    (settled : (g.refine p).count ≤ p.count) : g.Congruence (g.refine p) where
  -- Only stability needs the count, since classes by keys have the rest in any case.
  toDivides := divides.refine
  stable := divides.stable_refine wf settled
  class_lt _ _ placed := Partition.classOf_byKey_lt placed
  mem_of_classOf _ _ placed := Partition.mem_of_classOf_byKey placed
  classOf_representative _ _ chosen := Partition.classOf_representative_byKey chosen
  represented _ below := Partition.exists_representative_byKey below

/--
Refining ends with the refinement of a partition that has as many classes already.

Whatever each refinement preserves holds of that partition.
-/
theorem exists_stabilize_eq (Inv : Partition → Prop) (onward : ∀ p, Inv p → Inv (g.refine p))
    (initial : Inv p) :
    ∃ last, Inv last ∧ (g.refine last).count ≤ last.count ∧ g.stabilize p = g.refine last := by
  -- The induction follows the rounds, the last of which has not made more classes.
  induction p using stabilize.induct (g := g) with
  | case1 p refined grown ih =>
    rw [stabilize]
    simp only [show p.count < (g.refine p).count from grown, if_true]
    exact ih (onward p initial)
  | case2 p refined settled =>
    rw [stabilize]
    simp only [show ¬ p.count < (g.refine p).count from settled, if_false]
    exact ⟨p, initial, Nat.le_of_not_lt settled, rfl⟩

/-- Whatever refining ends with is a refinement. -/
theorem exists_refine_eq (g : Graph) (p : Partition) : ∃ last, g.stabilize p = g.refine last := by
  obtain ⟨last, _, _, same⟩ :=
    -- Nothing needs to be kept by the rounds for this.
    exists_stabilize_eq (g := g) (p := p) (fun _ => True) (fun _ _ => trivial) trivial
  exact ⟨last, same⟩

/-- Refining until the number of classes does not grow ends with a congruence. -/
theorem congruence_stabilize (wf : g.WellFormed) (divides : g.Divides p) :
    g.Congruence (g.stabilize p) := by
  -- Each round divides the states as its predecessor did, and the last one adds no class.
  obtain ⟨last, divides, settled, same⟩ :=
    exists_stabilize_eq g.Divides (fun _ => Divides.refine) divides
  rw [same]
  exact divides.congruence_refine wf settled

/-- The edges of a class, which lead where those of its representative lead. -/
def classEdges (g : Graph) (p : Partition) (number : Nat) (representative : State) : List Edge :=
  -- A character without a successor has no edge.
  g.alphabet.toList.filterMap fun c =>
    ((g.successor? representative c).bind p.classOf).map fun target => ⟨number, .char c, target⟩

/-- Edges of a class are found at its representative. -/
theorem mem_classEdges (wf : g.WellFormed) {number : Nat} {s : State} {edge : Edge} :
    edge ∈ g.classEdges p number s ↔ edge.source = number ∧
      ∃ c, edge.symbol = .char c ∧ (g.successor? s c).bind p.classOf = some edge.target := by
  rw [classEdges, List.mem_filterMap]
  constructor
  · intro listed
    obtain ⟨c, _, placed⟩ := listed
    obtain ⟨target, leads, same⟩ := Option.map_eq_some_iff.mp placed
    subst same
    exact ⟨rfl, c, rfl, leads⟩
  · intro found
    obtain ⟨source, c, reads, leads⟩ := found
    -- A character that stands on an edge is in the alphabet.
    obtain ⟨t, next, _⟩ := Option.bind_eq_some_iff.mp leads
    have letter : c ∈ g.alphabet := (wf.alphabet_iff c).mpr ⟨_, edge_of_successor? next, rfl⟩
    refine ⟨c, letter, ?_⟩
    rw [leads, Option.map_some, ← source, ← reads]

/-- Edges of a class lead to classes. -/
theorem Congruence.target_lt (cong : g.Congruence p) (wf : g.WellFormed) {number : Nat} {s : State}
    {edge : Edge} (listed : edge ∈ g.classEdges p number s) : edge.target < p.count := by
  -- A target is the number of the class of some state.
  obtain ⟨_, c, _, leads⟩ := (mem_classEdges wf).mp listed
  obtain ⟨t, _, placed⟩ := Option.bind_eq_some_iff.mp leads
  exact cong.class_lt t _ placed

/-- The graph of classes with one class added, which is final if its representative is. -/
def withClass (g : Graph) (p : Partition) (q : Graph) (number : Nat) (representative : State) :
    Graph :=
  { q.withEdges (g.classEdges p number representative) with
    -- The representative decides for all of its class.
    finals := if representative ∈ g.finals then insert number q.finals else q.finals }

/-- A class whose number and targets are known is added. -/
theorem addClass_eq {q : Graph} {number : Nat} {s : State}
    (chosen : p.representative number = some s) (known : number ∈ q.states)
    (targets : ∀ edge ∈ g.classEdges p number s,
      edge.source ∈ q.states ∧ edge.target ∈ q.states) :
    g.addClass p q number = .ok (g.withClass p q number s) := by
  -- Going through the alphabet adds the edges that are there, one after the other.
  have looped : g.alphabet.toList.foldlM (g.addClassEdge p number s) q =
      .ok (q.withEdges (g.classEdges p number s)) := by
    rw [← foldlM_addEdge targets, classEdges, List.foldlM_filterMap]
    congr 1
    funext q c
    rw [addClassEdge]
    cases (g.successor? s c).bind p.classOf <;> rfl
  rw [addClass, chosen]
  refine Outcome.bind_ok looped ?_
  by_cases final : s ∈ g.finals
  · have marked := markFinal_eq ((states_withEdges q (g.classEdges p number s)).symm ▸ known)
    simp only [isFinal, final, decide_true, if_true, marked, withClass, finals_withEdges]
  · simp only [isFinal, final, decide_false, withClass, if_false]
    rw [← finals_withEdges q (g.classEdges p number s)]
    rfl

/-- What holds of the graph of classes when some classes have been added to it. -/
structure ClassesAdded (g : Graph) (p : Partition) (before : List Nat) (q : Graph) : Prop where
  /-- The graph is well formed. -/
  wf : q.WellFormed
  /-- The numbers of classes have been given out. -/
  next_eq : q.next = p.count
  /-- The states are the numbers of classes. -/
  mem_states : ∀ k, k ∈ q.states ↔ k < p.count
  /-- The start has not been set. -/
  start : q.start = none
  /-- Classes are final when their representatives are. -/
  mem_finals : ∀ k, k ∈ q.finals ↔
    k ∈ before ∧ ∃ s, p.representative k = some s ∧ s ∈ g.finals
  /-- The edges are those of representatives. -/
  mem_edges : ∀ edge, edge ∈ q.edges ↔ edge.source ∈ before ∧
    ∃ s, p.representative edge.source = some s ∧ edge ∈ g.classEdges p edge.source s

/-- What holds of a number for its representative holds of it for some representative. -/
private theorem eq_and_exists_iff {number k : Nat} {s : State} {P : State → Prop}
    (chosen : p.representative number = some s) :
    (k = number ∧ ∃ s', p.representative k = some s' ∧ P s') ↔ k = number ∧ P s := by
  -- The representative that is found is the one that was chosen.
  constructor
  · intro found
    obtain ⟨same, s', chosen', holds⟩ := found
    rw [same, chosen] at chosen'
    cases chosen'
    exact ⟨same, holds⟩
  · intro found
    exact ⟨found.1, s, found.1 ▸ chosen, found.2⟩

/-- One more class can be added. -/
theorem ClassesAdded.add (cong : g.Congruence p) (wf : g.WellFormed) {before : List Nat} {q : Graph}
    (added : g.ClassesAdded p before q) {number : Nat} (below : number < p.count) :
    ∃ q', g.addClass p q number = .ok q' ∧ g.ClassesAdded p (before ++ [number]) q' := by
  obtain ⟨s, chosen⟩ := cong.represented number below
  have known : number ∈ q.states := (added.mem_states number).mpr below
  have targets : ∀ edge ∈ g.classEdges p number s,
      edge.source ∈ q.states ∧ edge.target ∈ q.states := by
    intro edge listed
    have source := ((mem_classEdges wf).mp listed).1
    exact ⟨source ▸ known, (added.mem_states _).mpr (cong.target_lt wf listed)⟩
  have grown := added.wf.withEdges targets
  have next : (q.withEdges (g.classEdges p number s)).next = p.count :=
    (next_withEdges q _).trans added.next_eq
  refine ⟨_, addClass_eq chosen known targets, ?_, next, fun k => ?_, ?_, fun k => ?_,
    fun edge => ?_⟩
  · -- At most the new class has become final, and it is a state.
    refine { grown with finals_mem := fun k final => ?_ }
    have final : k ∈ (if s ∈ g.finals then insert number q.finals else q.finals) := final
    show k ∈ (q.withEdges _).states
    rw [states_withEdges]
    split at final
    · rcases SortedSet.mem_insert.mp final with same | old
      · exact same ▸ known
      · exact added.wf.finals_mem k old
    · exact added.wf.finals_mem k final
  · show k ∈ (q.withEdges _).states ↔ _
    rw [states_withEdges, added.mem_states]
  · exact (start_withEdges q _).trans added.start
  · -- The class is final exactly if its representative is.
    have split_ : k ∈ (if s ∈ g.finals then insert number q.finals else q.finals) ↔
        k ∈ q.finals ∨ k = number ∧ s ∈ g.finals := by
      by_cases final : s ∈ g.finals <;> simp [final, or_comm]
    show k ∈ (if s ∈ g.finals then insert number q.finals else q.finals) ↔ _
    rw [split_, added.mem_finals, List.mem_append, List.mem_singleton, or_and_right,
      eq_and_exists_iff chosen]
  · -- The new edges are those that leave the new class.
    show edge ∈ (q.withEdges _).edges ↔ _
    have own : edge ∈ g.classEdges p number s ↔
        edge.source = number ∧ edge ∈ g.classEdges p edge.source s := by
      constructor
      · intro listed
        have source := ((mem_classEdges wf).mp listed).1
        exact ⟨source, source ▸ listed⟩
      · intro listed
        exact listed.1 ▸ listed.2
    rw [mem_edges_withEdges, added.mem_edges, own, List.mem_append, List.mem_singleton,
      or_and_right, eq_and_exists_iff chosen]

/-- What a graph of classes consists of once all classes have been added. -/
structure IsQuotient (g : Graph) (p : Partition) (q : Graph) : Prop where
  /-- The graph is well formed. -/
  wf : q.WellFormed
  /-- The numbers of classes have been given out. -/
  next_eq : q.next = p.count
  /-- The states are the numbers of classes. -/
  mem_states : ∀ k, k ∈ q.states ↔ k < p.count
  /-- The start is the class of the start. -/
  start : q.start = g.start.bind p.classOf
  /-- Classes are final when their representatives are. -/
  mem_finals : ∀ k, k ∈ q.finals ↔ ∃ s, p.representative k = some s ∧ s ∈ g.finals
  /-- The edges are those of representatives. -/
  mem_edges : ∀ edge, edge ∈ q.edges ↔
    ∃ s, p.representative edge.source = some s ∧ edge ∈ g.classEdges p edge.source s

/-- The graph of the classes of a congruence can be built. -/
theorem Congruence.quotient_ok (cong : g.Congruence p) (wf : g.WellFormed) :
    ∃ q, g.quotient p = .ok q ∧ g.IsQuotient p q := by
  -- At first there are all states and nothing else.
  have numbers : (Graph.createStates {} p.count).1 = List.range' 0 p.count :=
    createStates_numbers ..
  have initial : g.ClassesAdded p [] (Graph.createStates {} p.count).2 := by
    obtain ⟨edges, start, finals, _⟩ := createStates_frame {} p.count
    have created := kept_wellFormed.createStates (WellFormed.blank 0) p.count
    refine ⟨created, ?_, fun k => ?_, start, fun k => ?_, fun edge => ?_⟩
    · exact (createStates_next {} p.count).trans (Nat.zero_add _)
    · rw [mem_createStates]
      simp
    · rw [finals]
      simp
    · rw [edges]
      simp
  obtain ⟨q, looped, added⟩ := Outcome.foldlM_ok (g.addClass p) (g.ClassesAdded p)
    (List.range' 0 p.count) initial fun _ number member _ added =>
      added.add cong wf (by simpa using member)
  have all : ∀ k s, p.representative k = some s → k ∈ List.range' 0 p.count := fun k s chosen => by
    simpa using cong.class_lt s k (cong.classOf_representative k s chosen)
  have finals : ∀ k, k ∈ q.finals ↔ ∃ s, p.representative k = some s ∧ s ∈ g.finals := fun k => by
    rw [added.mem_finals, and_iff_right_iff_imp]
    exact fun final => all k _ final.choose_spec.1
  have edges : ∀ edge, edge ∈ q.edges ↔
      ∃ s, p.representative edge.source = some s ∧ edge ∈ g.classEdges p edge.source s := by
    intro edge
    rw [added.mem_edges, and_iff_right_iff_imp]
    exact fun found => all _ _ found.choose_spec.1
  have unfolded : g.quotient p = q.setStart? (g.start.bind p.classOf) := by
    rw [quotient]
    show (List.foldlM (g.addClass p) _ (Graph.createStates {} p.count).1 >>= _) = _
    rw [numbers, looped]
    rfl
  rw [unfolded]
  cases begins : g.start.bind p.classOf with
  | none =>
    exact ⟨q, rfl, added.wf, added.next_eq, added.mem_states, added.start.trans begins.symm,
      finals, edges⟩
  | some k =>
    obtain ⟨s, _, class_⟩ := Option.bind_eq_some_iff.mp begins
    have set := setStart_eq ((added.mem_states k).mpr (cong.class_lt s k class_))
    exact ⟨_, set, added.wf.setStart set, added.next_eq, added.mem_states, begins.symm, finals,
      edges⟩

/-- Some member of a class represents it. -/
theorem Congruence.exists_representative (cong : g.Congruence p) {s : State} {k : Nat}
    (placed : p.classOf s = some k) :
    ∃ r ∈ g.states, p.representative k = some r ∧ p.classOf r = p.classOf s := by
  obtain ⟨r, chosen⟩ := cong.represented k (cong.class_lt s k placed)
  -- Every number of a class is the number of a state, which represents it.
  have placed' := cong.classOf_representative k r chosen
  exact ⟨r, cong.mem_of_classOf r k placed', chosen, placed'.trans placed.symm⟩

namespace IsQuotient

variable {q : Graph}

/-- A class leads where all of its states lead. -/
theorem mem_edges_iff (quot : g.IsQuotient p q) (cong : g.Congruence p) (wf : g.WellFormed)
    {s : State} {k : Nat} (placed : p.classOf s = some k) {c : Char} {target : Nat} :
    ⟨k, .char c, target⟩ ∈ q.edges ↔ (g.successor? s c).bind p.classOf = some target := by
  -- The representative leads there, and it is in the class of the given state.
  obtain ⟨r, member, chosen, same⟩ := cong.exists_representative placed
  have alike := cong.stable r member s (cong.mem_of_classOf s k placed) same c
  rw [quot.mem_edges, ← alike]
  constructor
  · intro found
    obtain ⟨r', chosen', listed⟩ := found
    obtain ⟨_, d, reads, leads⟩ := (mem_classEdges wf).mp listed
    cases reads
    cases chosen.symm.trans chosen'
    exact leads
  · intro leads
    exact ⟨r, chosen, (mem_classEdges wf).mpr ⟨rfl, c, rfl, leads⟩⟩

/-- A class is final exactly if its members are. -/
theorem mem_finals_iff (quot : g.IsQuotient p q) (cong : g.Congruence p) {s : State} {k : Nat}
    (placed : p.classOf s = some k) : k ∈ q.finals ↔ s ∈ g.finals := by
  -- The representative decides, and all members of its class agree with it.
  obtain ⟨r, member, chosen, same⟩ := cong.exists_representative placed
  have alike := cong.finality r member s (cong.mem_of_classOf s k placed) same
  rw [quot.mem_finals, chosen]
  simpa using alike

/-- The start is the class of the start. -/
theorem exists_start (quot : g.IsQuotient p q) (cong : g.Congruence p) (wf : g.WellFormed)
    {start : State} (begins : g.start = some start) :
    ∃ k, p.classOf start = some k ∧ q.start = some k := by
  obtain ⟨k, placed⟩ := cong.total start (wf.start_mem start begins)
  -- The class of the start has a number, which becomes the new start.
  refine ⟨k, placed, ?_⟩
  rw [quot.start, begins]
  exact placed

/-- A graph of classes is deterministic. -/
theorem deterministic (quot : g.IsQuotient p q) (wf : g.WellFormed) : q.Deterministic where
  -- A class has one representative, and this has one successor for each character.
  not_silent k target member := by
    obtain ⟨_, _, listed⟩ := (quot.mem_edges _).mp member
    obtain ⟨_, c, reads, _⟩ := (mem_classEdges wf).mp listed
    cases reads
  target_unique k c target target' member member' := by
    obtain ⟨r, chosen, listed⟩ := (quot.mem_edges _).mp member
    obtain ⟨r', chosen', listed'⟩ := (quot.mem_edges _).mp member'
    obtain ⟨_, d, reads, leads⟩ := (mem_classEdges wf).mp listed
    obtain ⟨_, d', reads', leads'⟩ := (mem_classEdges wf).mp listed'
    cases reads
    cases reads'
    cases chosen.symm.trans chosen'
    exact Option.some.inj (leads.symm.trans leads')

/-- The classes keep track of their states. -/
theorem tracks (quot : g.IsQuotient p q) (cong : g.Congruence p) (wf : g.WellFormed)
    (det : g.Deterministic) :
    Tracks q g fun k states => ∃ s, states = {s} ∧ p.classOf s = some k where
  det := quot.deterministic wf
  final_iff k states related := by
    obtain ⟨s, only, placed⟩ := related
    rw [only, quot.mem_finals_iff cong placed]
    simp
  stop k states c related nowhere := by
    obtain ⟨s, only, placed⟩ := related
    rw [only, det.advance_singleton] at nowhere
    refine successor?_eq_none.mpr fun target edge => ?_
    have leads := (quot.mem_edges_iff cong wf placed).mp edge
    obtain ⟨t, next, _⟩ := Option.bind_eq_some_iff.mp leads
    rw [next] at nowhere
    exact SortedSet.eq_empty_iff.mp nowhere t (SortedSet.mem_singleton.mpr rfl)
  onward k states c related somewhere := by
    obtain ⟨s, only, placed⟩ := related
    rw [only, det.advance_singleton] at somewhere ⊢
    cases next : g.successor? s c with
    | none =>
      rw [next] at somewhere
      exact absurd rfl somewhere
    | some t =>
      -- The state that is reached has a class, and the class leads there.
      obtain ⟨target, placed'⟩ := cong.total t (wf.successor?_mem s c t next)
      have edge : ⟨k, .char c, target⟩ ∈ q.edges :=
        (quot.mem_edges_iff cong wf placed).mpr (by rw [next]; exact placed')
      exact ⟨target, (quot.deterministic wf).successor?_eq_some.mpr edge, t, rfl, placed'⟩

end IsQuotient

/-- The states of a deterministic graph with a start are joined to its final classes. -/
theorem joinAlike_eq (wf : g.WellFormed) {start : State} (set : g.start = some start) :
    ∃ q, g.joinAlike = .ok q ∧ g.IsQuotient (g.stabilize g.finality) q := by
  have cong := congruence_stabilize wf g.divides_finality
  obtain ⟨q, built, quot⟩ := cong.quotient_ok wf
  refine ⟨q, ?_, quot⟩
  -- With a start nothing is left to decide.
  rw [joinAlike, set]
  exact built

/-- The states of a deterministic graph can be joined, and the same inputs are accepted then. -/
theorem joinAlike_ok (wf : g.WellFormed) (det : g.Deterministic) :
    ∃ q, g.joinAlike = .ok q ∧ q.WellFormed ∧ q.Deterministic ∧
      ∀ input, q.accepts input = g.accepts input := by
  cases set : g.start with
  | none =>
    -- Without a start the empty graph is given, which accepts nothing either.
    refine ⟨{}, by rw [joinAlike, set], .blank 0, .blank, fun input => ?_⟩
    rw [accepts, accepts, set]
  | some start =>
    obtain ⟨q, joined, quot⟩ := joinAlike_eq wf set
    have cong := congruence_stabilize wf g.divides_finality
    refine ⟨q, joined, quot.wf, quot.deterministic wf, fun input => ?_⟩
    obtain ⟨k, placed, begins⟩ := quot.exists_start cong wf set
    rw [(quot.deterministic wf).accepts_eq begins, det.accepts_eq set,
      (quot.tracks cong wf det).acceptsFrom_eq ⟨start, rfl, placed⟩]

/-- A deterministic graph is minimized as it is. -/
theorem minimize_eq_of_deterministic (det : g.Deterministic) : g.minimize = g.joinAlike := by
  rw [minimize, deterministic_iff.mp det]
  rfl

/-- A graph that leaves a choice is minimized after it has been made deterministic. -/
theorem minimize_eq_of_nondeterministic (choice : g.isNondeterministic = true) {dfa : Graph}
    (determined : g.determinize = .ok dfa) : g.minimize = dfa.joinAlike := by
  rw [minimize, choice, if_pos rfl, determined, Outcome.ok_bind]

/--
Minimizing joins the states of a deterministic graph for the same inputs.

This is the graph itself, or what it becomes when it is made deterministic.
-/
theorem exists_minimize_eq (wf : g.WellFormed) :
    ∃ dfa, (dfa = g ∨ g.determinize = .ok dfa) ∧ g.minimize = dfa.joinAlike ∧ dfa.WellFormed ∧
      dfa.Deterministic ∧ ∀ input, dfa.accepts input = g.accepts input := by
  -- The graph is made deterministic first only where it leaves a choice.
  cases choice : g.isNondeterministic with
  | false =>
    have det := deterministic_iff.mpr choice
    exact ⟨g, Or.inl rfl, minimize_eq_of_deterministic det, wf, det, fun _ => rfl⟩
  | true =>
    obtain ⟨dfa, determined, wf', det, same⟩ := determinize_ok wf
    have joins := minimize_eq_of_nondeterministic choice determined
    exact ⟨dfa, Or.inr determined, joins, wf', det, same⟩

/-- Every well-formed graph can be minimized, and accepts the same inputs then. -/
theorem minimize_ok (wf : g.WellFormed) :
    ∃ q, g.minimize = .ok q ∧ q.WellFormed ∧ q.Deterministic ∧
      ∀ input, q.accepts input = g.accepts input := by
  obtain ⟨dfa, _, joins, wfDfa, det, sameDfa⟩ := exists_minimize_eq wf
  obtain ⟨q, joined, wfMin, detMin, same⟩ := joinAlike_ok wfDfa det
  -- What is accepted is kept by both parts, one after the other.
  refine ⟨q, joins.trans joined, wfMin, detMin, fun input => ?_⟩
  exact (same input).trans (sameDfa input)

end Graph

end PatternAutomata
