import Mathlib.Data.List.Find
import PatternAutomata.Conversion.Checked
import PatternAutomata.Proofs.Partition

/-! The states of classes by keys, listed class by class, and which of them represent a class. -/

namespace PatternAutomata

namespace Partition

variable {Key : Type} [DecidableEq Key] {states : List State} {key : State → Key}

/-- Keys that are written in another way are told apart in the same way. -/
theorem beq_map {Key' : Type} [DecidableEq Key'] {f : Key → Key'} (injective : Function.Injective f)
    (k k' : Key) : (f k == f k') = (k == k') := by
  simp [beq_eq_decide, injective.eq_iff]

/-- Writing keys in another way leads to the same repetitions. -/
theorem eraseDups_map {Key' : Type} [DecidableEq Key'] {f : Key → Key'}
    (injective : Function.Injective f) (keys : List Key) :
    (keys.map f).eraseDups = keys.eraseDups.map f := by
  match keys with
  | [] => rfl
  | k :: rest =>
    -- The head is filtered out of the tail before the tail is treated in the same way.
    have tail := eraseDups_map injective (rest.filter fun other => !other == k)
    have kept : (rest.map f).filter (fun other => !other == f k) =
        (rest.filter fun other => !other == k).map f := by
      simp [List.filter_map, Function.comp_def, beq_map injective]
    rw [List.map_cons, List.eraseDups_cons, kept, tail, List.eraseDups_cons, List.map_cons]
termination_by keys.length
decreasing_by simpa using Nat.lt_succ_of_le (List.length_filter_le ..)

/-- Writing the keys of some states in another way leaves the classes as they are. -/
theorem byKey_eq_of_injective {Key' : Type} [DecidableEq Key'] {key' : State → Key'}
    {f : Key → Key'} (injective : Function.Injective f) (same : ∀ s ∈ states, key' s = f (key s)) :
    byKey states key' = byKey states key := by
  -- The distinct keys are written in the other way as well, and stand at the same places.
  have distinct : (states.map key').eraseDups = (states.map key).eraseDups.map f := by
    rw [← eraseDups_map injective, List.map_map]
    exact congrArg List.eraseDups (List.map_congr_left same)
  have places : (byKey states key').classes = (byKey states key).classes := by
    rw [classes_byKey, classes_byKey, distinct]
    refine List.map_congr_left fun s member => ?_
    simp [same s member, List.idxOf, List.findIdx_map, Function.comp_def, beq_map injective]
  have count : (byKey states key').count = (byKey states key).count := by
    simp [byKey, distinct]
  show Partition.mk (byKey states key').classes (byKey states key').count = byKey states key
  rw [places, count]

/-- The states of each class of a division, in the order of the numbers of the classes. -/
def groups (p : Partition) (states : List State) : List (List State) :=
  (List.range p.count).map fun number => states.filter fun s => p.classOf s = some number

/-- There are as many groups as classes. -/
@[simp] theorem length_groups (p : Partition) (states : List State) :
    (p.groups states).length = p.count := by
  simp [groups]

/-- The group at some place has the states of the class with the number of the place. -/
theorem getElem?_groups_eq_some {p : Partition} {number : Nat} {group : List State} :
    (p.groups states)[number]? = some group ↔ number < p.count ∧
      group = states.filter fun s => p.classOf s = some number := by
  -- The numbers below the count are listed in order, and no others.
  rw [groups, List.getElem?_map]
  rcases Nat.lt_or_ge number p.count with below | above
  · rw [List.getElem?_range below, Option.map_some, Option.some_inj, eq_comm]
    exact (and_iff_right below).symm
  · rw [List.getElem?_eq_none (by simpa using above)]
    simp [Nat.not_lt.mpr above]

/-- A state has the key at some place exactly if its class has the number of the place. -/
theorem key_eq_getElem_iff {s : State} (member : s ∈ states) {number : Nat}
    (below : number < (states.map key).eraseDups.length) :
    key s = (states.map key).eraseDups[number] ↔
      (byKey states key).classOf s = some number := by
  -- The distinct keys have no repetitions, so a key stands at one place only.
  have known : key s ∈ (states.map key).eraseDups :=
    List.mem_eraseDups.mpr (List.mem_map_of_mem member)
  rw [classOf_byKey member, Option.some_inj]
  constructor
  · intro same
    rw [same, (nodup_eraseDups _).idxOf_getElem]
  · intro place
    subst place
    exact (List.getElem_idxOf below).symm

/-- Gathering states by their keys gives the groups of the classes by these keys. -/
theorem gather_eq_groups (states : List State) (key : State → Key) :
    Checked.gather (states.map fun s => (key s, s)) = (byKey states key).groups states := by
  have keys : (states.map fun s => (key s, s)).map Prod.fst = states.map key := by simp
  have listed : ∀ k, ((states.map fun s => (key s, s)).filter fun entry => entry.1 = k).map
      Prod.snd = states.filter fun s => key s = k := by
    intro k
    simp [List.filter_map, Function.comp_def]
  simp only [Checked.gather, keys, listed, groups]
  -- The groups are compared place by place, and each place is that of a key.
  refine List.ext_getElem (by simp [byKey]) fun number below _ => ?_
  rw [List.length_map] at below
  simp only [List.getElem_map, List.getElem_range]
  refine List.filter_congr fun s member => ?_
  rw [decide_eq_decide]
  exact key_eq_getElem_iff member below

/-- The first state of a class by keys represents it. -/
theorem head?_filter_classOf_byKey (number : Nat) :
    (states.filter fun s => (byKey states key).classOf s = some number).head? =
      (byKey states key).representative number := by
  -- Both search the states from the first one on.
  rw [List.head?_filter, representative, classes_byKey, List.find?_map, Option.map_map]
  have same : states.find? (fun s => (byKey states key).classOf s = some number) =
      states.find? ((fun entry : State × Nat => decide (entry.2 = number)) ∘
        fun s => (s, (states.map key).eraseDups.idxOf (key s))) := by
    refine List.find?_congr fun s member => ?_
    simp [classOf_byKey member]
  rw [same]
  exact (Option.map_id' ..).symm

/-- No state of a class by keys is smaller than the one that represents it. -/
theorem representative_byKey_le (ascending : states.Pairwise (· < ·)) {number : Nat} {s t : State}
    (chosen : (byKey states key).representative number = some s)
    (placed : (byKey states key).classOf t = some number) : s ≤ t := by
  -- The representative is the head of the ascending list of the states of its class.
  rw [← head?_filter_classOf_byKey, List.head?_eq_some_iff] at chosen
  obtain ⟨rest, listed⟩ := chosen
  have ordered := ascending.filter fun s => (byKey states key).classOf s = some number
  have member : t ∈ states.filter fun s => (byKey states key).classOf s = some number :=
    List.mem_filter.mpr ⟨mem_of_classOf_byKey placed, decide_eq_true placed⟩
  rw [listed] at ordered member
  rcases List.mem_cons.mp member with same | later
  · exact Nat.le_of_eq same.symm
  · exact Nat.le_of_lt ((List.pairwise_cons.mp ordered).1 t later)

/-- The representatives of classes by keys are in the order of the numbers of the classes. -/
theorem representative_byKey_lt (ascending : states.Pairwise (· < ·)) {m n : Nat} {s t : State}
    (left : (byKey states key).representative m = some s)
    (right : (byKey states key).representative n = some t) (before : m < n) : s < t := by
  -- Representatives are the smallest states of their classes, by which the classes are numbered.
  have placed := classOf_representative_byKey left
  have placed' := classOf_representative_byKey right
  have least : IsLeast {u | u ∈ states ∧ (byKey states key).classOf u = some m} s :=
    ⟨⟨mem_of_classOf_byKey placed, placed⟩, fun _ member =>
      representative_byKey_le ascending left member.2⟩
  have least' : IsLeast {u | u ∈ states ∧ (byKey states key).classOf u = some n} t :=
    ⟨⟨mem_of_classOf_byKey placed', placed'⟩, fun _ member =>
      representative_byKey_le ascending right member.2⟩
  exact (lt_iff_of_isLeast_byKey ascending least least').mp before

end Partition

end PatternAutomata
