/-! Finite sets kept as strictly ascending lists, so that equal sets are equal values. -/

namespace PatternAutomata

/-- A finite set of ordered elements, held as the strictly ascending list of its elements. -/
structure SortedSet (α : Type) [Ord α] where
  /-- The elements in ascending order. -/
  toList : List α
  /-- No element is listed twice or out of order. -/
  ascending : toList.Pairwise fun a b => compare a b = .lt

namespace SortedSet

variable {α : Type} [Ord α]

/-- Two sets with the same elements listed are the same set. -/
theorem eq_of_toList_eq {s t : SortedSet α} (same : s.toList = t.toList) : s = t := by
  -- The order proofs carry no data.
  cases s
  cases t
  simp_all

/-- Equality of sets is decided on their element lists. -/
instance [DecidableEq α] : DecidableEq (SortedSet α) := fun s t =>
  decidable_of_iff (s.toList = t.toList) ⟨eq_of_toList_eq, congrArg toList⟩

/-- The set without elements. -/
instance : EmptyCollection (SortedSet α) := ⟨⟨[], .nil⟩⟩

/-- An unspecified set is taken to be empty. -/
instance : Inhabited (SortedSet α) := ⟨∅⟩

/-- The set with one element. -/
instance : Singleton α (SortedSet α) := ⟨fun a => ⟨[a], List.pairwise_singleton _ _⟩⟩

/-- An element belongs to a set when it is listed. -/
instance : Membership α (SortedSet α) := ⟨fun s a => a ∈ s.toList⟩

/-- Membership is decided by searching the list. -/
instance [DecidableEq α] (a : α) (s : SortedSet α) : Decidable (a ∈ s) :=
  inferInstanceAs (Decidable (a ∈ s.toList))

/-- What all elements have is decided by going through the list. -/
instance {P : α → Prop} [DecidablePred P] (s : SortedSet α) : Decidable (∀ a ∈ s, P a) :=
  inferInstanceAs (Decidable (∀ a ∈ s.toList, P a))

/-- The number of elements. -/
def size (s : SortedSet α) : Nat := s.toList.length

/-- The elements that satisfy a test. -/
def filter (test : α → Bool) (s : SortedSet α) : SortedSet α :=
  ⟨s.toList.filter test, s.ascending.filter test⟩

/-- Listing the elements and being a member agree. -/
@[simp] theorem mem_toList {a : α} {s : SortedSet α} : a ∈ s.toList ↔ a ∈ s := Iff.rfl

/-- The empty set lists nothing. -/
@[simp] theorem toList_empty : (∅ : SortedSet α).toList = [] := rfl

/-- A singleton lists its element. -/
@[simp] theorem toList_singleton (a : α) : ({a} : SortedSet α).toList = [a] := rfl

/-- Nothing belongs to the empty set. -/
@[simp] theorem not_mem_empty (a : α) : a ∉ (∅ : SortedSet α) := List.not_mem_nil

/-- A singleton has its element and no other. -/
@[simp] theorem mem_singleton {a b : α} : a ∈ ({b} : SortedSet α) ↔ a = b := List.mem_singleton

/-- Singletons of different elements are different. -/
@[simp] theorem singleton_inj {a b : α} : ({a} : SortedSet α) = {b} ↔ a = b := by
  refine ⟨fun same => ?_, fun same => same ▸ rfl⟩
  simpa using congrArg toList same

/-- A singleton is not empty. -/
@[simp] theorem singleton_ne_empty (a : α) : ({a} : SortedSet α) ≠ ∅ := fun none => by
  simpa using congrArg toList none

/-- The empty set is no singleton. -/
@[simp] theorem empty_ne_singleton (a : α) : ∅ ≠ ({a} : SortedSet α) :=
  (singleton_ne_empty a).symm

/-- Filtering keeps the elements that pass. -/
@[simp] theorem mem_filter {a : α} {test : α → Bool} {s : SortedSet α} :
    a ∈ s.filter test ↔ a ∈ s ∧ test a = true := List.mem_filter

/-- Only the empty set has no elements. -/
theorem eq_empty_iff {s : SortedSet α} : s = ∅ ↔ ∀ a, a ∉ s := by
  -- A list without members is the empty list.
  constructor
  · rintro rfl
    exact not_mem_empty
  · intro none
    exact eq_of_toList_eq (List.eq_nil_iff_forall_not_mem.mpr none)

/-- A set that is not empty has an element. -/
theorem ne_empty_iff {s : SortedSet α} : s ≠ ∅ ↔ ∃ a, a ∈ s := by
  simp [eq_empty_iff]

/-- Puts an element into its place in an ascending list, unless the list has it already. -/
def insertAscending (a : α) : List α → List α
  | [] => [a]
  | b :: rest =>
    -- An element that is there already is not put in a second time.
    match compare a b with
    | .lt => a :: b :: rest
    | .eq => b :: rest
    | .gt => b :: insertAscending a rest

variable [Std.TransOrd α] [Std.LawfulEqOrd α]

omit [Std.TransOrd α] in
/-- Insertion adds one element and loses none. -/
theorem mem_insertAscending {a c : α} {list : List α} :
    c ∈ insertAscending a list ↔ c = a ∨ c ∈ list := by
  -- Only the case of an element found in place needs equality of equal ranks.
  induction list with
  | nil => simp [insertAscending]
  | cons b rest ih =>
    rw [insertAscending]
    split
    · simp
    · rename_i equal
      have same : a = b := Std.LawfulEqOrd.eq_of_compare equal
      subst same
      simp
    · simp only [List.mem_cons, ih]
      constructor
      · rintro (rfl | rfl | later)
        · exact Or.inr (Or.inl rfl)
        · exact Or.inl rfl
        · exact Or.inr (Or.inr later)
      · rintro (rfl | rfl | later)
        · exact Or.inr (Or.inl rfl)
        · exact Or.inl rfl
        · exact Or.inr (Or.inr later)

/-- Insertion keeps the list strictly ascending. -/
theorem pairwise_insertAscending (a : α) {list : List α}
    (ascending : list.Pairwise fun b c => compare b c = .lt) :
    (insertAscending a list).Pairwise fun b c => compare b c = .lt := by
  -- The new element is compared with each head until it is smaller or equal.
  induction list with
  | nil => simp [insertAscending]
  | cons b rest ih =>
    obtain ⟨below, later⟩ := List.pairwise_cons.mp ascending
    rw [insertAscending]
    split
    · rename_i smaller
      refine List.pairwise_cons.mpr ⟨?_, ascending⟩
      intro c member
      rcases List.mem_cons.mp member with rfl | member
      · exact smaller
      · exact Std.TransCmp.lt_trans smaller (below c member)
    · exact ascending
    · rename_i larger
      refine List.pairwise_cons.mpr ⟨?_, ih later⟩
      intro c member
      rcases mem_insertAscending.mp member with rfl | member
      · exact Std.OrientedCmp.gt_iff_lt.mp larger
      · exact below c member

/-- Adds one element. -/
instance : Insert α (SortedSet α) :=
  ⟨fun a s => ⟨insertAscending a s.toList, pairwise_insertAscending a s.ascending⟩⟩

/-- Adds the elements of the left set to the right one, the largest first. -/
instance : Union (SortedSet α) := ⟨fun s t => s.toList.foldr insert t⟩

/-- The set of the elements of a list in any order. -/
def ofList (list : List α) : SortedSet α := list.foldr insert ∅

/-- Insertion adds exactly the inserted element. -/
@[simp] theorem mem_insert {a c : α} {s : SortedSet α} : c ∈ insert a s ↔ c = a ∨ c ∈ s :=
  mem_insertAscending

/-- Inserting all elements of a list adds exactly those. -/
private theorem mem_foldr_insert {c : α} {list : List α} {s : SortedSet α} :
    c ∈ list.foldr insert s ↔ c ∈ list ∨ c ∈ s := by
  -- Each step contributes the head of the list.
  induction list with
  | nil => simp
  | cons a rest ih => simp [ih, or_assoc]

/-- A union has the elements of both sets. -/
@[simp] theorem mem_union {c : α} {s t : SortedSet α} : c ∈ s ∪ t ↔ c ∈ s ∨ c ∈ t :=
  mem_foldr_insert

/-- The set of a list has the members of that list. -/
@[simp] theorem mem_ofList {c : α} {list : List α} : c ∈ ofList list ↔ c ∈ list := by
  -- The fold starts from the empty set.
  simp [ofList, mem_foldr_insert]

omit [Std.TransOrd α] [Std.LawfulEqOrd α] in
/-- A set lists no element twice. -/
theorem nodup_toList [Std.ReflOrd α] (s : SortedSet α) : s.toList.Nodup := by
  -- An element is never smaller than itself.
  refine s.ascending.imp ?_
  rintro a b smaller rfl
  simp at smaller

omit [Std.LawfulEqOrd α] in
/-- Sets with the same members are equal. -/
@[ext] theorem ext {s t : SortedSet α} (same : ∀ a, a ∈ s ↔ a ∈ t) : s = t := by
  -- The lists are permutations of each other, and a strict order admits only one arrangement.
  refine eq_of_toList_eq (List.Perm.eq_of_pairwise ?_ s.ascending t.ascending ?_)
  · intro a b _ _ smaller larger
    exact absurd larger (Std.OrientedCmp.not_lt_of_lt smaller)
  · exact (List.perm_ext_iff_of_nodup s.nodup_toList t.nodup_toList).mpr same

/-- The empty set adds nothing to a set. -/
@[simp] theorem union_empty (s : SortedSet α) : s ∪ ∅ = s := by
  ext a
  simp

/-- Two sets may be united in either order. -/
theorem union_comm (s t : SortedSet α) : s ∪ t = t ∪ s := by
  ext a
  simp [or_comm]

/-- Of three sets any two that are neighbours may be united first. -/
theorem union_assoc (s t u : SortedSet α) : s ∪ t ∪ u = s ∪ (t ∪ u) := by
  ext a
  simp [or_assoc]

end SortedSet

end PatternAutomata
