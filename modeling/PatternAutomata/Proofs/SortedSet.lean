import Mathlib.Data.List.Sublists
import Mathlib.Order.Bounds.Defs
import PatternAutomata.SortedSet

/-! How many elements and how many subsets a set has, and which element a search of it finds. -/

namespace PatternAutomata

namespace SortedSet

variable {α : Type} [Ord α] [Std.TransOrd α] [DecidableEq α]

/-- The elements of a subset are listed in the order in which the whole set lists them. -/
theorem toList_sublist {s t : SortedSet α} (inside : ∀ a ∈ t, a ∈ s) :
    t.toList.Sublist s.toList := by
  -- Filtering the whole set by membership in the subset gives the subset back.
  have same : t = s.filter (· ∈ t) := by
    apply SortedSet.ext
    intro a
    simp only [mem_filter, decide_eq_true_eq]
    exact ⟨fun member => ⟨inside a member, member⟩, fun both => both.2⟩
  rw [same]
  exact List.filter_sublist

/-- No list of distinct subsets is longer than the number of all subsets. -/
theorem length_le_two_pow {s : SortedSet α} {sets : List (SortedSet α)} (distinct : sets.Nodup)
    (inside : ∀ t ∈ sets, ∀ a ∈ t, a ∈ s) : sets.length ≤ Nat.pow 2 s.size := by
  -- The element lists are distinct sublists of the elements of the whole set.
  have lists : (sets.map toList).Nodup := distinct.map fun _ _ => eq_of_toList_eq
  have among : sets.map toList ⊆ s.toList.sublists := by
    intro list member
    obtain ⟨t, present, same⟩ := List.mem_map.mp member
    rw [List.mem_sublists, ← same]
    exact toList_sublist (inside t present)
  have bounded := (List.subperm_of_subset lists among).length_le
  rw [List.length_map, List.length_sublists] at bounded
  exact bounded

omit [DecidableEq α] in
/-- A set has as many elements as a list of them without repetitions. -/
theorem size_eq_length {s : SortedSet α} {list : List α} (distinct : list.Nodup)
    (same : ∀ a, a ∈ s ↔ a ∈ list) : s.size = list.length :=
  ((List.perm_ext_iff_of_nodup s.nodup_toList distinct).mpr same).length_eq

omit [DecidableEq α] in
/-- New elements add their number to that of the old ones. -/
theorem size_eq_add {s t : SortedSet α} {list : List α} (distinct : list.Nodup)
    (fresh : ∀ a ∈ list, a ∉ t) (same : ∀ a, a ∈ s ↔ a ∈ t ∨ a ∈ list) :
    s.size = t.size + list.length := by
  -- The old elements and the new ones are listed without repetitions.
  rw [size_eq_length (List.nodup_append'.mpr ⟨t.nodup_toList, distinct, fun a old new => ?_⟩)
    fun a => (same a).trans (by simp), List.length_append]
  · rfl
  · exact fresh a new old

omit [DecidableEq α] in
/-- A set has several elements exactly if two of them differ. -/
theorem one_lt_size_iff {s : SortedSet α} : 1 < s.size ↔ ∃ a ∈ s, ∃ b ∈ s, b ≠ a := by
  have distinct := s.nodup_toList
  simp only [size, ← mem_toList]
  -- What comes first in a list without repetitions differs from what comes second.
  generalize s.toList = list at distinct ⊢
  rcases list with _ | ⟨a, _ | ⟨b, rest⟩⟩
  · simp
  · simp
  · have differ : b ≠ a := by
      rintro rfl
      exact (List.nodup_cons.mp distinct).1 List.mem_cons_self
    exact iff_of_true (by simp) ⟨a, by simp, b, by simp, differ⟩

/-- A set of numbers is searched from the smallest one on. -/
theorem find?_eq_some_iff {s : SortedSet Nat} {test : Nat → Bool} {n : Nat} :
    s.toList.find? test = some n ↔ IsLeast {k | k ∈ s ∧ test k = true} n := by
  have sorted : s.toList.Pairwise (· < ·) :=
    s.ascending.imp fun smaller => Nat.compare_eq_lt.mp smaller
  rw [List.find?_eq_some_iff_append]
  constructor
  · rintro ⟨passes, before, after, whole, failing⟩
    have listed : ∀ k, k ∈ s ↔ k ∈ before ∨ k = n ∨ k ∈ after := by simp [← mem_toList, whole]
    rw [whole, List.pairwise_append, List.pairwise_cons] at sorted
    refine ⟨⟨(listed n).mpr (Or.inr (Or.inl rfl)), passes⟩, fun k ⟨member, passes'⟩ => ?_⟩
    -- What passes does not stand in front, and what stands behind is larger.
    rcases (listed k).mp member with early | same | late
    · have fails := failing k early
      rw [passes'] at fails
      cases fails
    · exact Nat.le_of_eq same.symm
    · exact Nat.le_of_lt (sorted.2.1.1 k late)
  · rintro ⟨⟨member, passes⟩, least⟩
    obtain ⟨before, after, whole⟩ := List.append_of_mem (mem_toList.mpr member)
    rw [whole, List.pairwise_append] at sorted
    refine ⟨passes, before, after, whole, fun k early => ?_⟩
    -- A number in front that passed would be a smaller one.
    have smaller : k < n := sorted.2.2 k early n List.mem_cons_self
    have inside : k ∈ s := by simp [← mem_toList, whole, early]
    rw [Bool.not_eq_true']
    exact Bool.eq_false_iff.mpr fun passes' =>
      absurd smaller (Nat.not_lt.mpr (least ⟨inside, passes'⟩))

end SortedSet

end PatternAutomata
