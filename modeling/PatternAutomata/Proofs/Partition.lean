import Mathlib.Data.Finset.Card
import Mathlib.Data.List.Basic
import Mathlib.Order.Bounds.Basic
import PatternAutomata.Partition

/-! Classes by keys: which states share one, how they are numbered, and how many there are. -/

namespace PatternAutomata

namespace Partition

/-- Leaving out repetitions leaves none behind. -/
theorem nodup_eraseDups {Key : Type} [DecidableEq Key] (keys : List Key) :
    keys.eraseDups.Nodup := by
  -- The head is filtered out of the tail before the tail is treated in the same way.
  match keys with
  | [] => simp
  | k :: rest =>
    have tail := nodup_eraseDups (rest.filter fun other => !other == k)
    rw [List.eraseDups_cons, List.nodup_cons]
    exact ⟨by simp, tail⟩
termination_by keys.length
decreasing_by simpa using Nat.lt_succ_of_le (List.length_filter_le ..)

/-- Where nothing is repeated, nothing is left out. -/
theorem eraseDups_eq_self {Key : Type} [DecidableEq Key] {keys : List Key}
    (distinct : keys.Nodup) : keys.eraseDups = keys := by
  induction keys with
  | nil => rfl
  | cons k rest ih =>
    obtain ⟨unlike, distinct⟩ := List.nodup_cons.mp distinct
    -- The head does not occur in the tail, so filtering it out keeps the whole tail.
    have kept : (rest.filter fun other => !other == k) = rest := by
      rw [List.filter_eq_self]
      intro other member
      have differs : other ≠ k := fun same => unlike (same ▸ member)
      simp [differs]
    rw [List.eraseDups_cons, kept, ih distinct]

variable {Key : Type} [DecidableEq Key] {states : List State} {key : State → Key}

/-- A state is paired with the place of its key among the distinct keys. -/
theorem classes_byKey (states : List State) (key : State → Key) :
    (byKey states key).classes =
      states.map fun s => (s, (states.map key).eraseDups.idxOf (key s)) := by
  -- Numbers are given by the first place of a key in the list of all keys.
  have paired := List.zip_map' (l := states) (f := id)
    (g := fun s => (states.map key).eraseDups.idxOf (key s))
  simpa [byKey, Function.comp_def] using paired

/-- Looking up a state among states that carry a value finds the value. -/
theorem lookup_map {value : State → Nat} {s : State} (member : s ∈ states) :
    (states.map fun t => (t, value t)).lookup s = some (value s) := by
  -- Should a state be listed repeatedly, it carries the same value each time.
  induction states with
  | nil => simp at member
  | cons t rest ih =>
    rw [List.map_cons, List.lookup_cons]
    by_cases same : s = t
    · simp [same]
    · have later : s ∈ rest := by simpa [same] using member
      have differs : (s == t) = false := by simp [same]
      rw [differs]
      exact ih later

/-- The class of a state that takes part is the place of its key. -/
theorem classOf_byKey {s : State} (member : s ∈ states) :
    (byKey states key).classOf s = some ((states.map key).eraseDups.idxOf (key s)) := by
  rw [classOf, classes_byKey, lookup_map member]

/-- A state that does not take part has no class. -/
theorem mem_of_classOf_byKey {s : State} {number : Nat}
    (placed : (byKey states key).classOf s = some number) : s ∈ states := by
  -- What is looked up successfully is listed.
  rw [classOf, classes_byKey, List.lookup_eq_some_iff] at placed
  obtain ⟨before, after, whole, _⟩ := placed
  have listed :
      (s, number) ∈ states.map fun t => (t, (states.map key).eraseDups.idxOf (key t)) := by
    rw [whole]
    simp
  obtain ⟨t, member, same⟩ := List.mem_map.mp listed
  cases same
  exact member

/-- States share a class exactly when they have the same key. -/
theorem classOf_byKey_eq_iff {s t : State} (left : s ∈ states) (right : t ∈ states) :
    (byKey states key).classOf s = (byKey states key).classOf t ↔ key s = key t := by
  -- A key that occurs has a place of its own.
  have known : key s ∈ (states.map key).eraseDups :=
    List.mem_eraseDups.mpr (List.mem_map_of_mem left)
  rw [classOf_byKey left, classOf_byKey right, Option.some_inj, List.idxOf_inj known]

/-- If no two of the first numbers share a key, each is the number of its own class. -/
theorem classOf_byKey_range {count s : Nat} (below : s < count)
    (distinct : ∀ s < count, ∀ t < count, key s = key t → s = t) :
    (byKey (List.range count) key).classOf s = some s := by
  have nodup : ((List.range count).map key).Nodup := by
    refine List.Nodup.map_on (fun s left t right => ?_) List.nodup_range
    exact distinct s (List.mem_range.mp left) t (List.mem_range.mp right)
  -- Nothing is left out, so the key of a number is found at this place.
  have place := nodup.idxOf_getElem s (by simpa using below)
  rw [classOf_byKey (List.mem_range.mpr below), eraseDups_eq_self nodup]
  simpa using place

/-- The numbers of classes are smaller than their count. -/
theorem classOf_byKey_lt {s : State} {number : Nat}
    (placed : (byKey states key).classOf s = some number) :
    number < (byKey states key).count := by
  have member : s ∈ states := mem_of_classOf_byKey placed
  -- The number of a class is the place of its key among all keys.
  rw [classOf_byKey member] at placed
  cases placed
  exact List.idxOf_lt_length_of_mem (List.mem_eraseDups.mpr (List.mem_map_of_mem member))

/-- Every number below the count is the class of some state. -/
theorem exists_classOf_byKey {number : Nat} (below : number < (byKey states key).count) :
    ∃ s ∈ states, (byKey states key).classOf s = some number := by
  -- The key at that place is the key of some state.
  have below : number < (states.map key).eraseDups.length := below
  have listed : (states.map key).eraseDups[number] ∈ states.map key :=
    List.mem_eraseDups.mp (List.getElem_mem below)
  obtain ⟨s, member, same⟩ := List.mem_map.mp listed
  refine ⟨s, member, ?_⟩
  rw [classOf_byKey member, same, (nodup_eraseDups _).idxOf_getElem]

/-- A class in which there is no state up to some place has a larger number than those before it. -/
theorem lt_of_first_byKey (ascending : states.Pairwise (· < ·)) {s t : State} {m n : Nat}
    (left : (byKey states key).classOf s = some m) (right : (byKey states key).classOf t = some n)
    (first : ∀ u ∈ states, key u = key t → t ≤ u) (earlier : s < t) : m < n := by
  have inside := mem_of_classOf_byKey left
  have inside' := mem_of_classOf_byKey right
  rw [classOf_byKey inside, Option.some_inj] at left
  rw [classOf_byKey inside', Option.some_inj] at right
  -- All states in front of the first state of its class are smaller, and have other keys.
  obtain ⟨before, after, rfl⟩ := List.append_of_mem inside'
  obtain ⟨_, later, between⟩ := List.pairwise_append.mp ascending
  have fresh : key t ∉ before.map key := by
    intro known
    obtain ⟨u, member, same⟩ := List.mem_map.mp known
    have smaller : u < t := between u member t List.mem_cons_self
    exact Nat.not_le_of_lt smaller (first u (List.mem_append_left _ member) same)
  have front : key s ∈ before.map key := by
    refine List.mem_map_of_mem ?_
    rcases List.mem_append.mp inside with front | rest
    · exact front
    · rcases List.mem_cons.mp rest with same | after
      · exact absurd (same ▸ earlier) (Nat.lt_irrefl t)
      · exact absurd earlier (Nat.lt_asymm ((List.pairwise_cons.mp later).1 s after))
  -- So the one key is found among those of the states in front, and the other behind them.
  have found : m < (before.map key).eraseDups.length := by
    rw [← left, List.map_append, List.eraseDups_append, List.idxOf_append,
      if_pos (List.mem_eraseDups.mpr front)]
    exact List.idxOf_lt_length_of_mem (List.mem_eraseDups.mpr front)
  have behind : (before.map key).eraseDups.length ≤ n := by
    rw [← right, List.map_append, List.eraseDups_append, List.idxOf_append,
      if_neg (fun known => fresh (List.mem_eraseDups.mp known))]
    exact Nat.le_add_left ..
  exact Nat.lt_of_lt_of_le found behind

/-- Classes are numbered in the order of their smallest states. -/
theorem lt_iff_of_isLeast_byKey (ascending : states.Pairwise (· < ·)) {a b : State} {m n : Nat}
    (left : IsLeast {s | s ∈ states ∧ (byKey states key).classOf s = some m} a)
    (right : IsLeast {s | s ∈ states ∧ (byKey states key).classOf s = some n} b) :
    m < n ↔ a < b := by
  obtain ⟨⟨inside, placed⟩, least⟩ := left
  obtain ⟨⟨inside', placed'⟩, least'⟩ := right
  have first : ∀ u ∈ states, key u = key a → a ≤ u := fun u member same =>
    least ⟨member, ((classOf_byKey_eq_iff member inside).mpr same).trans placed⟩
  have first' : ∀ u ∈ states, key u = key b → b ≤ u := fun u member same =>
    least' ⟨member, ((classOf_byKey_eq_iff member inside').mpr same).trans placed'⟩
  -- Whichever of the smallest states comes first, the numbers are in the same order.
  rcases Nat.lt_trichotomy a b with before | same | after
  · exact iff_of_true (lt_of_first_byKey ascending placed placed' first' before) before
  · subst same
    cases placed.symm.trans placed'
    exact iff_of_false (Nat.lt_irrefl _) (Nat.lt_irrefl _)
  · have larger := lt_of_first_byKey ascending placed' placed first after
    exact iff_of_false (Nat.lt_asymm larger) (Nat.lt_asymm after)

/-- A representative is a state of its class. -/
theorem classOf_representative_byKey {number : Nat} {s : State}
    (chosen : (byKey states key).representative number = some s) :
    (byKey states key).classOf s = some number := by
  -- The representative was found with the number of the class, which is that of its key.
  obtain ⟨entry, found, same⟩ := Option.map_eq_some_iff.mp chosen
  have placed : entry.2 = number := by simpa using List.find?_some found
  have listed := List.mem_of_find?_eq_some found
  rw [classes_byKey] at listed
  obtain ⟨t, member, whole⟩ := List.mem_map.mp listed
  subst whole
  subst same
  rw [classOf_byKey member]
  exact congrArg some placed

/-- Every class has a representative. -/
theorem exists_representative_byKey {number : Nat} (below : number < (byKey states key).count) :
    ∃ s, (byKey states key).representative number = some s := by
  obtain ⟨s, member, placed⟩ := exists_classOf_byKey below
  rw [classOf_byKey member] at placed
  cases placed
  cases chosen : (byKey states key).representative ((states.map key).eraseDups.idxOf (key s)) with
  | some s => exact ⟨s, rfl⟩
  | none =>
    -- The state itself would have been found.
    have missing := List.find?_eq_none.mp (Option.map_eq_none_iff.mp chosen)
    rw [classes_byKey] at missing
    exact absurd (missing _ (List.mem_map_of_mem member)) (by simp)

/-- There are as many classes as different keys. -/
theorem count_byKey (states : List State) (key : State → Key) :
    (byKey states key).count = (states.toFinset.image key).card := by
  -- The count is the length of a list without repetitions.
  have distinct := List.toFinset_card_of_nodup (nodup_eraseDups (states.map key))
  have same : (states.map key).eraseDups.toFinset = states.toFinset.image key := by
    ext k
    simp
  rw [← same, distinct]
  rfl

/-- There are as many classes as the states are put into. -/
theorem count_byKey_eq_card_classOf (states : List State) (key : State → Key) :
    (byKey states key).count = (states.toFinset.image (byKey states key).classOf).card := by
  -- The place of a key among the distinct keys determines the key.
  have places : states.toFinset.image (byKey states key).classOf =
      (states.toFinset.image key).image fun k => some ((states.map key).eraseDups.idxOf k) := by
    rw [Finset.image_image]
    apply Finset.image_congr
    intro s member
    exact classOf_byKey (List.mem_toFinset.mp member)
  rw [places, count_byKey]
  refine (Finset.card_image_of_injOn ?_).symm
  intro k member k' _ same
  obtain ⟨s, listed, rfl⟩ := Finset.mem_image.mp member
  have known : key s ∈ (states.map key).eraseDups :=
    List.mem_eraseDups.mpr (List.mem_map_of_mem (List.mem_toFinset.mp listed))
  exact (List.idxOf_inj known).mp (Option.some.inj same)

end Partition

end PatternAutomata
