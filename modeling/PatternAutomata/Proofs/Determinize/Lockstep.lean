import Mathlib.Data.List.Forall2
import PatternAutomata.Proofs.Determinize

/-! Explorations of graphs whose sets of states correspond build the same deterministic graph. -/

namespace PatternAutomata

open Outcome

/--
Sets of states of one graph correspond to sets of states of another.

The correspondence is one to one and lasts when both are advanced by a character, and since no
states correspond to no states, both lead on by the same characters.
-/
structure Corresponding (g h : Graph) (Related : SortedSet State → SortedSet State → Prop) :
    Prop where
  /-- No states correspond to no states. -/
  empty : Related ∅ ∅
  /-- Corresponding sets are equal to others exactly if their counterparts are. -/
  unique : ∀ s t s' t', Related s t → Related s' t' → (s = s' ↔ t = t')
  /-- Corresponding sets agree on being final. -/
  final_eq : ∀ s t, Related s t → g.containsFinal s = h.containsFinal t
  /-- What is reached from corresponding sets corresponds. -/
  advance : ∀ s t c, Related s t → Related (g.advance s c) (h.advance t c)

variable {g h : Graph} {Related : SortedSet State → SortedSet State → Prop}

/-- Corresponding sets lead on by the same characters. -/
theorem Corresponding.advance_eq_empty_iff (corresponding : Corresponding g h Related)
    {s t : SortedSet State} (related : Related s t) (c : Char) :
    g.advance s c = ∅ ↔ h.advance t c = ∅ :=
  corresponding.unique _ _ _ _ (corresponding.advance s t c related) corresponding.empty

/-- Corresponding sets are found at the same places of corresponding lists. -/
theorem Corresponding.idxOf?_eq (corresponding : Corresponding g h Related)
    {s t : SortedSet State} (related : Related s t) {first second : List (SortedSet State)}
    (lists : List.Forall₂ Related first second) : first.idxOf? s = second.idxOf? t := by
  induction lists with
  | nil => rfl
  | @cons s' t' _ _ heads _ ih =>
    -- The heads are found on both sides or on neither.
    have found := corresponding.unique s' t' s t heads related
    rw [List.idxOf?_cons, List.idxOf?_cons, ih]
    simp only [beq_iff_eq, found]

namespace Exploration

/-- Explorations are level when they have built the same and their sets correspond. -/
structure Level (Related : SortedSet State → SortedSet State → Prop) (x y : Exploration) :
    Prop where
  /-- The same deterministic graph has been built. -/
  dfa : x.dfa = y.dfa
  /-- The sets of its states correspond. -/
  subsets : List.Forall₂ Related x.subsets y.subsets
  /-- The same states are pending. -/
  pending : x.pending = y.pending

variable {x y : Exploration} {s t : SortedSet State}

/-- Corresponding sets are visited alike. -/
theorem agree_visit (corresponding : Corresponding g h Related) (level : Level Related x y)
    (related : Related s t) :
    Agree (fun a b => a.1 = b.1 ∧ Level Related a.2 b.2 : State × Exploration → _ → Prop)
      (visit g x s : Except Error _) (visit h y t) := by
  obtain ⟨dfa, subsets, pending⟩ := x
  obtain ⟨_, subsets', _⟩ := y
  obtain ⟨same, lists, waiting⟩ := level
  cases same
  cases waiting
  -- The sets have both been met or both not, and both count as final or neither does.
  unfold visit
  simp only
  rw [corresponding.idxOf?_eq related lists, corresponding.final_eq s t related]
  cases subsets'.idxOf? t with
  | some k => exact Agree.ok ⟨rfl, rfl, lists, rfl⟩
  | none =>
    have appended : List.Forall₂ Related (subsets ++ [s]) (subsets' ++ [t]) :=
      List.rel_append lists (.cons related .nil)
    by_cases final : h.containsFinal t = true
    · simp only [final, if_true]
      refine (Agree.refl _).bind fun dfa _ same => ?_
      cases same
      exact Agree.ok ⟨rfl, rfl, appended, rfl⟩
    · simp only [final]
      exact Agree.ok ⟨rfl, rfl, appended, rfl⟩

/-- Characters are followed alike from corresponding sets. -/
theorem agree_follow (corresponding : Corresponding g h Related) (k : State)
    (related : Related s t) (c : Char) (level : Level Related x y) :
    Agree (Level Related) (follow g k s x c) (follow h k t y c) := by
  have reached := corresponding.advance s t c related
  unfold follow
  simp only [corresponding.advance_eq_empty_iff related c]
  split
  · exact Agree.ok level
  · refine (agree_visit corresponding level reached).bind ?_
    rintro ⟨target, x⟩ ⟨_, y⟩ ⟨same, level⟩
    cases same
    -- The edge is added to the same graph on both sides.
    simp only
    rw [level.dfa]
    refine (Agree.refl _).bind fun dfa _ same => ?_
    cases same
    exact Agree.ok ⟨rfl, level.subsets, level.pending⟩

/-- The characters that lead on from a set. -/
def letters (g : Graph) (subset : SortedSet State) : SortedSet Char :=
  g.alphabet.filter fun c => g.advance subset c ≠ ∅

/-- Every character that leads on is in the alphabet. -/
theorem mem_letters (wf : g.WellFormed) {c : Char} : c ∈ letters g s ↔ g.advance s c ≠ ∅ := by
  rw [letters, SortedSet.mem_filter, decide_eq_true_eq, and_iff_right_iff_imp]
  exact wf.mem_alphabet_of_advance

/-- It is enough to follow the characters that lead on. -/
theorem expand_eq (g : Graph) (k : State) (x : Exploration) :
    expand g k x = (letters g (x.subsetOf k)).toList.foldlM (follow g k (x.subsetOf k)) x := by
  -- Following any other character changes nothing.
  show _ = (g.alphabet.toList.filter _).foldlM _ _
  rw [List.foldlM_filter, expand]
  congr 1
  funext y c
  by_cases nowhere : g.advance (x.subsetOf k) c = ∅ <;> simp [nowhere, follow, pure, Except.pure]

/-- States are expanded alike. -/
theorem agree_expand (wf : g.WellFormed) (wf' : h.WellFormed)
    (corresponding : Corresponding g h Related) (k : State) (level : Level Related x y) :
    Agree (Level Related) (expand g k x) (expand h k y) := by
  -- A state stands for corresponding sets, or on both sides for no set at all.
  have related : Related (x.subsetOf k) (y.subsetOf k) := by
    have lengths := level.subsets.length_eq
    rcases Nat.lt_or_ge k x.subsets.length with below | above
    · have pair := level.subsets.get below (lengths ▸ below)
      simpa [subsetOf, List.getD_eq_getElem?_getD, below, lengths ▸ below] using pair
    · have above' := lengths ▸ above
      simpa [subsetOf, List.getD_eq_getElem?_getD, above, above'] using corresponding.empty
  have same : letters g (x.subsetOf k) = letters h (y.subsetOf k) := by
    ext c
    rw [mem_letters wf, mem_letters wf', ne_eq, ne_eq, corresponding.advance_eq_empty_iff related]
  rw [expand_eq, expand_eq, same]
  exact Agree.foldlM (fun _ _ c level => agree_follow corresponding k related c level) _ level

/-- Explorations go on alike for any number of rounds. -/
theorem agree_explore (wf : g.WellFormed) (wf' : h.WellFormed)
    (corresponding : Corresponding g h Related) (bound : Nat) (level : Level Related x y) :
    Agree (Level Related) (explore g bound x) (explore h bound y) := by
  induction bound generalizing x y with
  | zero => exact Agree.ok level
  | succ bound ih =>
    rw [explore, explore, level.pending]
    -- Both sides are done, or both take the same state.
    cases y.pending with
    | nil => exact Agree.ok level
    | cons k pending =>
      have taken : Level Related { x with pending } { y with pending } :=
        ⟨level.dfa, level.subsets, rfl⟩
      exact (agree_expand wf wf' corresponding k taken).bind fun _ _ level => ih level

/-- Explorations begin alike in states that reach corresponding sets. -/
theorem agree_begun (corresponding : Corresponding g h Related) {p q : State}
    (related : Related (g.closure {p}) (h.closure {q})) :
    Agree (Level Related) (begun g p) (begun h q) := by
  -- Two explorations that have not begun are on the same level.
  have level : Level Related {} {} := ⟨rfl, .nil, rfl⟩
  refine (agree_visit corresponding level related).bind ?_
  rintro ⟨initial, x⟩ ⟨_, y⟩ ⟨same, level⟩
  cases same
  simp only
  rw [level.dfa]
  refine (Agree.refl _).bind fun dfa _ same => ?_
  cases same
  exact Agree.ok ⟨rfl, level.subsets, level.pending⟩

end Exploration

namespace Graph

/--
Graphs whose starts reach corresponding sets are made deterministic in the same way.

The result is one graph, with the same numbers for its states.
-/
theorem determinize_eq_of_corresponding (wf : g.WellFormed) (wf' : h.WellFormed)
    (corresponding : Corresponding g h Related) {p q : State} (begins : g.start = some p)
    (begins' : h.start = some q) (related : Related (g.closure {p}) (h.closure {q})) :
    g.determinize = h.determinize := by
  obtain ⟨x, finished, determined⟩ := determinize_eq wf begins
  obtain ⟨y, finished', determined'⟩ := determinize_eq wf' begins'
  obtain ⟨first, begun, explored⟩ := finished.explored
  obtain ⟨first', begun', explored'⟩ := finished'.explored
  have initial := Exploration.agree_begun corresponding related
  rw [begun, begun'] at initial
  obtain ⟨_, same, level⟩ := initial.ok_left
  cases same
  -- Both explorations are finished after as many rounds as both bounds allow together.
  have together := Exploration.agree_explore wf wf' corresponding
    (Nat.pow 2 g.states.size + Nat.pow 2 h.states.size) level
  rw [explored, Nat.add_comm, explored'] at together
  obtain ⟨_, same, level⟩ := together.ok_left
  cases same
  rw [determined, determined', level.dfa]

end Graph

end PatternAutomata
