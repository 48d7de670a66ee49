import PatternAutomata.Graph.Basic

/-! Edges kept as a table of target sets, in which no key is ever left without targets. -/

namespace PatternAutomata

/-- Sets of targets, each kept under the state that edges leave and the symbol that they read. -/
@[ext]
structure Table where
  /-- The targets under a key, if there is such a key. -/
  find : State → Symbol → Option (SortedSet State) := fun _ _ => none

namespace Table

/-- The table without keys. -/
instance : EmptyCollection Table := ⟨{}⟩

/-- The targets under a key, of which there are none if there is no such key. -/
def targets (t : Table) (p : State) (symbol : Symbol) : SortedSet State :=
  -- A key without targets would look the same as a missing one.
  (t.find p symbol).getD ∅

/-- Puts the target of an edge under its key, which is made if it is not there yet. -/
def add (t : Table) (edge : Edge) : Table where
  find p symbol :=
    -- All other keys stay as they are, also those of the same state.
    if p = edge.source ∧ symbol = edge.symbol then
      some (insert edge.target (t.targets p symbol))
    else
      t.find p symbol

/-- Puts all targets of another table under their keys, which are made if they are not there yet. -/
def extend (t other : Table) : Table where
  find p symbol :=
    match other.find p symbol with
    | none => t.find p symbol
    -- A key of the other table is made even if it has no targets to bring along.
    | some brought => some (t.targets p symbol ∪ brought)

/-- No key is kept without targets. -/
def Filled (t : Table) : Prop := ∀ p symbol, t.find p symbol ≠ some ∅

/-- Some key has a silent symbol or several targets. -/
def Branches (t : Table) : Prop :=
  -- Only keys that are there are looked at, one after the other.
  ∃ p symbol targets, t.find p symbol = some targets ∧ (symbol = .epsilon ∨ 1 < targets.size)

/-- A table without keys has no targets. -/
@[simp] theorem targets_empty (p : State) (symbol : Symbol) :
    (∅ : Table).targets p symbol = ∅ := rfl

/-- An edge brings its target to its own key and to no other. -/
@[simp] theorem mem_targets_add {t : Table} {edge : Edge} {p q : State} {symbol : Symbol} :
    q ∈ (t.add edge).targets p symbol ↔ ⟨p, symbol, q⟩ = edge ∨ q ∈ t.targets p symbol := by
  -- Under another key nothing changes, and there the edge in question is another one.
  obtain ⟨source, label, target⟩ := edge
  by_cases key : p = source ∧ symbol = label
  · obtain ⟨rfl, rfl⟩ := key
    simp [targets, add]
  · have other : (⟨p, symbol, q⟩ : Edge) ≠ ⟨source, label, target⟩ := by
      rintro ⟨⟩
      exact key ⟨rfl, rfl⟩
    simp [targets, add, key, other]

/-- Under each key there are the targets of both tables. -/
@[simp] theorem mem_targets_extend {t other : Table} {p q : State} {symbol : Symbol} :
    q ∈ (t.extend other).targets p symbol ↔
      q ∈ t.targets p symbol ∨ q ∈ other.targets p symbol := by
  -- A key that the other table lacks brings no targets along.
  cases brought : other.find p symbol with
  | none => simp [targets, extend, brought]
  | some set => simp [targets, extend, brought]

namespace Filled

variable {t other : Table}

/-- Where there are no keys, none is without targets. -/
theorem empty : (∅ : Table).Filled := fun _ _ absent => by cases absent

/-- A key that is made for an edge has its target. -/
theorem add (filled : t.Filled) (edge : Edge) : (t.add edge).Filled := by
  intro p symbol bare
  by_cases key : p = edge.source ∧ symbol = edge.symbol
  · -- The target of the edge is there, so the set is not empty.
    have target : edge.target ∈ (t.add edge).targets p symbol :=
      mem_targets_add.mpr (Or.inl (by rw [key.1, key.2]))
    rw [targets, bare] at target
    exact SortedSet.not_mem_empty _ target
  · simp only [Table.add, key, if_false] at bare
    exact filled p symbol bare

/-- A key that is made for another table has the targets that it had there. -/
theorem extend (filled : t.Filled) (filledOther : other.Filled) : (t.extend other).Filled := by
  intro p symbol bare
  cases brought : other.find p symbol with
  | none =>
    simp only [Table.extend, brought] at bare
    exact filled p symbol bare
  | some set =>
    -- The set that was brought along has an element, and keeps it.
    have nonempty : set ≠ ∅ := fun none => filledOther p symbol (by rw [brought, none])
    obtain ⟨q, member⟩ := SortedSet.ne_empty_iff.mp nonempty
    have kept : q ∈ (t.extend other).targets p symbol :=
      mem_targets_extend.mpr (Or.inr (by rwa [targets, brought]))
    rw [targets, bare] at kept
    exact SortedSet.not_mem_empty _ kept

/-- A key is there exactly if it has targets. -/
theorem find_eq (filled : t.Filled) (p : State) (symbol : Symbol) :
    t.find p symbol = if t.targets p symbol = ∅ then none else some (t.targets p symbol) := by
  -- A key that is there has targets, since none is kept without.
  cases found : t.find p symbol with
  | none => simp [targets, found]
  | some set =>
    have nonempty : set ≠ ∅ := fun none => filled p symbol (by rw [found, none])
    simp [targets, found, nonempty]

/-- Tables that have the same targets under all keys have the same keys. -/
theorem ext (filled : t.Filled) (filledOther : other.Filled)
    (same : ∀ p symbol, t.targets p symbol = other.targets p symbol) : t = other := by
  -- The targets under a key tell whether there is such a key.
  ext1
  funext p symbol
  rw [filled.find_eq, filledOther.find_eq, same]

end Filled

end Table

end PatternAutomata
