import PatternAutomata.Graph.Run
import PatternAutomata.Graph.WellFormed
import PatternAutomata.Proofs.Graph.Closure

/-! Following all states at once accepts exactly the inputs that some path spells. -/

namespace PatternAutomata

namespace Graph

/-- Paths of a well-formed graph stay among its states. -/
theorem WellFormed.mem_of_path {g : Graph} (wf : g.WellFormed) {p q : State}
    {input : List Char} (path : g.Path p input q) (inside : p ∈ g.states) : q ∈ g.states := by
  -- Every edge enters a state of the graph.
  induction path with
  | here => exact inside
  | silent edge _ ih => exact ih (wf.target_mem _ edge)
  | read edge _ ih => exact ih (wf.target_mem _ edge)

/-- A path that reads something has a first edge that reads, with silent steps before it. -/
theorem Path.exists_read {g : Graph} {p r : State} {c : Char} {rest : List Char}
    (path : g.Path p (c :: rest) r) :
    ∃ q q', g.Path p [] q ∧ ⟨q, .char c, q'⟩ ∈ g.edges ∧ g.Path q' rest r := by
  -- The induction is on the path, so the input is kept as an equation.
  generalize whole : c :: rest = input at path
  induction path with
  | here => cases whole
  | silent edge _ ih =>
    obtain ⟨q, q', before, reading, after⟩ := ih whole
    exact ⟨q, q', Path.silent edge before, reading, after⟩
  | read edge after =>
    cases whole
    exact ⟨_, _, Path.here _, edge, after⟩

/-- Advancing by a character leads to where one edge and then silent ones lead. -/
theorem mem_advance {g : Graph} {states : SortedSet State} {c : Char} {r : State} :
    r ∈ g.advance states c ↔ ∃ p ∈ states, ∃ q, ⟨p, .char c, q⟩ ∈ g.edges ∧ g.Path q [] r := by
  -- What is moved to by the character is closed under silent edges.
  rw [advance, mem_closure]
  constructor
  · intro reached
    obtain ⟨q, moved, path⟩ := reached
    obtain ⟨p, inside, edge⟩ := mem_move.mp moved
    exact ⟨p, inside, q, edge, path⟩
  · intro reached
    obtain ⟨p, inside, q, edge, path⟩ := reached
    exact ⟨q, mem_move.mpr ⟨p, inside, edge⟩, path⟩

/-- Only characters of the alphabet lead anywhere. -/
theorem WellFormed.mem_alphabet_of_advance {g : Graph} (wf : g.WellFormed)
    {states : SortedSet State} {c : Char} (somewhere : g.advance states c ≠ ∅) :
    c ∈ g.alphabet := by
  -- There is an edge with the character that the step has taken.
  obtain ⟨r, reached⟩ := SortedSet.ne_empty_iff.mp somewhere
  obtain ⟨p, _, q, edge, _⟩ := mem_advance.mp reached
  exact (wf.alphabet_iff c).mpr ⟨_, edge, rfl⟩

/-- No silent edge leads out of the states that an advance reaches. -/
theorem silentlyClosed_advance (g : Graph) (states : SortedSet State) (c : Char) :
    g.SilentlyClosed (g.advance states c) :=
  silentlyClosed_closure g _

/-- Nothing is reached from no state. -/
@[simp] theorem advance_empty (g : Graph) (c : Char) : g.advance ∅ c = ∅ := by
  rw [SortedSet.eq_empty_iff]
  intro r reached
  -- A step begins in one of the states.
  obtain ⟨p, inside, _⟩ := mem_advance.mp reached
  exact SortedSet.not_mem_empty p inside

/-- Without states nothing is accepted. -/
@[simp] theorem acceptsFrom_empty (g : Graph) (input : List Char) :
    g.acceptsFrom ∅ input = false := by
  -- Nothing is final at the end, and the run stops early in front of a character.
  cases input with
  | nil => simp [acceptsFrom, containsFinal]
  | cons c rest => simp [acceptsFrom]

/-- Stopping early at an empty set makes no difference. -/
theorem acceptsFrom_cons (g : Graph) (states : SortedSet State) (c : Char) (rest : List Char) :
    g.acceptsFrom states (c :: rest) = g.acceptsFrom (g.advance states c) rest := by
  -- From an empty set the rest would be rejected as well.
  rw [acceptsFrom]
  split
  · rename_i nowhere
    rw [nowhere, acceptsFrom_empty]
  · rfl

/-- The states in which reading a whole input can end, even if none are left on the way. -/
def advanceAll (g : Graph) (states : SortedSet State) (input : List Char) : SortedSet State :=
  input.foldl g.advance states

/-- An input is accepted from some states when reading it can end in a final one. -/
theorem acceptsFrom_eq (g : Graph) (states : SortedSet State) (input : List Char) :
    g.acceptsFrom states input = g.containsFinal (g.advanceAll states input) := by
  -- Running on with an empty set would end in an empty set, which has no final state.
  induction input generalizing states with
  | nil => rfl
  | cons c rest ih =>
    rw [acceptsFrom_cons, ih]
    rfl

/-- No silent edge leads out of what is reached from a set that none leads out of. -/
theorem SilentlyClosed.advanceAll {g : Graph} {states : SortedSet State}
    (closed : g.SilentlyClosed states) (input : List Char) :
    g.SilentlyClosed (g.advanceAll states input) := by
  -- By induction on what is read, since each step ends with a closure.
  induction input generalizing states with
  | nil => exact closed
  | cons c rest ih => exact ih (silentlyClosed_advance g states c)

/-- Once no states are left, none come back. -/
@[simp] theorem advanceAll_empty (g : Graph) (input : List Char) : g.advanceAll ∅ input = ∅ := by
  induction input with
  | nil => rfl
  | cons c rest ih =>
    -- The first step leads to no state, and so do all others.
    show g.advanceAll (g.advance ∅ c) rest = ∅
    rw [advance_empty, ih]

/-- From a closed set exactly those states are reached that a path reading the input leads to. -/
theorem SilentlyClosed.mem_advanceAll {g : Graph} {states : SortedSet State}
    (closed : g.SilentlyClosed states) {input : List Char} {r : State} :
    r ∈ g.advanceAll states input ↔ ∃ p ∈ states, g.Path p input r := by
  -- After each character the set is the closed set of all states that can be reached.
  induction input generalizing states with
  | nil =>
    constructor
    · exact fun inside => ⟨r, inside, Path.here r⟩
    · rintro ⟨p, inside, path⟩
      exact closed.mem_of_path path inside
  | cons c rest ih =>
    refine (ih (silentlyClosed_advance g states c)).trans ?_
    constructor
    · rintro ⟨q, reached, path⟩
      obtain ⟨p, inside, q', edge, silent⟩ := mem_advance.mp reached
      exact ⟨p, inside, Path.read edge (silent.append path)⟩
    · rintro ⟨p, inside, path⟩
      obtain ⟨q, q', before, edge, after⟩ := path.exists_read
      have onward : q' ∈ g.advance states c :=
        mem_advance.mpr ⟨q, closed.mem_of_path before inside, q', edge, Path.here q'⟩
      exact ⟨q', onward, after⟩

/-- From a closed set exactly those inputs are accepted that a path reads to a final state. -/
theorem acceptsFrom_iff {g : Graph} {states : SortedSet State} (closed : g.SilentlyClosed states)
    {input : List Char} :
    g.acceptsFrom states input = true ↔ ∃ p ∈ states, ∃ r ∈ g.finals, g.Path p input r := by
  rw [acceptsFrom_eq, containsFinal_iff]
  simp only [closed.mem_advanceAll]
  -- The two sides name the ends of the path in different orders.
  constructor
  · rintro ⟨r, ⟨p, inside, path⟩, final⟩
    exact ⟨p, inside, r, final, path⟩
  · rintro ⟨p, inside, r, final, path⟩
    exact ⟨r, ⟨p, inside, path⟩, final⟩

/-- The states in which reading an input from a state can end. -/
def endsOf (g : Graph) (start : State) (input : List Char) : SortedSet State :=
  g.advanceAll (g.closure {start}) input

/-- Reading an input can end exactly in the states that a path reading it leads to. -/
theorem mem_endsOf {g : Graph} {start q : State} {input : List Char} :
    q ∈ g.endsOf start input ↔ g.Path start input q := by
  rw [endsOf, (silentlyClosed_closure g {start}).mem_advanceAll]
  -- Silent edges from the start on are a part of the path.
  constructor
  · rintro ⟨p, reached, path⟩
    obtain ⟨_, only, silent⟩ := mem_closure.mp reached
    rw [SortedSet.mem_singleton.mp only] at silent
    exact silent.append path
  · intro path
    have initial : start ∈ g.closure {start} :=
      mem_closure.mpr ⟨start, SortedSet.mem_singleton.mpr rfl, Path.here start⟩
    exact ⟨start, initial, path⟩

/-- Running an automaton accepts exactly the inputs that it spells. -/
theorem accepts_iff_spells {g : Graph} {input : String} :
    g.accepts input = true ↔ g.Spells input.toList := by
  unfold accepts Spells
  -- Without a start nothing is accepted and nothing is spelled.
  cases g.start with
  | none => simp
  | some start =>
    show g.acceptsFrom (g.closure {start}) input.toList = true ↔ _
    rw [acceptsFrom_eq, ← endsOf, containsFinal_iff]
    simp [mem_endsOf, and_comm]

end Graph

end PatternAutomata
