import Mathlib.Data.List.Chain
import PatternAutomata.Proofs.Pattern.Logged
import PatternAutomata.Proofs.Pattern.Positions
import PatternAutomata.Proofs.Pattern.Shape
import PatternAutomata.Proofs.Pattern.Spelling

/-! Both stacks are in order after every token of a pattern that can be taken in. -/

namespace PatternAutomata

open Outcome PlacedToken

namespace Operands

variable {operands : Operands} {trees : List Tree}

/-- Automata that correspond to trees can be combined. -/
theorem Corresponds.begins (corresponds : Corresponds operands trees) :
    ∀ g ∈ operands.graphs, ∃ state ∈ g.states, g.start = some state := by
  induction corresponds with
  | none => simp
  | more earlier builds ih =>
    have laid := Tree.laid_of_build builds
    -- What is built for a tree has a start.
    obtain ⟨first, last, shaped⟩ := laid.shaped
    exact List.forall_mem_cons.mpr ⟨⟨first, shaped.first_mem laid.wf, shaped.begins⟩, ih⟩

/-- Automata that correspond to trees have all the states that have been numbered. -/
theorem Corresponds.mem_states (corresponds : Corresponds operands trees) (state : State) :
    (∃ g ∈ operands.graphs, state ∈ g.states) ↔ state < operands.builder.next := by
  induction corresponds with
  | none => simp
  | more earlier builds ih =>
    -- The latest automaton goes on where the numbers of the others end.
    have laid := Tree.laid_of_build builds
    have onward := laid.after_eq
    simp only [List.mem_cons, exists_eq_or_imp, ih, laid.mem_states]
    grind

/-- Automata that correspond to trees share no states. -/
theorem Corresponds.apart (corresponds : Corresponds operands trees) :
    operands.graphs.Pairwise Builder.Apart := by
  induction corresponds with
  | none => exact List.Pairwise.nil
  | more earlier builds ih =>
    refine List.pairwise_cons.mpr ⟨fun h listed state new old => ?_, ih⟩
    -- The numbers of the latest operand lie above those of all earlier ones.
    have above := (((Tree.laid_of_build builds).mem_states state).mp new).1
    exact absurd ((earlier.mem_states state).mp ⟨h, listed, old⟩) (Nat.not_lt.mpr above)

end Operands

namespace PlacedToken

variable {pattern : List Char} {tokens front behind : List PlacedToken} {placed : PlacedToken}

/-- A token binds tighter than the one on which it waits, unless one of the two begins a group. -/
def Tops (upper lower : PlacedToken) : Prop :=
  upper.token = .opening ∨ lower.token = .opening ∨
    lower.token.precedence < upper.token.precedence

/-- Nothing is spelled for concatenations, so they may be left out. -/
theorem flatMap_spelling_filter (pattern : List Char) (tokens : List PlacedToken) :
    (tokens.filter (·.IsWritten)).flatMap (spelling pattern) =
      tokens.flatMap (spelling pattern) := by
  induction tokens with
  | nil => rfl
  | cons placed rest ih =>
    -- A token that is not written spells nothing.
    by_cases written : placed.IsWritten
    · rw [List.filter_cons_of_pos (by simpa using written), List.flatMap_cons, ih,
        List.flatMap_cons]
    · have silent : spelling pattern placed = [] := by
        rw [spelling, Classical.not_not.mp written]
        rfl
      rw [List.filter_cons_of_neg (by simpa using written), ih, List.flatMap_cons, silent,
        List.nil_append]

/-- The tokens at the beginning of a pattern spell its beginning. -/
theorem Tokenizes.spells_front (tokenizes : Tokenizes pattern (front ++ behind)) :
    Spells pattern 0 (front.filter (·.IsWritten)) (front.flatMap (spelling pattern)) := by
  have spells := tokenizes.spells
  rw [List.filter_append] at spells
  -- The tokens in front spell a text of their own, which the others continue.
  rw [← flatMap_spelling_filter]
  exact spells.of_append

/-- A special character is read exactly where it stands without protection. -/
theorem Tokenizes.mem_iff_unescaped (tokenizes : Tokenizes pattern (front ++ behind)) {c : Char}
    (special : c ∈ ['(', ')', '|', '*', '+']) (position : Nat) :
    ⟨.ofChar c, position⟩ ∈ front ↔
      Unescaped (front.flatMap (spelling pattern)) position c := by
  -- A sign is always written, other than an implied concatenation.
  have written : IsWritten ⟨.ofChar c, position⟩ :=
    (writtenFor_ofChar (by rintro rfl; simp at special)).ne_concat
  rw [← tokenizes.spells_front.mem_iff_unescaped special, List.mem_filter]
  simp [written]

end PlacedToken

namespace Reading

open Pending

variable {pattern : List Char} {read : List PlacedToken} {placed : PlacedToken}
  {x y : Reading (List Tree)}

/-- What waits is in order, and the open groups are those of the text that has been read. -/
structure Tidy (pattern : List Char) (read : List PlacedToken) (x : Reading (List Tree)) :
    Prop where
  /-- Neighbours wait in the order in which they bind. -/
  rises : (x.pending.map Pending.placed).IsChain Tops
  /-- The open groups are those of the text. -/
  opened : Opened (groups x.pending) (read.flatMap (spelling pattern))

/-- A token leaves what waits in order. -/
theorem isChain_step (rises : (x.pending.map Pending.placed).IsChain Tops)
    (stepped : x.step placed = .ok y) : (y.pending.map Pending.placed).IsChain Tops := by
  have takes : Takes x false placed y := takes_of_step stepped rfl
  cases takes with
  | literal c position => exact rises
  | opening position => exact rises.cons fun _ _ => Or.inl rfl
  | @operator _ rest _ operator position applied front =>
    -- What goes on waiting is a group or binds less tightly.
    refine (rises.suffix (applied.suffix.map _)).cons fun lower first => ?_
    rcases rest with _ | ⟨⟨opened⟩ | ⟨waiting, place⟩, outer⟩
    · cases first
    · cases first
      exact Or.inr (Or.inl rfl)
    · cases first
      exact Or.inr (Or.inr (front waiting place outer rfl))
  | @closing _ rest _ opened position applied _ =>
    exact rises.suffix (((List.suffix_cons _ _).trans applied.suffix).map _)

/-- A token opens and closes groups as its text does, and a concatenation has none. -/
theorem opened_step (opened : Opened (groups x.pending) (read.flatMap (spelling pattern)))
    {behind : List PlacedToken} (tokenizes : Tokenizes pattern (read ++ [placed] ++ behind))
    (stepped : x.step placed = .ok y) :
    Opened (groups y.pending) ((read ++ [placed]).flatMap (spelling pattern)) := by
  have takes : Takes x false placed y := takes_of_step stepped rfl
  rw [List.flatMap_append, List.flatMap_singleton]
  -- What is written changes the groups as its text does, and all else leaves them.
  by_cases written : placed.IsWritten
  · have spells := tokenizes.spells_front
    rw [List.filter_append, List.filter_cons_of_pos (by simpa using written),
      List.filter_nil] at spells
    obtain ⟨before, earlier, -, place, form⟩ := spells.snoc_cases
    rw [← earlier.spelled, flatMap_spelling_filter] at place
    exact takes.opened opened form place
  · obtain ⟨token, position⟩ := placed
    cases Classical.not_not.mp written
    cases takes with
    | operator _ applied _ =>
      rw [applied.groups_eq] at opened
      exact opened.append Nested.nothing

/-- Everything is in order after some tokens of a pattern. -/
theorem tidy_of_foldlM {rest : List PlacedToken} (tokenizes : Tokenizes pattern (read ++ rest))
    (ran : read.foldlM step ⟨[], []⟩ = .ok x) : Tidy pattern read x := by
  have begun : Tidy pattern [] ⟨[], []⟩ := ⟨List.IsChain.nil, Opened.nothing Nested.nothing⟩
  -- By induction over the tokens that have been read, beginning with empty stacks.
  refine foldlM_induct (P := Tidy pattern) begun ?_ ran
  intro before placed after x y whole tidy stepped
  have split : before ++ [placed] ++ (after ++ rest) = read ++ rest := by simp [← whole]
  exact ⟨isChain_step tidy.rises stepped, opened_step tidy.opened (split ▸ tokenizes) stepped⟩

end Reading

namespace Stacked

/-- The groups that wait are those that are open. -/
theorem groups_map_placed (pending : List Pending) :
    groups (pending.map Pending.placed) = Pending.groups pending := by
  induction pending with
  | nil => rfl
  | cons top rest ih =>
    -- Operators are passed over on both sides.
    cases top with
    | group opened => exact congrArg (opened :: ·) ih
    | operator waiting place => exact ih

/-- Where neighbours are in order, operators bind tighter than all below them in their group. -/
theorem pairwise_of_isChain {waiting run : List PlacedToken} (rises : waiting.IsChain Tops)
    (within : run <:+: waiting) (ungrouped : ∀ placed ∈ run, placed.token ≠ .opening) :
    run.Pairwise fun upper lower => lower.token.precedence < upper.token.precedence := by
  have tighter : (run.map fun placed => placed.token.precedence).IsChain (· > ·) := by
    have chain : run.IsChain Tops := List.IsChain.infix rises within
    rw [List.isChain_map]
    refine chain.imp_of_mem_tail_imp fun upper lower here below tops => ?_
    rcases tops with opening | opening | less
    · exact absurd opening (ungrouped upper here)
    · exact absurd opening (ungrouped lower (List.mem_of_mem_tail below))
    · exact less
  -- Precedences are numbers, so what holds of neighbours holds from one to the next.
  exact List.pairwise_map.mp tighter.pairwise

/-- Only what waits as a group or an operator waits as a token. -/
theorem token_placed (waits : Pending) :
    waits.placed.token = .opening ∨ ∃ operator, waits.placed.token = .operator operator := by
  -- Nothing but groups and operators ever waits.
  cases waits with
  | group opened => exact Or.inl rfl
  | operator operator position => exact Or.inr ⟨operator, rfl⟩

/-- The open groups of what has been read are those of the pattern that have not been closed. -/
theorem mem_positions_iff {pattern : List Char} {read rest : List PlacedToken}
    {positions : List Nat} (tokenizes : Tokenizes pattern (read ++ rest))
    (opened : Opened positions (read.flatMap (spelling pattern))) (position : Nat) :
    position ∈ positions ↔ ⟨.opening, position⟩ ∈ read ∧
      ∀ closed, Matched pattern position closed → ⟨.closing, closed⟩ ∉ read := by
  have split : read.flatMap (spelling pattern) ++ rest.flatMap (spelling pattern) = pattern := by
    rw [← List.flatMap_append, ← flatMap_spelling_filter, tokenizes.spells.spelled]
  have opens : ⟨.opening, position⟩ ∈ read ↔ _ :=
    tokenizes.mem_iff_unescaped (c := '(') (by decide) position
  have closes : ∀ closed, ⟨.closing, closed⟩ ∈ read ↔ _ :=
    tokenizes.mem_iff_unescaped (c := ')') (by decide)
  rw [opened.mem_iff, opens]
  refine and_congr_right fun _ => ⟨?_, ?_⟩
  · -- Where the end has been read, the group is one of what has been read.
    intro never closed matched ended
    rw [closes] at ended
    rw [← split] at matched
    exact never closed (matched.of_append ended.lt_length)
  · intro never closed matched
    refine never closed ?_ ((closes closed).mpr matched.unescaped)
    rw [← split]
    exact matched.append _

/--
Both stacks are in order after every token of a pattern that is taken in.

If any token could wait, and a record were kept of what is applied, the stacks would be the same.
-/
theorem inOrder_of_foldlM {pattern : String} {read rest : List PlacedToken} {x : Reading Operands}
    (tokens : PlacedToken.ofPattern pattern.toList = .ok (read ++ rest))
    (ran : read.foldlM Reading.step ⟨{}, []⟩ = .ok x) :
    ∃ applied, read.foldlM step (⟨⟨{}, []⟩, []⟩ : Stacked (Logged Operands)) =
        .ok ⟨⟨x.operands, applied⟩, x.pending.map Pending.placed⟩ ∧
      InOrder pattern.toList read ⟨⟨x.operands, applied⟩, x.pending.map Pending.placed⟩ := by
  have tokenizes := tokenizes_of_ofPattern tokens
  obtain ⟨⟨⟨stack, applied⟩, pending⟩, kept, rfl, stacked⟩ := exists_logged ran
  -- What waits for trees waits for automata, and to each automaton a tree corresponds.
  have agree := Reading.agree_foldlM Operands.alike_corresponds Operands.Corresponds.none read
  rw [ran] at agree
  obtain ⟨⟨trees, pending⟩, parsed, rfl, corresponds⟩ := agree.ok_left
  obtain ⟨rises, opened⟩ := Reading.tidy_of_foldlM tokenizes parsed
  exact ⟨applied, stacked, {
    kinds := List.forall_mem_map.mpr fun waits _ => token_placed waits
    rises := fun run within ungrouped => pairwise_of_isChain rises within ungrouped
    mem_groups := by
      rw [groups_map_placed]
      exact mem_positions_iff tokenizes opened
    ordered := by
      rw [groups_map_placed]
      exact opened.pairwise
    begins := corresponds.begins
    apart := corresponds.apart
    mem_states := corresponds.mem_states
    length_eq := Logged.total_eq kept }⟩

/--
A group that is never closed waits on a concatenation and a union, and below another operator.

The group in front of it has been closed, and an escaped opening is no group.
-/
theorem inOrder_of_foldlM_unclosed :
    let read : List PlacedToken :=
      [⟨.literal '(', 0⟩, ⟨.operator .concat, 2⟩, ⟨.opening, 2⟩, ⟨.literal 'a', 3⟩, ⟨.closing, 4⟩,
        ⟨.operator .union, 5⟩, ⟨.literal 'b', 6⟩, ⟨.operator .concat, 7⟩, ⟨.opening, 7⟩,
        ⟨.literal 'c', 8⟩, ⟨.operator .star, 9⟩, ⟨.operator .concat, 10⟩]
    PlacedToken.ofPattern "\\((a)|b(c*d".toList = .ok (read ++ [⟨.literal 'd', 10⟩]) ∧
    ∃ x : Reading Operands, read.foldlM Reading.step ⟨{}, []⟩ = .ok x ∧
      x.pending = [.operator .concat 10, .group 7, .operator .concat 7, .operator .union 5] ∧
      x.operands.graphs.length = 3 ∧ x.operands.builder.next = 10 ∧
      InOrder "\\((a)|b(c*d".toList read
        ⟨⟨x.operands, [.star, .concat]⟩, x.pending.map Pending.placed⟩ := by
  intro read
  have tokens : PlacedToken.ofPattern "\\((a)|b(c*d".toList =
      .ok (read ++ [⟨.literal 'd', 10⟩]) := by rfl
  obtain ⟨x, ran, pending, length, next⟩ : ∃ x : Reading Operands,
      read.foldlM Reading.step ⟨{}, []⟩ = .ok x ∧
      x.pending = [.operator .concat 10, .group 7, .operator .concat 7, .operator .union 5] ∧
      x.operands.graphs.length = 3 ∧ x.operands.builder.next = 10 := ⟨_, rfl, rfl, rfl, rfl⟩
  obtain ⟨applied, stacked, inOrder⟩ := inOrder_of_foldlM tokens ran
  -- The record is known from the run, and so are the stacks.
  have recorded : (.ok [.star, .concat] : Except Error (List Operator)) = .ok applied :=
    congrArg (Except.map fun x : Stacked (Logged Operands) => x.operands.applied) stacked
  cases recorded
  exact ⟨tokens, x, ran, pending, length, next, inOrder⟩

end Stacked

end PatternAutomata
