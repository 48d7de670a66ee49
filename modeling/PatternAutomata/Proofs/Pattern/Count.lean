import Mathlib.Data.List.Induction
import PatternAutomata.Pattern.Count
import PatternAutomata.Proofs.Pattern.Nesting

/-! The text of a pattern has as many literals and written operators as its tree. -/

namespace PatternAutomata

variable {first second text : List Char}

/-- Behind a text in which no escape dangles it is as if nothing stood in front. -/
theorem dangles_append (whole : ¬ Dangles first) (second : List Char) :
    Dangles (first ++ second) ↔ Dangles second := by
  -- Whether an escape dangles is decided by the last character and what stands in front of it.
  induction second using List.reverseRecOn with
  | nil =>
    rw [List.append_nil]
    exact iff_of_false whole not_dangles_nil
  | append_singleton rest c ih =>
    rw [← List.append_assoc]
    by_cases escape : c = '\\'
    · rw [escape, dangles_snoc_escape, dangles_snoc_escape, ih]
    · exact iff_of_false (not_dangles_snoc _ escape) (not_dangles_snoc _ escape)

/-- No escape dangles at the end of a text that is written for a tree. -/
theorem Derives.not_dangles {level : Level} {tree : Tree} (derives : Derives level text tree) :
    ¬ Dangles text := by
  -- By induction over the derivation, as every form ends with a character that is no escape.
  induction derives with
  | plain plain => exact not_dangles_snoc [] plain.ne_escape
  | escaped c => exact not_dangles_escaped not_dangles_nil c
  | group => exact not_dangles_snoc _ (by decide)
  | star => exact not_dangles_snoc _ (by decide)
  | plus => exact not_dangles_snoc _ (by decide)
  | piece _ ih | branch _ ih | pattern _ ih => exact ih
  | concat _ _ ihHead ihTail => rwa [dangles_append ihHead]
  | @union first second _ _ _ _ ihHead ihTail =>
    have bar : ¬ Dangles (first ++ ['|']) := not_dangles_snoc _ (by decide)
    rwa [List.append_cons, dangles_append bar]

/-- What is decided from place to place can be counted in one text after the other. -/
theorem countP_range_append (P : List Char → Nat → Prop) [∀ text, DecidablePred (P text)]
    (early : ∀ i < first.length, P (first ++ second) i ↔ P first i)
    (late : ∀ i, P (first ++ second) (first.length + i) ↔ P second i) :
    (List.range (first ++ second).length).countP (P (first ++ second) ·) =
      (List.range first.length).countP (P first ·) +
        (List.range second.length).countP (P second ·) := by
  rw [List.length_append, List.range_add, List.countP_append, List.countP_map]
  -- Positions in the second part are counted from its beginning.
  have inFirst : (List.range first.length).countP (P (first ++ second) ·) =
      (List.range first.length).countP (P first ·) :=
    List.countP_congr fun i listed => by simpa using early i (List.mem_range.mp listed)
  have inSecond : (List.range second.length).countP ((P (first ++ second) ·) ∘ (first.length + ·)) =
      (List.range second.length).countP (P second ·) :=
    List.countP_congr fun i _ => by simpa using late i
  rw [← inFirst, ← inSecond]

/-- The characters without protection are those of both texts. -/
theorem unescapedCount_append (whole : ¬ Dangles first) (second : List Char) (c : Char) :
    unescapedCount (first ++ second) c = unescapedCount first c + unescapedCount second c := by
  -- No escape reaches from the first part into the second one.
  refine countP_range_append (Unescaped · · c) (fun i before => ?_) fun i => ?_
  · exact unescaped_append before second
  · rw [Unescaped, Unescaped, List.getElem?_append_right (Nat.le_add_right ..),
      Nat.add_sub_cancel_left, List.take_length_add_append, dangles_append whole]

/-- The characters that stand for themselves are those of both texts. -/
theorem literalCount_append (whole : ¬ Dangles first) (second : List Char) :
    literalCount (first ++ second) = literalCount first + literalCount second := by
  -- No escape reaches from the first part into the second one.
  refine countP_range_append LiteralAt (fun i before => ?_) fun i => ?_
  · rw [LiteralAt, LiteralAt, List.getElem?_append_left before,
      List.take_append_of_le_length (Nat.le_of_lt before)]
  · rw [LiteralAt, LiteralAt, List.getElem?_append_right (Nat.le_add_right ..),
      Nat.add_sub_cancel_left, List.take_length_add_append, dangles_append whole]

/-- Nothing protects a single character. -/
@[simp] theorem unescapedCount_singleton (c d : Char) :
    unescapedCount [c] d = if c = d then 1 else 0 := by
  simp [unescapedCount, List.range_succ, Unescaped, not_dangles_nil, List.countP_cons]

/-- A single character stands for itself if it is plain. -/
@[simp] theorem literalCount_singleton (c : Char) :
    literalCount [c] = if IsPlain c then 1 else 0 := by
  simp [literalCount, List.range_succ, LiteralAt, not_dangles_nil, List.countP_cons]

/-- Behind a backslash no character is without protection. -/
theorem unescapedCount_escaped (c : Char) {d : Char} (ordinary : d ≠ '\\') :
    unescapedCount ['\\', c] d = 0 := by
  have protects : Dangles ['\\'] := by decide
  -- The second character stands behind a backslash, and the first one is one.
  simp [unescapedCount, List.range_succ, Unescaped, not_dangles_nil, protects, ordinary.symm]

/-- Behind a backslash any character stands for itself, and the backslash does not. -/
-- The second character is escaped, and the backslash is not a literal.
@[simp] theorem literalCount_escaped (c : Char) : literalCount ['\\', c] = 1 := by
  have protects : Dangles ['\\'] := by decide
  have escapes : ¬ IsPlain '\\' := by decide
  simp [literalCount, List.range_succ, LiteralAt, not_dangles_nil, protects, escapes]

/-- A text has as many literals and written operators as the tree that it is written for. -/
theorem Derives.counts {level : Level} {tree : Tree} (derives : Derives level text tree) :
    literalCount text = tree.literals.length ∧ ∀ operator c, operator.char? = some c →
      unescapedCount text c = tree.operators.count operator := by
  induction derives with
  | plain plain =>
    refine ⟨by simp [plain, Tree.literals], fun operator d writes => ?_⟩
    rw [unescapedCount_singleton, if_neg]
    · rfl
    · cases operator <;> cases writes <;> exact plain.ne (by decide)
  | escaped c =>
    refine ⟨literalCount_escaped c, fun operator d writes => unescapedCount_escaped c ?_⟩
    cases operator <;> cases writes <;> decide
  | @group text _ inner ih =>
    -- The two characters around the group are neither literals nor operators.
    obtain ⟨literals, operators⟩ := ih
    have opening : ¬ Dangles ['('] := by decide
    have split : '(' :: text ++ [')'] = ['('] ++ (text ++ [')']) := rfl
    refine ⟨?_, fun operator d writes => ?_⟩
    · rw [split, literalCount_append opening, literalCount_append inner.not_dangles, literals]
      simp [IsPlain]
    · rw [split, unescapedCount_append opening, unescapedCount_append inner.not_dangles,
        operators operator d writes, unescapedCount_singleton, unescapedCount_singleton]
      cases operator <;> cases writes <;> simp
  | piece _ ih | branch _ ih | pattern _ ih => exact ih
  | star inner ih | plus inner ih =>
    obtain ⟨literals, operators⟩ := ih
    refine ⟨?_, fun operator d writes => ?_⟩
    · rw [literalCount_append inner.not_dangles, literals]
      simp [IsPlain, Tree.literals]
    · rw [unescapedCount_append inner.not_dangles, operators operator d writes,
        unescapedCount_singleton, Tree.operators, List.count_cons]
      cases operator <;> cases writes <;> rfl
  | concat head _ ihHead ihTail =>
    refine ⟨?_, fun operator d writes => ?_⟩
    · rw [literalCount_append head.not_dangles, ihHead.1, ihTail.1, Tree.literals,
        List.length_append]
    · rw [unescapedCount_append head.not_dangles, ihHead.2 operator d writes,
        ihTail.2 operator d writes, Tree.operators, List.count_cons, List.count_append]
      -- A concatenation is not written.
      cases operator <;> cases writes <;> rfl
  | @union first second _ _ head _ ihHead ihTail =>
    have bar : ¬ Dangles ['|'] := by decide
    have split : first ++ '|' :: second = first ++ (['|'] ++ second) := rfl
    refine ⟨?_, fun operator d writes => ?_⟩
    · rw [split, literalCount_append head.not_dangles, literalCount_append bar, ihHead.1, ihTail.1]
      simp [IsPlain, Tree.literals]
    · rw [split, unescapedCount_append head.not_dangles, unescapedCount_append bar,
        ihHead.2 operator d writes, ihTail.2 operator d writes, unescapedCount_singleton,
        Tree.operators, List.count_cons, List.count_append]
      cases operator <;> cases writes <;> grind

namespace Tree

/-- All but concatenations contribute two states. -/
theorem stateCount_eq (tree : Tree) : tree.stateCount =
    2 * (tree.literals.length + tree.operators.count .union + tree.operators.count .star +
      tree.operators.count .plus) := by
  -- By induction over the tree, where only a concatenation creates no states.
  induction tree with
  | literal c => rfl
  | concat left right ihLeft ihRight | union left right ihLeft ihRight =>
    simp only [stateCount, ihLeft, ihRight, literals, operators, List.length_append,
      List.count_cons, List.count_append]
    grind
  | star inner ih | plus inner ih =>
    simp only [stateCount, ih, literals, operators, List.count_cons]
    grind

/-- There are as many concatenations as literals have to be linked, so these need not be counted. -/
theorem edgeCount_eq (tree : Tree) : tree.edgeCount + 1 =
    2 * tree.literals.length + 3 * tree.operators.count .union + 4 * tree.operators.count .star +
      3 * tree.operators.count .plus := by
  -- By induction over the tree, where each literal and each operator has its own number of edges.
  induction tree with
  | literal c => rfl
  | concat left right ihLeft ihRight | union left right ihLeft ihRight =>
    simp only [edgeCount, literals, operators, List.length_append, List.count_cons,
      List.count_append]
    grind
  | star inner ih | plus inner ih =>
    simp only [edgeCount, literals, operators, List.count_cons]
    grind

end Tree

end PatternAutomata
