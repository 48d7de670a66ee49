import PatternAutomata.Proofs.Builder.History
import PatternAutomata.Proofs.Builder.Shape
import PatternAutomata.Proofs.Pattern.Compilation
import PatternAutomata.Proofs.Pattern.Count
import PatternAutomata.Proofs.Pattern.Parsed

/-! The shape of compiled patterns, and how many states and edges they have. -/

namespace PatternAutomata

namespace Tree

/-- A graph that was built for a tree from one builder on has all the states up to the next one. -/
structure Laid (tree : Tree) (builder : Builder) (g : Graph) (after : Builder) : Prop where
  /-- The graph is well formed. -/
  wf : g.WellFormed
  /-- There is one way in and one way out, and few edges leave each state. -/
  shaped : ∃ first last, g.Shaped first last
  /-- The states have all the numbers that the builder has given out. -/
  mem_states : ∀ p, p ∈ g.states ↔ builder.next ≤ p ∧ p < after.next
  /-- The numbers of the graph go on where those of the builder do. -/
  next_eq : g.next = after.next
  /-- The tree tells the number of states. -/
  after_eq : after.next = builder.next + tree.stateCount
  /-- The tree tells the number of edges. -/
  size_eq : g.edges.size = tree.edgeCount

namespace Laid

open Builder (Operation)

variable {tree left right inner : Tree} {builder middle before after : Builder} {l r g out : Graph}

/-- An operation goes on with the numbers of what was laid out for its operands. -/
theorem of_performed (operation : Operation Graph) (wf : ∀ h ∈ operation.operands, h.WellFormed)
    (performed : before.perform operation = .ok (out, after))
    (passed : ∀ h ∈ operation.operands, h.next ≤ before.next) (onward : builder.next ≤ before.next)
    (old : ∀ p, (∃ h ∈ operation.operands, p ∈ h.states) ↔ builder.next ≤ p ∧ p < before.next)
    (created : before.next + operation.created = builder.next + tree.stateCount)
    (shaped : ∃ first last, out.Shaped first last) (size_eq : out.edges.size = tree.edgeCount) :
    Laid tree builder out after := by
  obtain ⟨ready, _, _, mem_states, next_eq, after_eq⟩ := Builder.performed_of_perform wf performed
  rw [Builder.firstFree_eq passed] at mem_states next_eq
  refine ⟨ready.wf, shaped, fun p => ?_, after_eq.symm, ?_, size_eq⟩
  · -- The new states follow those of the operands without a gap.
    rw [mem_states, old, List.mem_range'_1, after_eq, next_eq]
    grind
  · rw [after_eq, next_eq, created]

/-- A character is laid out along one edge. -/
theorem literal {c : Char} (performed : builder.literal c = .ok (out, after)) :
    Laid (.literal c) builder out after := by
  -- There are no operands, so all numbers are new ones.
  refine of_performed (.literal c) (by simp [Operation.operands]) performed
    (by simp [Operation.operands]) (Nat.le_refl _) (by simp [Operation.operands]) rfl ?_ ?_
  · cases (Builder.literal_eq builder c).symm.trans performed
    exact ⟨_, _, Builder.shaped_literalGraph builder c⟩
  · cases (Builder.literal_eq builder c).symm.trans performed
    exact Builder.size_edges_literalGraph builder c

section Pair

variable (first : Laid left builder l middle) (second : Laid right middle r before)

include first second

/-- An operation on two graphs goes on with the numbers of the second one. -/
theorem of_pair (operation : Operation Graph) (operands : operation.operands = [l, r])
    (performed : before.perform operation = .ok (out, after))
    (created : left.stateCount + right.stateCount + operation.created = tree.stateCount)
    (shaped : ∃ first last, out.Shaped first last) (size_eq : out.edges.size = tree.edgeCount) :
    Laid tree builder out after := by
  have toMiddle := first.after_eq
  have toBefore := second.after_eq
  -- The numbers of the right operand follow those of the left one, and the new ones follow both.
  refine of_performed operation ?_ performed ?_ (by grind) (fun p => ?_) (by grind) shaped size_eq
  · simp [operands, first.wf, second.wf]
  · simp [operands, first.next_eq, second.next_eq, toBefore]
  · simp only [operands, List.mem_cons, List.not_mem_nil, or_false, exists_eq_or_imp,
      exists_eq_left, first.mem_states, second.mem_states]
    grind

/-- What is laid out for two trees is linked by one more edge. -/
theorem concat (performed : before.concat l r = .ok (out, after)) :
    Laid (.concat left right) builder out after := by
  obtain ⟨_, _, ready, same⟩ := (Builder.concat_eq_ok_iff first.wf second.wf).mp performed
  obtain ⟨_, _, shapedLeft⟩ := first.shaped
  obtain ⟨_, _, shapedRight⟩ := second.shaped
  -- The starts that the operation finds are those of the two shapes.
  cases ready.leftBegins.symm.trans shapedLeft.begins
  cases ready.rightBegins.symm.trans shapedRight.begins
  refine first.of_pair second (.concat l r) rfl performed rfl ?_ ?_
  · cases same
    exact ⟨_, _, Builder.shaped_concatGraph first.wf second.wf ready shapedLeft shapedRight⟩
  · cases same
    rw [edgeCount, ← first.size_eq, ← second.size_eq]
    exact Builder.size_edges_concatGraph first.wf second.wf ready shapedLeft shapedRight before

/-- What is laid out for two trees is put between two new states by four more edges. -/
theorem union (performed : before.union l r = .ok (out, after)) :
    Laid (.union left right) builder out after := by
  obtain ⟨_, _, ready, same⟩ := (Builder.union_eq_ok_iff first.wf second.wf).mp performed
  obtain ⟨_, _, shapedLeft⟩ := first.shaped
  obtain ⟨_, _, shapedRight⟩ := second.shaped
  -- The starts that the operation finds are those of the two shapes.
  cases ready.leftBegins.symm.trans shapedLeft.begins
  cases ready.rightBegins.symm.trans shapedRight.begins
  refine first.of_pair second (.union l r) rfl performed rfl ?_ ?_
  · cases same
    exact ⟨_, _, Builder.shaped_unionGraph first.wf second.wf ready shapedLeft shapedRight⟩
  · cases same
    rw [edgeCount, ← first.size_eq, ← second.size_eq]
    exact Builder.size_edges_unionGraph first.wf second.wf ready shapedLeft shapedRight before

end Pair

/-- What is laid out for a tree is put into a loop by three more edges, or by four. -/
theorem repetition (laid : Laid inner builder g before) (operation : Operation Graph)
    (operands : operation.operands = [g]) (created : operation.created = 2) {allowEmpty : Bool}
    (repeats : before.perform operation = before.repetition g allowEmpty)
    (performed : before.perform operation = .ok (out, after))
    (states : tree.stateCount = inner.stateCount + 2)
    (edges : tree.edgeCount = inner.edgeCount + 3 + allowEmpty.toNat) :
    Laid tree builder out after := by
  have moved := laid.after_eq
  obtain ⟨_, begins, same⟩ := (Builder.repetition_eq_ok_iff laid.wf).mp (repeats ▸ performed)
  obtain ⟨_, _, shaped⟩ := laid.shaped
  -- The start that the operation finds is that of the shape.
  cases begins.symm.trans shaped.begins
  refine of_performed operation ?_ performed ?_ (by grind) (fun p => ?_) (by grind) ?_ ?_
  · simp [operands, laid.wf]
  · simp [operands, laid.next_eq]
  · simp [operands, laid.mem_states]
  · cases same
    exact ⟨_, _, Builder.shaped_repetitionGraph laid.wf shaped⟩
  · cases same
    rw [edges, ← laid.size_eq]
    exact Builder.size_edges_repetitionGraph laid.wf shaped before allowEmpty

end Laid

/-- What was built for a tree is laid out for it. -/
theorem laid_of_build {tree : Tree} {builder after : Builder} {g : Graph}
    (builds : tree.build builder = .ok (g, after)) : Laid tree builder g after := by
  -- The subtrees are built first, and each one goes on where the one before it has left off.
  induction tree generalizing builder g after with
  | literal c => exact Laid.literal builds
  | concat left right ihLeft ihRight =>
    obtain ⟨⟨l, middle⟩, buildsLeft, builds⟩ := Outcome.bind_eq_ok.mp builds
    obtain ⟨⟨r, before⟩, buildsRight, builds⟩ := Outcome.bind_eq_ok.mp builds
    exact (ihLeft buildsLeft).concat (ihRight buildsRight) builds
  | union left right ihLeft ihRight =>
    obtain ⟨⟨l, middle⟩, buildsLeft, builds⟩ := Outcome.bind_eq_ok.mp builds
    obtain ⟨⟨r, before⟩, buildsRight, builds⟩ := Outcome.bind_eq_ok.mp builds
    exact (ihLeft buildsLeft).union (ihRight buildsRight) builds
  | star inner ih =>
    obtain ⟨⟨h, before⟩, buildsInner, builds⟩ := Outcome.bind_eq_ok.mp builds
    exact (ih buildsInner).repetition (.star h) rfl rfl rfl builds rfl rfl
  | plus inner ih =>
    obtain ⟨⟨h, before⟩, buildsInner, builds⟩ := Outcome.bind_eq_ok.mp builds
    exact (ih buildsInner).repetition (.plus h) rfl rfl rfl builds rfl rfl

end Tree

/--
A compiled pattern has one way in and one way out, and at most two edges from each state.

The states have the first numbers, and the characters of the pattern tell how many there are.
-/
theorem compile_shaped {pattern : String} {g : Graph} (compiled : compile pattern = .ok g) :
    let literals := literalCount pattern.toList
    let unions := unescapedCount pattern.toList '|'
    let stars := unescapedCount pattern.toList '*'
    let pluses := unescapedCount pattern.toList '+'
    (∀ p, p ∈ g.states ↔ p < 2 * (literals + unions + stars + pluses)) ∧
    (∃ first last, g.Shaped first last) ∧
    g.edges.size + 1 = 2 * literals + 3 * unions + 4 * stars + 3 * pluses := by
  obtain ⟨tree, after, parsed, builds⟩ := compile_eq_ok_iff.mp compiled
  obtain ⟨literals, operators⟩ := (Tree.parse_eq_ok_iff.mp parsed).counts
  have laid := Tree.laid_of_build builds
  simp only [literals, operators .union _ rfl, operators .star _ rfl, operators .plus _ rfl]
  -- Text and tree have as many literals and operators, and the tree tells the numbers.
  refine ⟨fun p => ?_, laid.shaped, ?_⟩
  · rw [laid.mem_states, laid.after_eq, ← tree.stateCount_eq]
    simp
  · rw [laid.size_eq, tree.edgeCount_eq]

/-- A bar behind a backslash is a literal, so there are three literals and one of each operator. -/
theorem compile_shaped_escaped : ∃ g, compile "(\\||a*)+b" = .ok g ∧
    (∀ p, p ∈ g.states ↔ p < 12) ∧ (∃ first last, g.Shaped first last) ∧ g.edges.size = 15 := by
  obtain ⟨g, compiled⟩ : ∃ g, compile "(\\||a*)+b" = .ok g := ⟨_, rfl⟩
  -- An escaped bar is a literal, so that there is one union only.
  have literals : literalCount "(\\||a*)+b".toList = 3 := by decide
  have unions : unescapedCount "(\\||a*)+b".toList '|' = 1 := by decide
  have stars : unescapedCount "(\\||a*)+b".toList '*' = 1 := by decide
  have pluses : unescapedCount "(\\||a*)+b".toList '+' = 1 := by decide
  obtain ⟨states, shaped, size⟩ := compile_shaped compiled
  rw [literals, unions, stars, pluses] at states size
  exact ⟨g, compiled, states, shaped, Nat.succ.inj size⟩

end PatternAutomata
