import PatternAutomata.Proofs.Pattern.Applied
import PatternAutomata.Proofs.Pattern.Faults

/-! The positions at which escapes and groups are found to be at fault. -/

namespace PatternAutomata

open Outcome PlacedToken

namespace Reading

open Pending

variable {before text : List Char} {ended : Bool} {placed : PlacedToken}
  {x y : Reading (List Tree)} {error : Error}

/-- A token opens and closes the groups that its text does. -/
theorem Takes.opened (takes : Takes x ended placed y) (opened : Opened (groups x.pending) before)
    (form : WrittenFor text placed.token) (place : placed.position = before.length) :
    Opened (groups y.pending) (before ++ text) := by
  -- Brackets open and close groups, and all other tokens leave them as they are.
  cases takes with
  | literal c position => exact opened.append (form.nested nofun nofun)
  | opening position =>
    cases form
    cases place
    exact Opened.group opened Nested.nothing
  | nextLiteral c position applied front =>
    rw [applied.groups_eq] at opened
    exact opened.append (form.nested nofun nofun)
  | nextOpening position applied front =>
    rw [applied.groups_eq] at opened
    cases form
    cases place
    exact Opened.group opened Nested.nothing
  | operator position applied front =>
    rw [applied.groups_eq] at opened
    exact opened.append (form.nested nofun nofun)
  | closing position applied apart =>
    rw [applied.groups_eq] at opened
    cases form
    exact opened.closing

/-- The groups that are open are known from the text, and none of those that are closed is empty. -/
structure Grouped (before : List Char) (x : Reading (List Tree)) : Prop where
  /-- The open groups are those of the text. -/
  opened : Opened (groups x.pending) before
  /-- A group that has just been opened waits in front. -/
  front : ∀ position, position + 1 = before.length → Unescaped before position '(' →
    ∃ rest, x.pending = .group position :: rest
  /-- No group is empty. -/
  filled : ∀ position, ¬ EmptyAt before position

/-- A token and the concatenation in front of it keep the groups known. -/
theorem preserves_grouped : Preserves fun before _ x => Grouped before x := by
  intro before ended x text placed y grouped form place ran
  have takes := takes_of_joined ran
  refine ⟨takes.opened grouped.opened form place, ?_, ?_⟩
  · intro position last opens
    obtain ⟨opening, here⟩ := form.opening_of_last grouped.opened.not_dangles last opens
    rw [here, ← place]
    cases takes with
    | opening position => exact ⟨_, rfl⟩
    | nextOpening position applied front => exact ⟨_, rfl⟩
    | _ => cases opening
  · intro position empty
    rcases form.emptyAt_cases empty with earlier | ⟨closes, last, opens⟩
    · exact grouped.filled position earlier
    · -- The group waits in front when it is closed, and so it is found to be empty.
      obtain ⟨rest, front⟩ := grouped.front position last opens
      cases takes with
      | closing _ applied apart =>
        rw [front] at applied
        cases applied
        exact apart (last.trans place.symm)
      | _ => cases closes

/-- What has been taken in is grouped. -/
theorem Taken.grouped {tokens : List PlacedToken} (taken : Taken [] text tokens x) :
    Grouped text x := by
  -- No group is open and none is empty where nothing has been read.
  refine preserves_grouped.taken ⟨Opened.nothing Nested.nothing, ?_, ?_⟩ taken
  · intro position last
    cases last
  · intro position empty
    cases empty.1.lt_length

/-- A fault that a group has. -/
def OfGroup (fault : Fault) : Prop :=
  fault = .unopenedGroup ∨ fault = .emptyGroup ∨ fault = .unclosedGroup

variable {pattern : List Char} {fault : Fault} {position : Nat}

/-- A fault of a group is found when a group is closed or at the end of a pattern. -/
theorem closing_or_taken_of_ofGroup (kind : OfGroup fault)
    (failed : ofPattern ([] : List Tree) pattern = .error (.malformed fault position)) :
    (∃ before rest tokens, ∃ x : Reading (List Tree), before ++ [')'] ++ rest = pattern ∧
      Taken [] before tokens x ∧
      closeGroup before.length x.pending x.operands = .error (.malformed fault position)) ∨
    ∃ tokens, ∃ x : Reading (List Tree), Taken [] pattern tokens x ∧
      finish x.pending x.operands = .error (.malformed fault position) := by
  have filled : fault ≠ .emptyPattern := by
    rintro rfl
    simp [OfGroup] at kind
  have other : fault ≠ .danglingEscape := by
    rintro rfl
    simp [OfGroup] at kind
  -- No other token than a closing bracket has a fault of this kind.
  rcases failsAt_or_taken_of_ofPattern failed filled (not_dangles_of_fault failed other) with
    ⟨before, text, rest, split, tokens, x, placed, taken, form, place, failed⟩ | finished
  · rcases applied_of_joined_error failed with ⟨_, _, _, stuck⟩ | ⟨closing, failed⟩
    · obtain ⟨operator, same⟩ := stuck.exists_missingOperand
      simp [OfGroup, same] at kind
    · rw [closing] at form
      cases form
      exact Or.inl ⟨before, rest, tokens, x, split, taken, place ▸ failed⟩
  · exact Or.inr finished

/-- Groups that were not opened, or are empty, are found when they are closed. -/
theorem exists_taken_of_closing (kind : fault = .unopenedGroup ∨ fault = .emptyGroup)
    (failed : ofPattern ([] : List Tree) pattern = .error (.malformed fault position)) :
    ∃ before rest tokens, ∃ x : Reading (List Tree), before ++ [')'] ++ rest = pattern ∧
      Taken [] before tokens x ∧
      closeGroup before.length x.pending x.operands = .error (.malformed fault position) := by
  have group : OfGroup fault := by
    rcases kind with same | same
    · exact Or.inl same
    · exact Or.inr (Or.inl same)
  rcases closing_or_taken_of_ofGroup group failed with closing | ⟨tokens, x, taken, failed⟩
  · exact closing
  · -- At the end no group is closed.
    have found := fault_of_finish failed
    rcases kind with same | same <;> simp [same] at found

/-- Groups that are not closed are found at the end of a pattern. -/
theorem exists_taken_of_unclosed
    (failed : ofPattern ([] : List Tree) pattern = .error (.malformed .unclosedGroup position)) :
    ∃ tokens, ∃ x : Reading (List Tree), Taken [] pattern tokens x ∧
      finish x.pending x.operands = .error (.malformed .unclosedGroup position) := by
  rcases closing_or_taken_of_ofGroup (Or.inr (Or.inr rfl)) failed with
    ⟨_, _, _, _, _, _, failed⟩ | finished
  · -- Where a group is closed, other faults are found.
    simpa using fault_of_closeGroup failed
  · exact finished

/-- What is wrong at the end of a group is wrong whatever follows. -/
theorem Taken.ofPattern_eq_of_closeGroup {tokens : List PlacedToken}
    (taken : Taken [] before tokens x)
    (failed : closeGroup before.length x.pending x.operands = .error error)
    (begins : pattern.take (before.length + 1) = before ++ [')']) (whole : ¬ Dangles pattern) :
    ofPattern ([] : List Tree) pattern = .error error := by
  have split : before ++ [')'] ++ pattern.drop (before.length + 1) = pattern := by
    rw [← begins, List.take_append_drop]
  rw [← split] at whole ⊢
  refine FailsAt.ofPattern_eq ⟨tokens, x, ⟨.closing, before.length⟩, taken, .closing, rfl, ?_⟩ whole
  -- No concatenation is put in front of the end of a group.
  rw [joinedAfter_singleton rfl, List.foldlM_cons]
  exact congrArg (· >>= _) failed

/-- What is closed was never opened exactly if what stands in front of it is empty or a pattern. -/
theorem ofPattern_unopened_iff (whole : ¬ Dangles pattern) :
    ofPattern ([] : List Tree) pattern = .error (.malformed .unopenedGroup position) ↔
      pattern[position]? = some ')' ∧ (position = 0 ∨
        ∃ trees, ofPattern ([] : List Tree) (pattern.take position) = .ok trees) := by
  constructor
  · intro failed
    obtain ⟨before, rest, tokens, x, split, taken, failed⟩ :=
      exists_taken_of_closing (Or.inl rfl) failed
    -- All operators in front of the end have found their operands.
    obtain ⟨here, trees, applied⟩ := closeGroup_unopened_iff.mp failed
    subst here
    subst split
    refine ⟨by simp, ?_⟩
    by_cases empty : before = []
    · exact Or.inl (by simp [empty])
    · refine Or.inr ⟨trees, ?_⟩
      rw [List.append_assoc, List.take_left' rfl, taken.ofPattern_eq empty]
      exact finish_eq_ok_iff.mpr applied
  · intro ⟨closing, continued⟩
    obtain ⟨inside, same⟩ := List.getElem?_eq_some_iff.mp closing
    have length : (pattern.take position).length = position := by
      rw [List.length_take, Nat.min_eq_left (Nat.le_of_lt inside)]
    have begins : pattern.take (position + 1) = pattern.take position ++ [')'] := by
      rw [List.take_succ_eq_append_getElem inside, same]
    have settles : ∃ tokens trees, ∃ x : Reading (List Tree),
        Taken [] (pattern.take position) tokens x ∧
        Applied x.pending x.operands [] trees := by
      by_cases empty : pattern.take position = []
      · rw [empty]
        exact ⟨[], [], _, Taken.nothing [], Applied.nothing [] []⟩
      · rcases continued with first | ⟨trees, read⟩
        · exact absurd (by simp [first]) empty
        · obtain ⟨tokens, x, taken, finished⟩ := exists_taken_of_ofPattern empty read
          exact ⟨tokens, trees, x, taken, finish_eq_ok_iff.mp finished⟩
    obtain ⟨tokens, trees, x, taken, applied⟩ := settles
    have failed := closeGroup_unopened_iff.mpr ⟨length.symm, trees, applied⟩
    exact taken.ofPattern_eq_of_closeGroup failed (length.symm ▸ begins) whole

/-- An empty group is the first one in the text. -/
theorem emptyAt_of_ofPattern
    (failed : ofPattern ([] : List Tree) pattern = .error (.malformed .emptyGroup position)) :
    EmptyAt pattern position ∧ ∀ earlier < position, ¬ EmptyAt pattern earlier := by
  obtain ⟨before, rest, tokens, x, split, taken, failed⟩ :=
    exists_taken_of_closing (Or.inr rfl) failed
  obtain ⟨here, outer, front⟩ := groups_of_closeGroup_empty failed
  subst split
  have grouped := taken.grouped
  have opens := grouped.opened.unescaped (front ▸ List.mem_cons_self)
  rw [List.append_assoc]
  -- An empty group before would have been found when it was closed.
  refine ⟨⟨(unescaped_append opens.lt_length _).mpr opens, by simp [here]⟩, ?_⟩
  intro earlier less empty
  exact grouped.filled earlier ((emptyAt_append (by omega) _).mp empty)

/-- A group that is not closed is the last such one, and whatever is closed is a group. -/
theorem lastUnclosedAt_of_ofPattern
    (failed : ofPattern ([] : List Tree) pattern = .error (.malformed .unclosedGroup position)) :
    LastUnclosedAt pattern position ∧
      ∀ closed, Unescaped pattern closed ')' → ∃ opened, Matched pattern opened closed := by
  obtain ⟨tokens, x, taken, failed⟩ := exists_taken_of_unclosed failed
  obtain ⟨outer, front⟩ := groups_of_finish_unclosed failed
  have opened := taken.grouped.opened
  rw [front] at opened
  -- What waits in front at the end is the group that was opened last.
  exact ⟨opened.lastUnclosedAt, fun _ closes => opened.exists_matched closes⟩

/-- An escape dangles at the end of a pattern exactly if this is reported. -/
theorem ofPattern_dangling_iff :
    ofPattern ([] : List Tree) pattern = .error (.malformed .danglingEscape position) ↔
      Dangles pattern ∧ position + 1 = pattern.length := by
  constructor
  · intro failed
    by_cases dangles : Dangles pattern
    · obtain ⟨last, place, again⟩ := ofPattern_of_dangles ([] : List Tree) dangles
      cases again.symm.trans failed
      exact ⟨dangles, place⟩
    · -- No token and no end of a pattern is found to be at fault like this.
      rcases failsAt_or_taken_of_ofPattern failed nofun dangles with
        ⟨_, _, _, _, _, _, _, _, _, _, failed⟩ | ⟨_, _, _, failed⟩
      · rcases applied_of_joined_error failed with ⟨_, _, _, stuck⟩ | ⟨_, failed⟩
        · simpa using stuck.exists_missingOperand
        · simpa using fault_of_closeGroup failed
      · simpa using fault_of_finish failed
  · rintro ⟨dangles, place⟩
    obtain ⟨last, same, failed⟩ := ofPattern_of_dangles ([] : List Tree) dangles
    have here : last = position := Nat.succ.inj (same.trans place.symm)
    exact here ▸ failed

end Reading

/-- Compiling a pattern fails as reading it to trees does. -/
theorem agree_compile_ofPattern (pattern : String) :
    Agree (fun (_ : Graph) (_ : List Tree) => True) (compile pattern)
      (Reading.ofPattern [] pattern.toList) := by
  have agree :=
    Reading.agree_ofPattern Operands.alike_corresponds Operands.Corresponds.none pattern.toList
  cases read : Reading.ofPattern ({} : Operands) pattern.toList with
  | ok operands =>
    -- A single automaton is left, so nothing can fail any more.
    rw [read] at agree
    obtain ⟨trees, parsed, _⟩ := agree.ok_left
    obtain ⟨g, single⟩ := exists_graphs_eq_singleton read
    rw [compile, parsed, bind_ok read (sole_eq_ok_iff.mpr single)]
    exact Agree.ok trivial
  | error error =>
    rw [read] at agree
    rw [compile, read, agree.error_left]
    exact Agree.error error

/-- Compiling a pattern fails exactly as reading it to trees does. -/
theorem compile_eq_error_iff {pattern : String} {error : Error} :
    compile pattern = .error error ↔
      Reading.ofPattern ([] : List Tree) pattern.toList = .error error := by
  -- The compiler reads as it would without automata, and fails in the same way.
  have agree := agree_compile_ofPattern pattern
  constructor
  · intro failed
    rw [failed] at agree
    exact agree.error_left
  · intro failed
    rw [failed] at agree
    exact agree.error_right

/-- A pattern compiles exactly if it can be read to trees. -/
theorem exists_compile_iff {pattern : String} :
    (∃ g, compile pattern = .ok g) ↔
      ∃ trees, Reading.ofPattern ([] : List Tree) pattern.toList = .ok trees := by
  -- The compiler reads as it would without automata, and succeeds together with that.
  have agree := agree_compile_ofPattern pattern
  constructor
  · rintro ⟨g, compiled⟩
    rw [compiled] at agree
    obtain ⟨trees, read, _⟩ := agree.ok_left
    exact ⟨trees, read⟩
  · rintro ⟨trees, read⟩
    rw [read] at agree
    obtain ⟨g, compiled, _⟩ := agree.ok_right
    exact ⟨g, compiled⟩

/--
The faults of escapes and groups are found where they are.

A dangling escape is found whatever else is wrong. Without one, an end of a group belongs to no
group if nothing is wrong in front of it, an empty group is the first one, and a group that is not
closed is the last one.
-/
theorem compile_faults_placed (pattern : String) :
    (∀ position, compile pattern = .error (.malformed .danglingEscape position) ↔
      Dangles pattern.toList ∧ position + 1 = pattern.toList.length) ∧
    (¬ Dangles pattern.toList →
      (∀ position, compile pattern = .error (.malformed .unopenedGroup position) ↔
        pattern.toList[position]? = some ')' ∧
          (position = 0 ∨ ∃ g, compile (.ofList (pattern.toList.take position)) = .ok g)) ∧
      (∀ position, compile pattern = .error (.malformed .emptyGroup position) →
        EmptyAt pattern.toList position ∧
          ∀ earlier < position, ¬ EmptyAt pattern.toList earlier) ∧
      ∀ position, compile pattern = .error (.malformed .unclosedGroup position) →
        LastUnclosedAt pattern.toList position ∧
          ∀ closed, Unescaped pattern.toList closed ')' →
            ∃ opened, Matched pattern.toList opened closed) := by
  simp only [compile_eq_error_iff, exists_compile_iff, String.toList_ofList]
  -- One part for each fault, of which a dangling escape comes before all others.
  refine ⟨fun position => Reading.ofPattern_dangling_iff, fun whole => ⟨?_, ?_, ?_⟩⟩
  · exact fun position => Reading.ofPattern_unopened_iff whole
  · exact fun position failed => Reading.emptyAt_of_ofPattern failed
  · exact fun position failed => Reading.lastUnclosedAt_of_ofPattern failed

/-- The last of two groups that are not closed is found behind one that is closed. -/
theorem compile_faults_placed_nested : ¬ Dangles "\\((a)((b".toList ∧
    compile "\\((a)((b" = .error (.malformed .unclosedGroup 6) ∧
    LastUnclosedAt "\\((a)((b".toList 6 := by
  have whole : ¬ Dangles "\\((a)((b".toList := by decide
  have failed : compile "\\((a)((b" = .error (.malformed .unclosedGroup 6) := by rfl
  -- The first bracket is escaped and the next one is closed, so two are left open.
  exact ⟨whole, failed, (((compile_faults_placed _).2 whole).2.2 6 failed).1⟩

/-- What is found where a group is closed does not depend on what follows. -/
theorem compile_eq_of_take_eq {pattern other : String} {position : Nat}
    (whole : ¬ Dangles other.toList) :
    (compile pattern = .error (.malformed .unopenedGroup position) →
      other.toList.take (position + 1) = pattern.toList.take (position + 1) →
      compile other = .error (.malformed .unopenedGroup position)) ∧
    (compile pattern = .error (.malformed .emptyGroup position) →
      other.toList.take (position + 2) = pattern.toList.take (position + 2) →
      compile other = .error (.malformed .emptyGroup position)) := by
  simp only [compile_eq_error_iff]
  -- Either fault is found when a bracket closes a group, and is known by then.
  constructor
  · intro failed same
    obtain ⟨before, rest, tokens, x, split, taken, failed⟩ :=
      Reading.exists_taken_of_closing (Or.inl rfl) failed
    obtain ⟨here, _⟩ := Reading.closeGroup_unopened_iff.mp failed
    rw [here, ← split, List.take_left' (by simp)] at same
    exact taken.ofPattern_eq_of_closeGroup failed same whole
  · intro failed same
    obtain ⟨before, rest, tokens, x, split, taken, failed⟩ :=
      Reading.exists_taken_of_closing (Or.inr rfl) failed
    obtain ⟨here, _⟩ := Reading.groups_of_closeGroup_empty failed
    have length : (before ++ [')']).length = position + 2 := by simp [← here]
    rw [← split, List.take_left' length] at same
    exact taken.ofPattern_eq_of_closeGroup failed (here ▸ same) whole

/-- Neither an operator without operands nor an open group matters behind an end of a group. -/
theorem compile_eq_of_take_eq_behind : ¬ Dangles "a|b)*(|".toList ∧
    compile "a|b))" = .error (.malformed .unopenedGroup 3) ∧
    compile "a|b)*(|" = .error (.malformed .unopenedGroup 3) := by
  have whole : ¬ Dangles "a|b)*(|".toList := by decide
  have failed : compile "a|b))" = .error (.malformed .unopenedGroup 3) := by rfl
  -- Behind the bracket there would be several more faults to find.
  exact ⟨whole, failed, (compile_eq_of_take_eq whole).1 failed rfl⟩

end PatternAutomata
