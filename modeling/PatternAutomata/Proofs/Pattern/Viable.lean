import PatternAutomata.Proofs.Determinize.Subsets
import PatternAutomata.Proofs.Pattern.Trim

/-! Inputs that can be gone on with to an accepted one, and automata that fail on all others. -/

namespace PatternAutomata

namespace Graph

/-- Some accepted input begins with a text. -/
def Viable (g : Graph) (text : List Char) : Prop :=
  ∃ input : String, g.accepts input = true ∧ text <+: input.toList

variable {g h : Graph} {start : State} {text : List Char}

/-- Graphs that accept the same inputs agree on how these begin. -/
theorem viable_congr (same : ∀ input, h.accepts input = g.accepts input) :
    h.Viable text ↔ g.Viable text := by
  simp only [Viable, same]

/-- A path leads on from the start as long as an accepted input can still be read. -/
theorem Viable.exists_path (viable : g.Viable text) (begins : g.start = some start) :
    ∃ q, g.Path start text q := by
  obtain ⟨input, accepted, rest, whole⟩ := viable
  obtain ⟨_, final, begins', _, path⟩ := accepts_iff_spells.mp accepted
  cases begins.symm.trans begins'
  rw [← whole] at path
  -- A path that reads the whole input passes the place where the text has been read.
  obtain ⟨q, head, _⟩ := path.exists_between
  exact ⟨q, head⟩

/-- In a productive graph a path leads on exactly as long as an accepted input can be read. -/
theorem Productive.exists_path_iff (productive : g.Productive) (wf : g.WellFormed)
    (begins : g.start = some start) : (∃ q, g.Path start text q) ↔ g.Viable text := by
  refine ⟨?_, fun viable => viable.exists_path begins⟩
  rintro ⟨q, path⟩
  -- From wherever the text leads to, a final state is reached by reading on.
  obtain ⟨rest, final, ends, onward⟩ :=
    productive q (wf.mem_of_path path (wf.start_mem start begins))
  refine ⟨String.ofList (text ++ rest), accepts_iff_spells.mpr ?_, rest, by simp⟩
  rw [String.toList_ofList]
  exact ⟨start, final, begins, ends, path.append onward⟩

/-- In a productive graph no states are left exactly when no accepted input can be read. -/
theorem Productive.endsOf_eq_empty_iff (productive : g.Productive) (wf : g.WellFormed)
    (begins : g.start = some start) : g.endsOf start text = ∅ ↔ ¬ g.Viable text := by
  rw [← productive.exists_path_iff wf begins, SortedSet.eq_empty_iff, not_exists]
  -- The states in which reading ends are those that paths lead to.
  exact forall_congr' fun q => not_congr mem_endsOf

/-- A productive deterministic graph leads nowhere exactly when no accepted input can be read. -/
theorem Productive.reach?_eq_none_iff (productive : g.Productive) (wf : g.WellFormed)
    (det : g.Deterministic) (begins : g.start = some start) :
    g.reach? start text = none ↔ ¬ g.Viable text := by
  rw [← productive.exists_path_iff wf begins, Option.eq_none_iff_forall_ne_some, not_exists]
  -- Without a choice there is one state at most that paths lead to.
  exact forall_congr' fun q => not_congr det.reach?_eq_some

/-- A trim graph is trim after any conversion, which then fails on the same inputs. -/
theorem Trim.exists_convert (trim : g.Trim) (wf : g.WellFormed) (conversion : Conversion) :
    ∃ dfa start, g.convert conversion = .ok dfa ∧ dfa.Trim ∧ dfa.start = some start ∧
      ∀ text, dfa.reach? start text = none ↔ ¬ g.Viable text := by
  -- Either conversion keeps the graph trim and accepts the same inputs.
  obtain ⟨dfa, converted, wf', det, trim', same⟩ : ∃ dfa, g.convert conversion = .ok dfa ∧
      dfa.WellFormed ∧ dfa.Deterministic ∧ dfa.Trim ∧
        ∀ input, dfa.accepts input = g.accepts input := by
    cases conversion with
    | determinize =>
      obtain ⟨dfa, determined, wf', det, trim', _⟩ := trim.determinize wf
      obtain ⟨_, again, _, _, same⟩ := determinize_ok wf
      cases determined.symm.trans again
      exact ⟨dfa, determined, wf', det, trim', same⟩
    | minimize =>
      obtain ⟨q, minimized, reduced⟩ := trim.minimize wf
      obtain ⟨_, again, _, _, same⟩ := minimize_ok wf
      cases minimized.symm.trans again
      exact ⟨q, minimized, reduced.wf, reduced.det, reduced.trim, same⟩
  obtain ⟨start, begins⟩ := trim'.begins
  refine ⟨dfa, start, converted, trim', begins, fun text => ?_⟩
  rw [trim'.productive.reach?_eq_none_iff wf' det begins, viable_congr same]

end Graph

/--
No state of a compiled pattern is useless, not even after a conversion.

As soon as no accepted input begins with what was read, no states are left.
-/
theorem compile_fails_early {pattern : String} {g : Graph} (compiled : compile pattern = .ok g) :
    g.Trim ∧
    (∃ start, g.start = some start ∧
      ∀ text, g.endsOf start text = ∅ ↔ ¬ g.Viable text) ∧
    ∀ conversion, ∃ dfa start, g.convert conversion = .ok dfa ∧ dfa.Trim ∧
      dfa.start = some start ∧ ∀ text, dfa.reach? start text = none ↔ ¬ g.Viable text := by
  have wf := wellFormed_of_compile compiled
  have trim := trim_of_compile compiled
  obtain ⟨start, begins⟩ := trim.begins
  -- Every state of a compiled pattern leads to a final one, also after a conversion.
  exact ⟨trim, ⟨start, begins, fun _ => trim.productive.endsOf_eq_empty_iff wf begins⟩,
    fun conversion => trim.exists_convert wf conversion⟩

/-- A text that repeats a group rightly can be gone on with, and one that skips a character not. -/
theorem compile_fails_early_group : ∃ g, compile "(ab|ac)+d" = .ok g ∧ g.Trim ∧
    g.Viable ['a', 'b', 'a'] ∧ ¬ g.Viable ['a', 'b', 'c'] ∧
    ∀ conversion, ∃ dfa start, g.convert conversion = .ok dfa ∧ dfa.Trim ∧
      dfa.start = some start ∧ dfa.reach? start ['a', 'b', 'c'] = none := by
  obtain ⟨g, compiled⟩ : ∃ g, compile "(ab|ac)+d" = .ok g := ⟨_, by cbv⟩
  have ends : (compile "(ab|ac)+d").map (fun g => g.start.map fun start =>
      (decide (g.endsOf start ['a', 'b', 'a'] = ∅), decide (g.endsOf start ['a', 'b', 'c'] = ∅))) =
      .ok (some (false, true)) := by cbv
  obtain ⟨trim, ⟨start, begins, early⟩, converts⟩ := compile_fails_early compiled
  obtain ⟨onward, lost⟩ : g.endsOf start ['a', 'b', 'a'] ≠ ∅ ∧
      g.endsOf start ['a', 'b', 'c'] = ∅ := by
    simpa [compiled, Except.map, begins] using ends
  -- After the third character there is no way on, although two characters are read.
  have stuck : ¬ g.Viable ['a', 'b', 'c'] := (early _).mp lost
  refine ⟨g, compiled, trim, not_not.mp fun blocked => onward ((early _).mpr blocked), stuck, ?_⟩
  intro conversion
  obtain ⟨dfa, first, converted, trim', begins', early'⟩ := converts conversion
  exact ⟨dfa, first, converted, trim', begins', (early' _).mpr stuck⟩

end PatternAutomata
