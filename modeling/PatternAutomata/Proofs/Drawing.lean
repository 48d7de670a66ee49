import PatternAutomata.Drawing

/-! What writers make of settings, and that the standard writer is a pretty one. -/

namespace PatternAutomata.Drawing

/-- All texts but the first have the separator in front of them. -/
theorem intercalate_cons (separator first : String) (rest : List String) :
    separator.intercalate (first :: rest) =
      first ++ String.join (rest.map (separator ++ ·)) := by
  -- The induction takes up the text behind the first one, and joins both to a longer first text.
  induction rest generalizing first with
  | nil => simp
  | cons second rest ih => rw [String.intercalate_cons_cons, ih]; simp [String.append_assoc]

/-- What is set one after the other is handed on to the call before. -/
theorem gather_map (set : Setting → Call) (own : ∀ setting rest,
    gather (set setting :: rest) = (setting :: (gather rest).1, (gather rest).2))
    (settings : List Setting) (rest : List Call) :
    gather (settings.map set ++ rest) = (settings ++ (gather rest).1, (gather rest).2) := by
  -- By induction over what is set, where each call puts its setting in front of the later ones.
  induction settings with
  | nil => rfl
  | cons setting settings ih => rw [List.map_cons, List.cons_append, own, ih, List.cons_append]

/-- The calls of statements are gathered into these statements, and nothing is left over. -/
theorem gather_calls (statements : List Statement) :
    gather (statements.flatMap Statement.calls) = ([], statements) := by
  -- By induction from the last statement on, as each of them takes all that is left over behind.
  have onNode := gather_map .setOnNode fun _ _ => rfl
  have onEdge := gather_map .setOnEdge fun _ _ => rfl
  induction statements with
  | nil => rfl
  | cons statement statements ih =>
    rw [List.flatMap_cons]
    cases statement <;> simp [Statement.calls, gather, onNode, onEdge, ih]

/-- Settings stand in brackets, with commas in between, unless there are none. -/
theorem bracketed_of_ne_nil {settings : List Setting} (some : settings ≠ []) :
    bracketed settings = " [" ++ ", ".intercalate (settings.map Setting.text) ++ "]" := by
  cases settings with
  | nil => exact absurd rfl some
  | cons => rfl

/-- The standard writer is pretty. -/
theorem Writer.standard_pretty : Writer.standard.Pretty where
  lines statements := by
    -- Neither of the two calls in front belongs to a statement.
    have gathered : (gather (.setPrettyPrint true :: .digraph ::
        statements.flatMap Statement.calls)).2 = statements := by simp [gather, gather_calls]
    simp only [standard, gathered]
  overall _ := rfl
  node name settings _ some := by
    simp only [standard, Statement.text, bracketed_of_ne_nil some, String.append_assoc]
  edge source target settings _ _ some := by
    simp only [standard, Statement.text, bracketed_of_ne_nil some, String.append_assoc]
  label _ := rfl
  leftToRight := rfl
  circle := rfl
  color _ := rfl
  penWidth := rfl

end PatternAutomata.Drawing
