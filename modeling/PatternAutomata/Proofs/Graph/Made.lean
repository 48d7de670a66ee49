import PatternAutomata.Graph.Tabled
import PatternAutomata.Proofs.Graph.Edit
import PatternAutomata.Proofs.Kept
import PatternAutomata.Proofs.SortedSet

/-! The table of a graph that has been made by calls tells the edges of the graph. -/

namespace PatternAutomata

namespace Tabled

variable {α : Type} {tabled : Tabled}

/-- Steps on the graph leave the table as it is. -/
theorem perform_onGraph (edit : Edit α) (tabled : Tabled) : (onGraph edit).perform tabled =
    ({ tabled with graph := (edit.perform tabled.graph).1 }, (edit.perform tabled.graph).2) := by
  unfold onGraph
  rw [Steps.perform_bind, Steps.perform_get]
  dsimp only
  -- The table is the same whether or not the steps have failed.
  rcases edit.perform tabled.graph with ⟨changed, _ | _⟩
  · rfl
  · rfl

/-- What is done to the graph completely or not at all leaves both as they were if it fails. -/
theorem perform_onGraph_of_allOrNothing {edit : Edit Unit}
    {operation : Graph → Except Error Graph} (steps : Edit.AllOrNothing edit operation)
    (tabled : Tabled) : (onGraph edit).perform tabled = match operation tabled.graph with
      | .ok changed => ({ tabled with graph := changed }, .ok ())
      | .error error => (tabled, .error error) := by
  rw [perform_onGraph, steps tabled.graph]
  -- If the operation fails, the graph is put back as it has been taken out.
  cases operation tabled.graph with
  | ok changed => rfl
  | error error => rfl

/-- A call that is refused writes nothing into the table either. -/
theorem perform_onGraph_modify {edit : Edit Unit} {operation : Graph → Except Error Graph}
    (steps : Edit.AllOrNothing edit operation) (write : Table → Table) (tabled : Tabled) :
    (onGraph edit >>= fun _ => modify fun tabled =>
      { tabled with table := write tabled.table }).perform tabled =
      match operation tabled.graph with
      | .ok changed => ({ graph := changed, table := write tabled.table }, .ok ())
      | .error error => (tabled, .error error) := by
  -- The table is written last, when nothing can fail any more.
  rw [Steps.perform_bind, perform_onGraph_of_allOrNothing steps]
  cases operation tabled.graph with
  | ok changed => rfl
  | error error => rfl

/-- An edge comes into the graph and into the table, or into neither of them. -/
theorem perform_addEdge (edge : Edge) (tabled : Tabled) : (addEdge edge).perform tabled =
    match tabled.graph.addEdge edge with
    | .ok changed => ({ graph := changed, table := tabled.table.add edge }, .ok ())
    | .error error => (tabled, .error error) :=
  perform_onGraph_modify (Edit.allOrNothing_addEdge edge) (·.add edge) tabled

/-- A start is set, or nothing is written. -/
theorem perform_setStart (state : State) (tabled : Tabled) : (setStart state).perform tabled =
    match tabled.graph.setStart state with
    | .ok changed => ({ tabled with graph := changed }, .ok ())
    | .error error => (tabled, .error error) :=
  perform_onGraph_of_allOrNothing (Edit.allOrNothing_setStart state) tabled

/-- A state is made final, or nothing is written. -/
theorem perform_markFinal (state : State) (tabled : Tabled) : (markFinal state).perform tabled =
    match tabled.graph.markFinal state with
    | .ok changed => ({ tabled with graph := changed }, .ok ())
    | .error error => (tabled, .error error) :=
  perform_onGraph_of_allOrNothing (Edit.allOrNothing_markFinal state) tabled

/-- Another graph is taken over with its table, or nothing is written. -/
theorem perform_merge (other tabled : Tabled) : (merge other).perform tabled =
    match tabled.graph.merge other.graph with
    | .ok merged => ({ graph := merged, table := tabled.table.extend other.table }, .ok ())
    | .error error => (tabled, .error error) :=
  perform_onGraph_modify (Edit.allOrNothing_merge other.graph) (·.extend other.table) tabled

/-- What stays true as calls succeed is true after any calls, as refused ones change nothing. -/
theorem Made.of_keeps {P : Graph → Table → Prop} (keeps : Keeps P) (made : Made tabled) :
    P tabled.graph tabled.table := by
  -- The induction is on the calls, and each of them succeeds or leaves all as it was.
  induction made with
  | blank next => exact keeps.blank next
  | createState _ ih => exact keeps.createState ih
  | @addEdge tabled _ edge ih =>
    rw [perform_addEdge]
    cases added : tabled.graph.addEdge edge with
    | ok changed => exact keeps.addEdge ih added
    | error error => exact ih
  | @setStart tabled _ state ih =>
    rw [perform_setStart]
    cases set : tabled.graph.setStart state with
    | ok changed => exact keeps.setStart ih set
    | error error => exact ih
  | @markFinal tabled _ state ih =>
    rw [perform_markFinal]
    cases marked : tabled.graph.markFinal state with
    | ok changed => exact keeps.markFinal ih marked
    | error error => exact ih
  | @merge tabled other _ _ ih ihOther =>
    rw [perform_merge]
    cases done : tabled.graph.merge other.graph with
    | ok merged => exact keeps.merge ih ihOther done
    | error error => exact ih

end Tabled

/-- Calls on graphs keep it that a graph has been made by calls. -/
theorem kept_made : Kept fun g => ∃ t, g.Made t where
  blank next := ⟨∅, .blank next⟩
  createState made := made.imp fun _ made => made.createState
  addEdge := by
    rintro g changed edge ⟨t, made⟩ added
    -- The graph and the table after a call that succeeds are known.
    have after := made.addEdge edge
    rw [Tabled.perform_addEdge, added] at after
    exact ⟨_, after⟩
  setStart := by
    rintro g changed state ⟨t, made⟩ set
    have after := made.setStart state
    rw [Tabled.perform_setStart, set] at after
    exact ⟨_, after⟩
  markFinal := by
    rintro g changed state ⟨t, made⟩ marked
    have after := made.markFinal state
    rw [Tabled.perform_markFinal, marked] at after
    exact ⟨_, after⟩
  merge := by
    rintro g other merged ⟨t, made⟩ ⟨u, madeOther⟩ done
    have after := made.merge madeOther
    rw [Tabled.perform_merge, done] at after
    exact ⟨_, after⟩

namespace Graph

/-- Whatever calls keep of graphs, they keep of graphs and their tables. -/
theorem keeps_of_kept {P : Graph → Prop} (kept : Kept P) : Tabled.Keeps fun g _ => P g where
  blank := kept.blank
  createState has := kept.createState has
  addEdge has added := kept.addEdge has added
  setStart has set := kept.setStart has set
  markFinal has marked := kept.markFinal has marked
  merge has hasOther merged := kept.merge has hasOther merged

/-- Keys are made for edges and for keys of other tables, and no key is emptied. -/
theorem keeps_filled : Tabled.Keeps fun _ t => t.Filled where
  blank _ := Table.Filled.empty
  createState filled := filled
  addEdge filled _ := filled.add _
  -- Nothing is kept in the table of a start or of final states.
  setStart filled _ := filled
  markFinal filled _ := filled
  merge filled filledOther _ := filled.extend filledOther

/-- Only edges and merged graphs bring edges, and the table takes in the same ones. -/
theorem keeps_mem_targets : Tabled.Keeps fun g t =>
    ∀ p symbol q, q ∈ t.targets p symbol ↔ ⟨p, symbol, q⟩ ∈ g.edges where
  blank _ _ _ _ := by simp
  createState same := same
  -- Of the edges there are now the new one and those from before, and likewise of the targets.
  addEdge same added p symbol q := by
    obtain ⟨_, _, rfl⟩ := addEdge_cases added
    rw [Table.mem_targets_add, same, SortedSet.mem_insert]
  setStart same set := by
    obtain ⟨_, rfl⟩ := setStart_cases set
    exact same
  markFinal same marked := by
    obtain ⟨_, rfl⟩ := markFinal_cases marked
    exact same
  merge same sameOther merged p symbol q := by
    obtain ⟨_, rfl⟩ := merge_cases merged
    rw [Table.mem_targets_extend, same, sameOther, SortedSet.mem_union]

namespace Made

variable {g : Graph} {t u : Table}

/-- A graph that has been made by calls has all that these keep. -/
theorem of_kept {P : Graph → Prop} (kept : Kept P) (made : g.Made t) : P g :=
  Tabled.Made.of_keeps (keeps_of_kept kept) made

/-- No key is ever kept without targets. -/
theorem filled (made : g.Made t) : t.Filled := Tabled.Made.of_keeps keeps_filled made

/-- Under each key there are the states that edges of this key enter. -/
theorem targets_eq (made : g.Made t) (p : State) (symbol : Symbol) :
    t.targets p symbol = g.targets p symbol := by
  ext q
  rw [mem_targets]
  -- Whatever calls there were, both sides have the same elements.
  exact Tabled.Made.of_keeps keeps_mem_targets made p symbol q

/-- However a graph has been made, its edges are in the same table. -/
theorem unique (made : g.Made t) (again : g.Made u) : t = u :=
  made.filled.ext again.filled fun p symbol => by rw [made.targets_eq, again.targets_eq]

/-- A graph leaves a choice exactly if its table has a silent key or one with several targets. -/
theorem isNondeterministic_iff (made : g.Made t) : g.isNondeterministic = true ↔ t.Branches := by
  have edge := Tabled.Made.of_keeps keeps_mem_targets made
  rw [Graph.isNondeterministic_iff]
  constructor
  · rintro ⟨⟨p, symbol, q⟩, member, choice⟩
    -- The key of the edge is there, since it has a target.
    have target := (edge p symbol q).mpr member
    have found : t.find p symbol = some (t.targets p symbol) := by
      rw [made.filled.find_eq, if_neg (SortedSet.ne_empty_iff.mpr ⟨q, target⟩)]
    refine ⟨p, symbol, _, found, choice.imp_right ?_⟩
    rintro ⟨⟨_, _, q'⟩, member', rfl, rfl, different⟩
    exact SortedSet.one_lt_size_iff.mpr ⟨q, target, q', (edge _ _ q').mpr member', different⟩
  · rintro ⟨p, symbol, targets, found, choice⟩
    have known : t.targets p symbol = targets := by rw [Table.targets, found, Option.getD_some]
    rcases choice with silent | several
    · -- A key that is there has a target, to which a silent edge leads.
      have some : targets ≠ ∅ := fun none => made.filled p symbol (by rw [found, none])
      obtain ⟨q, target⟩ := SortedSet.ne_empty_iff.mp some
      exact ⟨_, (edge p symbol q).mp (known ▸ target), Or.inl silent⟩
    · obtain ⟨q, target, q', target', different⟩ := SortedSet.one_lt_size_iff.mp several
      exact ⟨_, (edge p symbol q).mp (known ▸ target), Or.inr
        ⟨_, (edge p symbol q').mp (known ▸ target'), rfl, rfl, different⟩⟩

end Made

end Graph

end PatternAutomata
