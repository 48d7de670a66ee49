import PatternAutomata.Pattern.Blame
import PatternAutomata.Proofs.Pattern.Positions

/-! The operators that are reported to lack an operand, and those that really do. -/

namespace PatternAutomata

open Outcome PlacedToken

/-- An operator lacks an operand if it does between what is in front of it and behind it. -/
theorem Operator.Lacks.lacksOperand {operator : Operator} {first second : List PlacedToken}
    (lacks : operator.Lacks first second) (position : Nat) :
    LacksOperand (first ++ ⟨.operator operator, position⟩ :: second) operator position :=
  ⟨first.length, by simp, by simp, by simpa using lacks⟩

/-- An operator that is the last token lacks an operand if none can end in front of it. -/
theorem LacksLeft.lacksOperand {first : List PlacedToken} (lacks : LacksLeft first)
    {operator : Operator} (written : operator ≠ .concat) (position : Nat)
    (more : List PlacedToken) :
    LacksOperand (first ++ [⟨.operator operator, position⟩] ++ more) operator position := by
  rw [List.append_assoc, List.singleton_append]
  refine Operator.Lacks.lacksOperand ?_ position
  -- All operators but a concatenation need an operand that ends before them.
  cases operator with
  | union => exact Or.inl lacks
  | concat => exact absurd rfl written
  | plus => exact lacks
  | star => exact lacks

/-- A bar lacks an operand if none begins with the next token. -/
theorem lacksOperand_bar (first more : List PlacedToken) (position : Nat) {next : PlacedToken}
    (none : next.token.beginsOperand = false) :
    LacksOperand (first ++ [⟨.operator .union, position⟩] ++ [next] ++ more) .union position := by
  -- The token behind the bar does not begin an operand.
  have right : LacksRight (next :: more) := by
    rintro _ ⟨⟩
    exact none
  have lacks : Operator.Lacks first (next :: more) .union := Or.inr right
  have split : first ++ [⟨.operator .union, position⟩] ++ [next] ++ more =
    first ++ ⟨.operator .union, position⟩ :: next :: more := by simp
  rw [split]
  exact lacks.lacksOperand position

/-- Behind the beginning of a group and behind a bar no operand can end. -/
theorem lacksLeft_joinedAfter {placed : PlacedToken}
    (last : placed.token = .opening ∨ placed.token = .operator .union) (ended : Bool)
    (all : List PlacedToken) : LacksLeft (all ++ joinedAfter ended [placed]) := by
  intro token final
  rw [joinedAfter, joinedAfter, ← List.append_assoc, List.getLast?_concat] at final
  -- The token itself is the last one, whatever is implied in front of it.
  cases final
  exact last

/-- What is written next is written in all groups that are open. -/
theorem Opened.inside {groups : List Nat} {text : List Char} {opened : Nat}
    (opens : Opened groups text) (member : opened ∈ groups) (later : List Char) :
    Inside (text ++ later) opened text.length :=
  ⟨groups, by rwa [List.take_left' rfl], member⟩

namespace Reading

open Pending

/-- An operator is to blame, or one in a group behind it, whatever follows a text. -/
def Excused (text : List Char) (tokens : List PlacedToken) (operator : Operator)
    (position : Nat) : Prop :=
  -- An error is met before the rest of the pattern is looked at.
  ∀ later more, Blamed (text ++ later) (tokens ++ more) operator position

/-- What waits where no operand has ended, behind some tokens. -/
inductive Begun (text : List Char) (tokens : List PlacedToken) : List Pending → Prop where
  /-- Nothing has been written. -/
  | nothing : Begun text tokens []
  /-- A group has just been opened. -/
  | group {opened : Nat} (rest : List Pending) (last : opened + 1 = text.length) :
      Begun text tokens (.group opened :: rest)
  /-- A bar has just been written outside of all groups. -/
  | bar {first : List PlacedToken} {position : Nat}
      (last : first ++ [⟨.operator .union, position⟩] = tokens) :
      Begun text tokens [.operator .union position]
  /-- A bar has just been written in a group. -/
  | barWithin {first : List PlacedToken} {opened position : Nat} (rest : List Pending)
      (last : first ++ [⟨.operator .union, position⟩] = tokens)
      (within : ∀ later, Inside (text ++ later) opened position) :
      Begun text tokens (.operator .union position :: .group opened :: rest)

/-- It is known which operand every operator that waits will find, or why it might find none. -/
structure Accounted (text : List Char) (tokens : List PlacedToken) (x : Reading (List Tree)) :
    Prop where
  /-- Where an operand has ended there is one, or a repetition waits to be applied to it. -/
  ended : endsAfter false tokens = true → x.operands = [] → ∃ operator position rest,
    x.pending = .operator operator position :: rest ∧ operator.precedence = 3
  /-- Where no operand has ended, nothing has been written, or the beginning of one. -/
  begun : endsAfter false tokens = false → LacksLeft (joinedAfter false tokens) ∧
    Begun text (joinedAfter false tokens) x.pending
  /-- Repetitions wait in front only. -/
  binary : ∀ operator position, .operator operator position ∈ x.pending.tail →
    operator = .concat ∨ operator = .union
  /-- A group that is open was opened behind the operators that wait for its end. -/
  around : ∀ opened rest, .group opened :: rest <:+ x.pending →
    ∀ operator position, .operator operator position ∈ rest → position ≤ opened
  /-- The operators that wait have been read. -/
  read : ∀ operator position, .operator operator position ∈ x.pending →
    ⟨.operator operator, position⟩ ∈ joinedAfter false tokens ∧ position < text.length
  /-- An operator that waits for more than the others leave has an excuse. -/
  excused : ∀ operator position below, .operator operator position :: below <:+ x.pending →
    debt x.pending + (endsAfter false tokens).toNat ≤ x.operands.length + debt below ∨
      Excused text (joinedAfter false tokens) operator position

variable {before text : List Char} {tokens : List PlacedToken} {placed : PlacedToken}
  {x y : Reading (List Tree)} {rest below : List Pending} {settled : List Tree}
  {operator other : Operator} {position place opened : Nat} {ended : Bool}

/-- An excuse holds whatever follows. -/
theorem Excused.append (excused : Excused before tokens operator position) (text : List Char)
    (later : List PlacedToken) : Excused (before ++ text) (tokens ++ later) operator position := by
  intro more rest
  -- What follows may begin with the additional text and tokens.
  rw [List.append_assoc, List.append_assoc]
  exact excused _ _

/-- An operator that lacks an operand whatever follows has an excuse. -/
theorem excused_of_lacks (lacks : ∀ more, LacksOperand (tokens ++ more) operator position)
    (text : List Char) : Excused text tokens operator position :=
  fun _ more => Or.inl (lacks more)

/-- An operator has an excuse if one lacks an operand in a group behind it. -/
theorem excused_of_inside (binary : operator = .concat ∨ operator = .union)
    (lacks : ∀ more, LacksOperand (tokens ++ more) other place)
    (inside : ∀ later, Inside (text ++ later) opened place) (behind : position ≤ opened) :
    Excused text tokens operator position :=
  fun later more => Or.inr ⟨binary, other, place, opened, lacks more, behind, inside later⟩

/-- No operator binds more tightly than a repetition. -/
theorem precedence_le_three (operator : Operator) : operator.precedence ≤ 3 := by
  cases operator <;> decide

/-- Operators other than repetitions bind less tightly than these. -/
theorem binary_of_precedence (less : operator.precedence < 3) :
    operator = .concat ∨ operator = .union := by
  cases operator <;> simp [Operator.precedence] at less ⊢

/-- Only groups bind less tightly than a bar. -/
theorem Looser.union_cases (front : Looser .union rest) :
    rest = [] ∨ ∃ opened outer, rest = .group opened :: outer := by
  -- No operator binds less than a bar does.
  rcases rest with _ | ⟨⟨opened⟩ | ⟨waiting, place⟩, outer⟩
  · exact Or.inl rfl
  · exact Or.inr ⟨opened, outer, rfl⟩
  · have less := front waiting place outer rfl
    cases waiting <;> simp [Operator.precedence] at less

/-- No repetition waits when a new operator begins to wait. -/
theorem Accounted.binary_of_looser (accounted : Accounted before tokens x)
    (applied : Applied x.pending x.operands rest settled) (front : Looser other rest)
    (waits : .operator operator position ∈ rest) : operator = .concat ∨ operator = .union := by
  -- An operator that is left in front binds less than another one, so it is no repetition.
  rcases applied.eq_or_ne_nil with ⟨same, _⟩ | ⟨inner, _⟩
  · rcases rest with _ | ⟨top, outer⟩
    · cases waits
    · rcases List.mem_cons.mp waits with first | later
      · subst first
        exact binary_of_precedence (Nat.lt_of_lt_of_le (front _ _ _ rfl) (precedence_le_three _))
      · exact accounted.binary operator position (by rw [← same]; exact later)
  · exact accounted.binary operator position (inner.subset waits)

/-- There is a tree when a new operator begins to wait behind the end of an operand. -/
theorem Accounted.ne_nil_of_looser (accounted : Accounted before tokens x)
    (ended : endsAfter false tokens = true) (applied : Applied x.pending x.operands rest settled)
    (front : Looser operator rest) : settled ≠ [] := by
  -- Without operands a repetition would wait in front, and nothing binds tighter than that.
  rcases applied.eq_or_ne_nil with ⟨same, kept⟩ | ⟨_, some⟩
  · rw [kept]
    intro none
    obtain ⟨repetition, place, outer, waits, tight⟩ := accounted.ended ended none
    have less := front repetition place outer (same.trans waits)
    have most := precedence_le_three operator
    omega
  · exact some

/-- What waits where no operand has ended is a bar at the end, or waits for a group to end. -/
theorem Begun.mem_cases {all : List PlacedToken} {pending : List Pending}
    (begun : Begun text all pending) (waits : .operator operator position ∈ pending) :
    (operator = .union ∧ ∃ first, first ++ [⟨.operator .union, position⟩] = all) ∨
      ∃ opened outer, .group opened :: outer <:+ pending ∧ .operator operator position ∈ outer := by
  -- An operator waits in front, where it is a bar, or else behind a group.
  cases begun with
  | nothing => cases waits
  | group rest last =>
    rcases List.mem_cons.mp waits with front | later
    · cases front
    · exact Or.inr ⟨_, rest, List.suffix_refl _, later⟩
  | bar last =>
    cases List.mem_singleton.mp waits
    exact Or.inl ⟨rfl, _, last⟩
  | barWithin rest last within =>
    rcases List.mem_cons.mp waits with front | later
    · cases front
      exact Or.inl ⟨rfl, _, last⟩
    · rcases List.mem_cons.mp later with front | later
      · cases front
      · exact Or.inr ⟨_, rest, List.suffix_cons _ _, later⟩

/-- What stands behind something that waits does not wait in front. -/
theorem mem_tail_of_suffix {top waits : Pending} {pending : List Pending}
    (front : top :: rest <:+ pending) (member : waits ∈ rest) : waits ∈ pending.tail := by
  obtain ⟨others, whole⟩ := front
  rw [← whole]
  -- What is behind the front of an end of a list is not the front of the list.
  cases others with
  | nil => exact member
  | cons first others => exact List.mem_append_right _ (List.mem_cons_of_mem _ member)

/-- No repetition waits where no operand has ended. -/
theorem Accounted.binary_of_begun (accounted : Accounted before tokens x)
    (begun : endsAfter false tokens = false) (waits : .operator operator position ∈ x.pending) :
    operator = .concat ∨ operator = .union := by
  -- A bar waits in front, or what waits there is a group with the operator behind it.
  rcases (accounted.begun begun).2.mem_cases waits with ⟨bar, _⟩ | ⟨opened, outer, front, waits⟩
  · exact Or.inr bar
  · exact accounted.binary operator position (mem_tail_of_suffix front waits)

/-- An operator that waits behind a token has waited before, or begins to wait with the token. -/
theorem Takes.operator_cases (takes : Takes x ended placed y)
    (waits : .operator operator position :: below <:+ y.pending) :
    .operator operator position :: below <:+ x.pending ∨
      (⟨.operator operator, position⟩ ∈ joinedAfter ended [placed] ∧ position = placed.position ∧
        ∃ settled, Applied x.pending x.operands below settled ∧ Looser operator below ∧
          y.operands.length = settled.length + placed.token.gain) := by
  -- One case for each way to take a token, after which an operator is new or has waited before.
  cases takes with
  | literal c place => exact Or.inl waits
  | opening place =>
    rcases List.suffix_cons_iff.mp waits with front | earlier
    · cases front
    · exact Or.inl earlier
  | nextLiteral c place applied front =>
    rcases List.suffix_cons_iff.mp waits with new | earlier
    · cases new
      exact Or.inr ⟨by simp [joinedAfter, Token.beginsOperand], rfl, _, applied, front, rfl⟩
    · exact Or.inl (earlier.trans applied.suffix)
  -- A concatenation comes to wait first, and then the group in front of it.
  | nextOpening place applied front =>
    rcases List.suffix_cons_iff.mp waits with new | earlier
    · cases new
    · rcases List.suffix_cons_iff.mp earlier with new | earlier
      · cases new
        exact Or.inr ⟨by simp [joinedAfter, Token.beginsOperand], rfl, _, applied, front, rfl⟩
      · exact Or.inl (earlier.trans applied.suffix)
  | operator place applied front =>
    rcases List.suffix_cons_iff.mp waits with new | earlier
    · cases new
      exact Or.inr ⟨by simp [joinedAfter], rfl, _, applied, front, rfl⟩
    · exact Or.inl (earlier.trans applied.suffix)
  | closing place applied apart =>
    exact Or.inl (waits.trans ((List.suffix_cons _ _).trans applied.suffix))

/-- A group that waits behind a token has waited before, or is opened by the token. -/
theorem Takes.group_cases (takes : Takes x ended placed y)
    (waits : .group opened :: below <:+ y.pending) :
    .group opened :: below <:+ x.pending ∨
      opened = placed.position ∧ ∀ operator position, .operator operator position ∈ below →
        .operator operator position ∈ x.pending ∨ position = placed.position := by
  -- Only an opening bracket makes a group wait, alone or in front of an implied concatenation.
  cases takes with
  | literal c place => exact Or.inl waits
  | opening place =>
    rcases List.suffix_cons_iff.mp waits with new | earlier
    · cases new
      exact Or.inr ⟨rfl, fun _ _ waits => Or.inl waits⟩
    · exact Or.inl earlier
  | nextLiteral c place applied front =>
    rcases List.suffix_cons_iff.mp waits with new | earlier
    · cases new
    · exact Or.inl (earlier.trans applied.suffix)
  | nextOpening place applied front =>
    rcases List.suffix_cons_iff.mp waits with new | earlier
    · cases new
      -- Behind the group there is that concatenation, and then only what has waited before.
      refine Or.inr ⟨rfl, fun operator position waits => ?_⟩
      rcases List.mem_cons.mp waits with new | earlier
      · cases new
        exact Or.inr rfl
      · exact Or.inl (applied.suffix.subset earlier)
    · rcases List.suffix_cons_iff.mp earlier with new | earlier
      · cases new
      · exact Or.inl (earlier.trans applied.suffix)
  | operator place applied front =>
    rcases List.suffix_cons_iff.mp waits with new | earlier
    · cases new
    · exact Or.inl (earlier.trans applied.suffix)
  | closing place applied apart =>
    exact Or.inl (waits.trans ((List.suffix_cons _ _).trans applied.suffix))

/-- Repetitions still wait in front only. -/
theorem Accounted.binary_of_takes (accounted : Accounted before tokens x)
    (takes : Takes x (endsAfter false tokens) placed y)
    (waits : .operator operator position ∈ y.pending.tail) :
    operator = .concat ∨ operator = .union := by
  generalize same : endsAfter false tokens = ended at takes
  cases takes with
  | literal c place => exact accounted.binary operator position waits
  | opening place => exact accounted.binary_of_begun same waits
  | nextLiteral c place applied front => exact accounted.binary_of_looser applied front waits
  | nextOpening place applied front =>
    rcases List.mem_cons.mp waits with new | earlier
    · cases new
      exact Or.inl rfl
    · exact accounted.binary_of_looser applied front earlier
  | operator place applied front => exact accounted.binary_of_looser applied front waits
  | closing place applied apart =>
    -- The group has waited in front of what goes on waiting.
    have later := List.mem_of_mem_tail waits
    exact accounted.binary operator position (mem_tail_of_suffix applied.suffix later)

/-- What has been taken in is underway. -/
theorem Taken.underway (taken : Taken [] text tokens x) : Underway text x :=
  preserves_underway.taken ⟨fun _ filled => absurd rfl filled, fun _ _ _ => nofun⟩ taken

/-- Behind the end of an operand there is one, or a repetition waits. -/
theorem Takes.exists_repetition (takes : Takes x ended placed y) (underway : Underway before x)
    (place : placed.position = before.length) (ends : placed.token.endsOperand = true)
    (none : y.operands = []) : ∃ operator position rest,
      y.pending = .operator operator position :: rest ∧ operator.precedence = 3 := by
  cases takes with
  | literal c position => cases none
  | opening position => cases ends
  | nextLiteral c position applied front => cases none
  | nextOpening position applied front => cases ends
  | @operator ended rest settled operator position applied front =>
    refine ⟨operator, position, rest, rfl, ?_⟩
    cases operator with
    | star => rfl
    | plus => rfl
    | concat => cases ends
    | union => cases ends
  | closing position applied apart =>
    -- A group in which nothing has been applied would be empty.
    rcases applied.eq_or_ne_nil with ⟨front, kept⟩ | ⟨_, some⟩
    · have last := underway.opened (kept.symm.trans none) _ _ front.symm
      exact absurd (last.trans place.symm) apart
    · exact absurd none some

/-- Where no operand has ended behind a token, it is a bar or begins a group. -/
theorem Takes.begun (takes : Takes x ended placed y) (grouped : Grouped before x)
    (form : WrittenFor text placed.token) (place : placed.position = before.length)
    (ongoing : placed.token.endsOperand = false) (all : List PlacedToken) :
    LacksLeft (all ++ joinedAfter ended [placed]) ∧
      Begun (before ++ text) (all ++ joinedAfter ended [placed]) y.pending := by
  cases takes with
  | literal c position => cases ongoing
  | opening position =>
    cases form
    cases place
    exact ⟨lacksLeft_joinedAfter (Or.inl rfl) _ _, Begun.group _ (by simp)⟩
  | nextLiteral c position applied front => cases ongoing
  | nextOpening position applied front =>
    cases form
    cases place
    exact ⟨lacksLeft_joinedAfter (Or.inl rfl) _ _, Begun.group _ (by simp)⟩
  | operator position applied front =>
    cases form with
    | star => cases ongoing
    | plus => cases ongoing
    | union =>
      cases place
      refine ⟨lacksLeft_joinedAfter (Or.inr rfl) _ _, ?_⟩
      rw [joinedAfter_singleton rfl]
      rcases front.union_cases with none | ⟨opened, outer, front⟩
      · subst none
        exact Begun.bar rfl
      · subst front
        -- The group in which the bar is written is the innermost one that is open.
        refine Begun.barWithin outer rfl fun later => ?_
        rw [List.append_assoc]
        refine grouped.opened.inside ?_ _
        rw [applied.groups_eq]
        exact List.mem_cons_self
  | closing position applied apart => cases ongoing

/-- What waits for a group to end has an excuse if an operator in the group lacks an operand. -/
theorem Accounted.excused_of_around (accounted : Accounted before tokens x)
    (front : .group opened :: rest <:+ x.pending) (waits : .operator operator position ∈ rest)
    {all : List PlacedToken} (lacks : ∀ more, LacksOperand (all ++ more) other place)
    (inside : ∀ later, Inside (text ++ later) opened place) :
    Excused text all operator position := by
  -- What waits around a group was read before it, and is neither a star nor a plus.
  have binary := accounted.binary operator position (mem_tail_of_suffix front waits)
  have behind := accounted.around opened rest front operator position waits
  exact excused_of_inside binary lacks inside behind

/-- A token that fits nowhere is an excuse for all that goes on waiting. -/
theorem Accounted.excused_of_misplaced (accounted : Accounted before tokens x)
    (grouped : Grouped before x) (takes : Takes x false placed y)
    (begun : endsAfter false tokens = false) (alone : placed.token.beginsOperand = false)
    (form : WrittenFor text placed.token) (place : placed.position = before.length)
    (waits : .operator operator position ∈ y.pending) :
    Excused (before ++ text) (joinedAfter false tokens ++ [placed]) operator position := by
  obtain ⟨left, begun⟩ := accounted.begun begun
  cases takes with
  | literal c position => cases alone
  | opening position => cases alone
  | @operator _ rest settled written position applied front =>
    have listed : written ≠ .concat := by
      rintro rfl
      cases form
    have lacks := left.lacksOperand listed position
    rcases List.mem_cons.mp waits with new | earlier
    · cases new
      exact excused_of_lacks lacks _
    · rcases begun.mem_cases (applied.suffix.subset earlier) with
        ⟨bar, first, last⟩ | ⟨opened, outer, front, waits⟩
      · -- The operator stands behind a bar that waits.
        subst bar
        rw [← last]
        exact excused_of_lacks (fun more => lacksOperand_bar first more _ rfl) _
      · refine accounted.excused_of_around front waits lacks fun later => ?_
        cases place
        rw [List.append_assoc]
        exact grouped.opened.inside (mem_groups (front.subset List.mem_cons_self)) _
  | @closing _ rest settled opened position applied apart =>
    have around := applied.suffix
    generalize same : x.pending = pending at begun applied
    cases begun with
    | nothing => cases applied
    | group others last =>
      -- Nothing has been written in the group, so it cannot be closed.
      cases applied
      exact absurd (last.trans place.symm) apart
    | bar last =>
      cases applied with
      | operator _ others => cases others
    | barWithin others last within =>
      cases applied with
      | operator _ closed =>
        cases closed
        rw [← last]
        -- The bar that was written last in the group lacks its right operand.
        refine accounted.excused_of_around around waits
          (fun more => lacksOperand_bar _ more _ rfl) fun later => ?_
        rw [List.append_assoc]
        exact within _

/-- A token that fits leaves the operators with what they will find, or with their excuses. -/
theorem Accounted.excused_of_fitting (accounted : Accounted before tokens x)
    (ran : (joinedAfter (endsAfter false tokens) [placed]).foldlM step x = .ok y)
    (fits : (placed.token.beginsOperand || endsAfter false tokens) = true)
    (form : WrittenFor text placed.token)
    (waits : .operator operator position :: below <:+ y.pending) :
    debt y.pending + placed.token.endsOperand.toNat ≤ y.operands.length + debt below ∨
      Excused (before ++ text)
        (joinedAfter false tokens ++ joinedAfter (endsAfter false tokens) [placed]) operator
        position := by
  have takes := takes_of_joined ran
  obtain ⟨paid, _⟩ := balance_joined ran
  have weighed := form.weigh (endsAfter false tokens)
  rw [fits, Bool.not_true, Bool.toNat_false] at weighed
  -- As many operands are missing as before, and nothing changes below what goes on waiting.
  rcases takes.operator_cases waits with earlier | ⟨new, _, settled, applied, front, number⟩
  · rcases accounted.excused operator position below earlier with enough | excused
    · exact Or.inl (by omega)
    · exact Or.inr (excused.append text _)
  · -- An operator that begins to wait behind the end of an operand finds this operand.
    have ended : endsAfter false tokens = true := by
      cases ended : endsAfter false tokens with
      | true => rfl
      | false =>
        rw [ended] at new fits
        have same : ⟨.operator operator, position⟩ = placed := by simpa [joinedAfter] using new
        rw [← same] at fits
        cases fits
    have some := List.length_pos_iff.mpr (accounted.ne_nil_of_looser ended applied front)
    have balanced := applied.balance
    rw [ended, Bool.toNat_true] at weighed
    refine Or.inl ?_
    rw [ended] at paid
    omega

/-- One more token is accounted for. -/
theorem Accounted.snoc (accounted : Accounted before tokens x) (taken : Taken [] before tokens x)
    (form : WrittenFor text placed.token) (place : placed.position = before.length)
    (ran : (joinedAfter (endsAfter false tokens) [placed]).foldlM step x = .ok y) :
    Accounted (before ++ text) (tokens ++ [placed]) y := by
  have takes := takes_of_joined ran
  have ends : endsAfter false (tokens ++ [placed]) = placed.token.endsOperand := by
    rw [endsAfter_append]
    rfl
  have longer : before.length < (before ++ text).length := by
    have filled := List.length_pos_iff.mpr form.ne_nil
    rw [List.length_append]
    omega
  -- Each of the six parts of the account is kept on its own, given all of them before.
  constructor
  case ended =>
    rw [ends]
    exact takes.exists_repetition taken.underway place
  case begun =>
    rw [ends, joinedAfter_append]
    exact fun ongoing => takes.begun taken.grouped form place ongoing _
  case binary => exact fun operator position waits => accounted.binary_of_takes takes waits
  case around =>
    intro opened rest front operator position waits
    rcases takes.group_cases front with earlier | ⟨new, others⟩
    · exact accounted.around opened rest earlier operator position waits
    · -- What waits around a new group has been read before it or is implied at its position.
      rcases others operator position waits with earlier | same
      · have less := (accounted.read operator position earlier).2
        omega
      · exact Nat.le_of_eq (same.trans new.symm)
  case read =>
    intro operator position waits
    obtain ⟨above, below, whole⟩ := List.append_of_mem waits
    rw [joinedAfter_append]
    -- A new operator is one of the tokens that have just been joined.
    rcases takes.operator_cases ⟨above, whole.symm⟩ with earlier | ⟨new, same, _⟩
    · obtain ⟨member, less⟩ := accounted.read operator position (earlier.subset List.mem_cons_self)
      exact ⟨List.mem_append_left _ member, Nat.lt_trans less longer⟩
    · exact ⟨List.mem_append_right _ new, by omega⟩
  case excused =>
    intro operator position below waits
    rw [ends, joinedAfter_append]
    -- The token follows where it may, or it is itself the one that lacks an operand.
    by_cases fits : (placed.token.beginsOperand || endsAfter false tokens) = true
    · exact accounted.excused_of_fitting ran fits form waits
    · rw [Bool.not_eq_true, Bool.or_eq_false_iff] at fits
      obtain ⟨alone, begun⟩ := fits
      rw [begun] at takes ⊢
      rw [joinedAfter_singleton alone]
      exact Or.inr (accounted.excused_of_misplaced taken.grouped takes begun alone form place
        (waits.subset List.mem_cons_self))

/-- What has been taken in is accounted for. -/
theorem Taken.accounted (taken : Taken [] text tokens x) : Accounted text tokens x := by
  -- By induction over the tokens that have been taken in, beginning with none.
  refine taken.induct ⟨nofun, ?_, nofun, ?_, nofun, ?_⟩ ?_
  · exact fun _ => ⟨nofun, Begun.nothing⟩
  · intro opened rest front
    cases List.suffix_nil.mp front
  · intro operator position below waits
    cases List.suffix_nil.mp waits
  · intro before tokens x text placed y taken accounted form place ran
    exact accounted.snoc taken form place ran

/-- An operator that is stuck has an excuse, or it is the bar that was written last. -/
theorem Accounted.stuck_cases (accounted : Accounted text tokens x)
    (applied : Applied x.pending x.operands (.operator operator position :: below) settled)
    (few : settled.length ≤ operator.merges) :
    Excused text (joinedAfter false tokens) operator position ∨
      endsAfter false tokens = false ∧ operator = .union ∧
        ∃ first, first ++ [⟨.operator .union, position⟩] = joinedAfter false tokens := by
  rcases accounted.excused operator position below applied.suffix with enough | excused
  · have balanced := applied.balance
    have paid : debt (.operator operator position :: below) = operator.merges + debt below := rfl
    have none : (endsAfter false tokens).toNat = 0 := by omega
    have begun : endsAfter false tokens = false := by simpa using none
    obtain ⟨_, waits⟩ := accounted.begun begun
    generalize x.pending = pending at applied waits
    -- No other operator can have been applied before it, since none waits behind a bar.
    cases waits with
    | nothing => cases applied
    | group rest last => cases applied
    | bar last =>
      cases applied with
      | nothing => exact Or.inr ⟨begun, rfl, _, last⟩
      | operator _ others => cases others
    | barWithin rest last within =>
      cases applied with
      | nothing => exact Or.inr ⟨begun, rfl, _, last⟩
      | operator _ others => cases others
  · exact Or.inl excused

/-- Where an operand is missing, an operator is stuck, and no operand has just begun. -/
theorem stuck_of_joined_error (failed : (joinedAfter ended [placed]).foldlM step x =
      .error (.malformed (.missingOperand operator) position)) :
    (ended = false → placed.token.beginsOperand = false) ∧ ∃ below settled,
      Applied x.pending x.operands (.operator operator position :: below) settled ∧
        settled.length ≤ operator.merges := by
  constructor
  · rintro rfl
    obtain ⟨token, place⟩ := placed
    -- A character or a group by itself can always be taken in.
    cases token with
    | literal c => cases failed
    | opening => cases failed
    | closing => rfl
    | operator operator => rfl
  · rcases applied_of_joined_error failed with
      ⟨_, settled, applied, _, _, below, front, few, same⟩ | ⟨_, failed⟩
    · cases same
      exact ⟨below, settled, front ▸ applied, few⟩
    · obtain ⟨_, settled, applied, cause⟩ := applied_of_closeGroup_error failed
      rcases cause with ⟨_, same⟩ | ⟨_, _, _, _, same⟩ | ⟨_, _, below, front, few, same⟩
      · cases same
      · cases same
      · cases same
        exact ⟨below, settled, front ▸ applied, few⟩

/-- An operator that is found to be stuck at a token is among the tokens and to blame. -/
theorem FailsAt.blamed (fails : FailsAt ([] : List Tree) before text
      (.malformed (.missingOperand operator) position)) {rest : List Char}
    (whole : ¬ Dangles (before ++ text ++ rest)) :
    ∃ all, PlacedToken.ofPattern (before ++ text ++ rest) = .ok all ∧
      ⟨.operator operator, position⟩ ∈ all ∧
      Blamed (before ++ text ++ rest) all operator position := by
  obtain ⟨tokens, x, placed, taken, form, place, failed⟩ := fails
  obtain ⟨alone, below, settled, applied, few⟩ := stuck_of_joined_error failed
  obtain ⟨later, apart⟩ := taken.exists_later form place whole
  refine ⟨_, ofPattern_of_written apart, ?_⟩
  rw [joinedAfter_append, joinedAfter_append]
  have waits : .operator operator position ∈ x.pending :=
    applied.suffix.subset List.mem_cons_self
  have member := (taken.accounted.read operator position waits).1
  refine ⟨List.mem_append_left _ (List.mem_append_left _ member), ?_⟩
  rcases taken.accounted.stuck_cases applied few with excused | ⟨begun, bar, first, last⟩
  · exact excused.append text _ rest _
  · -- The token behind the bar begins no operand, or it would not have failed.
    rw [begun, joinedAfter_singleton (alone begun), bar, ← last]
    exact Or.inl (lacksOperand_bar first _ position (alone begun))

/-- An operator that is found to be stuck at the end is among the tokens and to blame. -/
theorem Taken.blamed (taken : Taken [] text tokens x) (failed : finish x.pending x.operands =
      .error (.malformed (.missingOperand operator) position)) :
    ∃ all, PlacedToken.ofPattern text = .ok all ∧ ⟨.operator operator, position⟩ ∈ all ∧
      Blamed text all operator position := by
  obtain ⟨_, settled, applied, ⟨_, _, _, same⟩ | ⟨_, _, below, front, few, same⟩⟩ :=
    applied_of_finish_error failed
  · cases same
  · cases same
    subst front
    refine ⟨_, ofPattern_of_written taken.apart, ?_⟩
    have waits : .operator operator position ∈ x.pending :=
      applied.suffix.subset List.mem_cons_self
    refine ⟨(taken.accounted.read operator position waits).1, ?_⟩
    rcases taken.accounted.stuck_cases applied few with excused | ⟨_, bar, first, last⟩
    · simpa using excused [] []
    · -- Nothing follows the bar.
      have lacks : Operator.Lacks first [] .union := Or.inr nofun
      rw [bar, ← last]
      exact Or.inl (lacks.lacksOperand position)

end Reading

/--
An operator that is reported to lack an operand does so, or another one in a group behind it does.

A repetition is only reported if it lacks an operand itself. What lies in a group may take an
operand from in front of the group, so a union or a concatenation there is reported in its place.
-/
theorem blamed_of_compile {pattern : String} {operator : Operator} {position : Nat}
    (failed : compile pattern = .error (.malformed (.missingOperand operator) position)) :
    ∃ tokens, PlacedToken.ofPattern pattern.toList = .ok tokens ∧
      ⟨.operator operator, position⟩ ∈ tokens ∧
      Blamed pattern.toList tokens operator position := by
  have failed := compile_eq_error_iff.mp failed
  have whole := Reading.not_dangles_of_fault failed nofun
  -- Reading fails at a token in the middle or after the last one.
  rcases Reading.failsAt_or_taken_of_ofPattern failed nofun whole with
    ⟨before, text, rest, split, fails⟩ | ⟨tokens, x, taken, failed⟩
  · rw [← split] at whole ⊢
    exact fails.blamed whole
  · exact taken.blamed failed

/-- A repetition at the beginning of a group takes an operand from the concatenation before it. -/
theorem blamed_of_compile_group :
    compile "a(*b)" = .error (.malformed (.missingOperand .concat) 1) ∧
      ∃ tokens, PlacedToken.ofPattern "a(*b)".toList = .ok tokens ∧
        ⟨.operator .concat, 1⟩ ∈ tokens ∧ Blamed "a(*b)".toList tokens .concat 1 := by
  have failed : compile "a(*b)" = .error (.malformed (.missingOperand .concat) 1) := by rfl
  -- The star has taken the operand of the concatenation, which finds none in the end.
  exact ⟨failed, blamed_of_compile failed⟩

/-- The operator that is reported need not lack an operand where it stands. -/
theorem exists_blamed_not_lacksOperand : ∃ tokens,
    PlacedToken.ofPattern "a(*b)".toList = .ok tokens ∧
    compile "a(*b)" = .error (.malformed (.missingOperand .concat) 1) ∧
    ¬ LacksOperand tokens .concat 1 ∧ LacksOperand tokens .star 2 :=
  ⟨_, rfl, rfl, by decide, by decide⟩

end PatternAutomata
