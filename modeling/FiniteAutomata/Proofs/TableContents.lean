import FiniteAutomata.Table
import Mathlib.Data.List.Nodup

/-!
What a transition table holds, seen through its list of transitions. A lookup finds what is listed,
an addition lists one transition more, and a removal strikes out one and leaves all others in their
order. A condition that had no row comes in last. The list leaves nothing of the table open.
-/
namespace FiniteAutomata.Table
variable {kind : TableKind} [Ordered Q] {c : Condition Q S} {q : Q} {tr : Transition Q S}
  {row : Row Q S} {rows others : List (Row Q S)}

def rowTransitions (row : Row Q S) : List (Transition Q S) :=
  row.destinations.toList.map (⟨row.condition, ·⟩)

theorem mem_rowTransitions :
    tr ∈ rowTransitions row ↔ tr.condition = row.condition ∧ tr.destination ∈ row.destinations := by
  obtain ⟨d, r⟩ := tr
  simp only [rowTransitions, List.mem_map, Transition.mk.injEq]
  constructor
  · intro listed
    obtain ⟨x, inside, rfl, rfl⟩ := listed
    exact ⟨rfl, inside⟩
  · intro leads
    obtain ⟨rfl, inside⟩ := leads
    exact ⟨r, inside, rfl, rfl⟩

variable [Ordered S] {t u : Table kind Q S}

theorem transitions_eq (t : Table kind Q S) : t.transitions = t.rows.flatMap rowTransitions := rfl

theorem mem_transitions_iff_row : tr ∈ t.transitions ↔
    ∃ row ∈ t.rows, row.condition = tr.condition ∧ tr.destination ∈ row.destinations := by
  rw [transitions_eq, List.mem_flatMap]
  constructor
  · intro listed
    obtain ⟨row, among, member⟩ := listed
    obtain ⟨same, leads⟩ := mem_rowTransitions.mp member
    exact ⟨row, among, same.symm, leads⟩
  · intro stored
    obtain ⟨row, among, same, leads⟩ := stored
    exact ⟨row, among, mem_rowTransitions.mpr ⟨same.symm, leads⟩⟩

theorem row_unique {other : Row Q S} (first : row ∈ t.rows) (second : other ∈ t.rows)
    (same : row.condition = other.condition) : row = other :=
  List.inj_on_of_nodup_map t.distinct first second same

theorem destinations?_eq_some_iff {set : SortedSet Q} :
    t.destinations? c = some set ↔ ⟨c, set⟩ ∈ t.rows := by
  simp only [destinations?, Option.map_eq_some_iff]
  constructor
  · intro looked
    obtain ⟨row, found, rfl⟩ := looked
    have same : row.condition = c := by simpa using List.find?_some found
    have among := List.mem_of_find?_eq_some found
    rw [← same]
    exact among
  · intro among
    cases found : t.rows.find? (·.condition = c) with
    | none =>
      have absent := List.find?_eq_none.mp found ⟨c, set⟩ among
      simp at absent
    | some row =>
      have same : row.condition = c := by simpa using List.find?_some found
      have one := row_unique (List.mem_of_find?_eq_some found) among same
      exact ⟨row, rfl, by rw [one]⟩

theorem has_iff : t.has c q = true ↔ ⟨c, q⟩ ∈ t.transitions := by
  rw [mem_transitions_iff_row]
  simp only [has, Option.any_eq_true, decide_eq_true_eq]
  constructor
  · intro looked
    obtain ⟨set, found, member⟩ := looked
    exact ⟨⟨c, set⟩, destinations?_eq_some_iff.mp found, rfl, member⟩
  · intro stored
    obtain ⟨⟨d, set⟩, among, rfl, member⟩ := stored
    exact ⟨set, destinations?_eq_some_iff.mpr among, member⟩

theorem mem_successors {p : Q} {s : S} :
    q ∈ t.successors p s ↔ ⟨.labeled p s, q⟩ ∈ t.transitions := by
  rw [← has_iff, successors, has]
  cases t.destinations? (.labeled p s) <;> simp

theorem destinations?_eq_none_iff :
    t.destinations? c = none ↔ ∀ q, ⟨c, q⟩ ∉ t.transitions := by
  constructor
  · intro absent q listed
    rw [← has_iff, has, absent] at listed
    cases listed
  · intro unlisted
    cases found : t.destinations? c with
    | none => rfl
    | some set =>
      have among := destinations?_eq_some_iff.mp found
      obtain ⟨q, member⟩ := SortedSet.ne_empty_iff.mp (t.inhabited _ among)
      exact absurd (mem_transitions_iff_row.mpr ⟨_, among, rfl, member⟩) (unlisted q)

theorem stores_of_mem (listed : tr ∈ t.transitions) : kind.stores tr.condition = true := by
  obtain ⟨row, among, same, _⟩ := mem_transitions_iff_row.mp listed
  exact same ▸ t.stored row among

omit [Ordered S] in
theorem rowTransitions_erase [DecidableEq S] (row : Row Q S) (q : Q) :
    rowTransitions ⟨row.condition, row.destinations.erase q⟩ =
      (rowTransitions row).filter (· ≠ ⟨row.condition, q⟩) := by
  simp only [rowTransitions, SortedSet.erase, SortedSet.filter, List.filter_map]
  congr 1
  apply List.filter_congr
  intro x _
  simp

omit [Ordered S] in
theorem filter_rowTransitions_of_ne [DecidableEq S] (q : Q) (differs : row.condition ≠ c) :
    (rowTransitions row).filter (· ≠ ⟨c, q⟩) = rowTransitions row := by
  apply List.filter_eq_self.mpr
  intro tr member
  have same := (mem_rowTransitions.mp member).1
  simp only [ne_eq, decide_eq_true_eq]
  intro removed
  rw [removed] at same
  exact differs same.symm

omit [Ordered S] in
theorem filter_flatMap_of_absent [DecidableEq S] (q : Q) (absent : c ∉ rows.map Row.condition) :
    (rows.flatMap rowTransitions).filter (· ≠ ⟨c, q⟩) = rows.flatMap rowTransitions := by
  rw [List.filter_flatMap]
  apply List.flatMap_congr
  intro row among
  apply filter_rowTransitions_of_ne
  intro same
  exact absent (same ▸ List.mem_map_of_mem among)

theorem rowTransitions_removeRow (nodup : (rows.map Row.condition).Nodup) :
    (removeRow c q rows).flatMap rowTransitions =
      (rows.flatMap rowTransitions).filter (· ≠ ⟨c, q⟩) := by
  induction rows with
  | nil => rfl
  | cons row rest ih =>
    obtain ⟨fresh, distinct⟩ := List.nodup_cons.mp nodup
    by_cases here : row.condition = c
    · have head := rowTransitions_erase row q
      rw [here] at fresh head
      rw [removeRow, if_pos here, List.flatMap_cons, List.filter_append,
        filter_flatMap_of_absent q fresh, ← head]
      by_cases gone : row.destinations.erase q = ∅
      · simp [gone, rowTransitions]
      · simp [gone]
    · rw [removeRow, if_neg here, List.flatMap_cons, List.flatMap_cons, List.filter_append,
        filter_rowTransitions_of_ne q here, ih distinct]

theorem transitions_remove (t : Table kind Q S) (c : Condition Q S) (q : Q) :
    (t.remove c q).1.transitions = t.transitions.filter (· ≠ ⟨c, q⟩) :=
  rowTransitions_removeRow t.distinct

theorem transitions_removeAll (t : Table kind Q S) (gone : List (Transition Q S)) :
    (t.removeAll gone).1.transitions = t.transitions.filter (· ∉ gone) := by
  unfold removeAll
  -- the truth value collected on the way differs from step to step
  generalize true = all
  induction gone generalizing t all with
  | nil => simp
  | cons tr rest ih =>
    have later := ih (t.remove tr.condition tr.destination).1
      (all && (t.remove tr.condition tr.destination).2)
    rw [List.foldl_cons, later, transitions_remove, List.filter_filter]
    apply List.filter_congr
    intro x _
    obtain ⟨d, r⟩ := tr
    simp [Bool.and_comm]

theorem transitions_nodup (t : Table kind Q S) : t.transitions.Nodup := by
  rw [transitions_eq, List.nodup_flatMap]
  constructor
  · intro row _
    apply row.destinations.nodup.map
    intro x y same
    cases same
    rfl
  · have apart := List.pairwise_map.mp t.distinct
    apply apart.imp
    intro first second differs tr here there
    apply differs
    rw [← (mem_rowTransitions.mp here).1, ← (mem_rowTransitions.mp there).1]

theorem removed_removeAll {gone : List (Transition Q S)} (nodup : gone.Nodup)
    (listed : ∀ tr ∈ gone, tr ∈ t.transitions) : (t.removeAll gone).2 = true := by
  unfold removeAll
  induction gone generalizing t with
  | nil => rfl
  | cons tr rest ih =>
    obtain ⟨fresh, distinct⟩ := List.nodup_cons.mp nodup
    have here : t.has tr.condition tr.destination = true := has_iff.mpr (listed tr (.head _))
    have later : ∀ x ∈ rest, x ∈ (t.remove tr.condition tr.destination).1.transitions := by
      intro x member
      have differs : x ≠ tr := fun same => fresh (same ▸ member)
      rw [transitions_remove]
      simp [listed x (.tail _ member), differs]
    have removed : (t.remove tr.condition tr.destination).2 = true := here
    simp only [List.foldl_cons, removed, Bool.and_true]
    exact ih distinct later

theorem removed_filter (t : Table kind Q S) (touched : Transition Q S → Bool) :
    (t.removeAll (t.transitions.filter touched)).2 = true := by
  apply removed_removeAll (t.transitions_nodup.filter _)
  intro tr member
  exact List.mem_of_mem_filter member

theorem transitions_removeFilter (t : Table kind Q S) (touched : Transition Q S → Bool) :
    (t.removeAll (t.transitions.filter touched)).1.transitions =
      t.transitions.filter fun tr => !touched tr := by
  rw [transitions_removeAll]
  apply List.filter_congr
  intro tr listed
  simp [listed]

theorem rowTransitions_addRow_of_absent (absent : c ∉ rows.map Row.condition) :
    (addRow c q rows).flatMap rowTransitions = rows.flatMap rowTransitions ++ [⟨c, q⟩] := by
  induction rows with
  | nil => rfl
  | cons row rest ih =>
    simp only [List.map_cons, List.mem_cons, not_or] at absent
    rw [addRow, if_neg (Ne.symm absent.1), List.flatMap_cons, List.flatMap_cons, ih absent.2,
      List.append_assoc]

theorem mem_rowTransitions_addRow : tr ∈ (addRow c q rows).flatMap rowTransitions ↔
    tr ∈ rows.flatMap rowTransitions ∨ tr = ⟨c, q⟩ := by
  induction rows with
  | nil => simp [addRow, rowTransitions, SortedSet.insert, SortedSet.place]
  | cons row rest ih =>
    by_cases here : row.condition = c
    · subst here
      obtain ⟨d, r⟩ := tr
      simp only [addRow, if_true, List.flatMap_cons, List.mem_append, mem_rowTransitions,
        SortedSet.mem_insert, Transition.mk.injEq]
      grind
    · simp only [addRow, here, if_false, List.flatMap_cons, List.mem_append, ih, or_assoc]

theorem add_of_stores (t : Table kind Q S) (q : Q) (storable : kind.stores c = true) :
    (t.add c q).1.rows = addRow c q t.rows := by
  rw [add, dif_pos storable]

theorem add_of_not_stores (t : Table kind Q S) (q : Q) (refused : ¬ kind.stores c = true) :
    (t.add c q).1 = t := by
  rw [add, dif_neg refused]

theorem mem_transitions_add : tr ∈ (t.add c q).1.transitions ↔
    tr ∈ t.transitions ∨ kind.stores c = true ∧ tr = ⟨c, q⟩ := by
  by_cases storable : kind.stores c = true
  · rw [transitions_eq, add_of_stores t q storable, mem_rowTransitions_addRow, ← transitions_eq]
    simp [storable]
  · rw [add_of_not_stores t q storable]
    simp [storable]

theorem transitions_add_of_absent (storable : kind.stores c = true)
    (absent : t.destinations? c = none) :
    (t.add c q).1.transitions = t.transitions ++ [⟨c, q⟩] := by
  rw [transitions_eq, add_of_stores t q storable]
  apply rowTransitions_addRow_of_absent
  intro member
  obtain ⟨row, among, rfl⟩ := List.mem_map.mp member
  rw [destinations?_eq_some_iff.mpr among] at absent
  cases absent

omit [Ordered S] in
theorem listed_begins (inhabited : row.destinations ≠ ∅) (rows : List (Row Q S)) :
    ∃ q later, (row :: rows).flatMap rowTransitions = ⟨row.condition, q⟩ :: later := by
  obtain ⟨q, member⟩ := SortedSet.ne_empty_iff.mp inhabited
  obtain ⟨first, more, listed⟩ := List.exists_cons_of_ne_nil (List.ne_nil_of_mem member)
  exact ⟨first, _, by rw [List.flatMap_cons, rowTransitions, listed]; rfl⟩

theorem filter_condition_eq (fresh : row.condition ∉ rows.map Row.condition) :
    ((row :: rows).flatMap rowTransitions).filter (·.condition = row.condition) =
      rowTransitions row := by
  have here : (rowTransitions row).filter (·.condition = row.condition) = rowTransitions row := by
    apply List.filter_eq_self.mpr
    intro tr member
    simpa using (mem_rowTransitions.mp member).1
  have elsewhere : (rows.flatMap rowTransitions).filter (·.condition = row.condition) = [] := by
    apply List.filter_eq_nil_iff.mpr
    intro tr listed same
    obtain ⟨other, among, member⟩ := List.mem_flatMap.mp listed
    have condition := (mem_rowTransitions.mp member).1
    simp only [decide_eq_true_eq] at same
    rw [← same, condition] at fresh
    exact fresh (List.mem_map_of_mem among)
  rw [List.flatMap_cons, List.filter_append, here, elsewhere, List.append_nil]

omit [Ordered S] in
theorem rowTransitions_inj {other : Row Q S} (condition : row.condition = other.condition)
    (same : rowTransitions row = rowTransitions other) : row = other := by
  obtain ⟨c, set⟩ := row
  obtain ⟨d, more⟩ := other
  cases condition
  have injective : Function.Injective fun q : Q => (⟨c, q⟩ : Transition Q S) := by
    intro x y alike
    cases alike
    rfl
  cases SortedSet.toList_inj.mp (List.map_injective_iff.mpr injective same)
  rfl

/-- Rows are determined by what they list, since none is empty and no condition has two. -/
theorem rows_eq_of_listed (distinct : (rows.map Row.condition).Nodup)
    (apart : (others.map Row.condition).Nodup) (inhabited : ∀ row ∈ rows, row.destinations ≠ ∅)
    (full : ∀ row ∈ others, row.destinations ≠ ∅)
    (same : rows.flatMap rowTransitions = others.flatMap rowTransitions) : rows = others := by
  induction rows generalizing others with
  | nil =>
    cases others with
    | nil => rfl
    | cons other more =>
      obtain ⟨q, later, begins⟩ := listed_begins (full other (.head _)) more
      rw [begins] at same
      cases same
  | cons row rest ih =>
    obtain ⟨q, later, begins⟩ := listed_begins (inhabited row (.head _)) rest
    cases others with
    | nil =>
      rw [begins] at same
      cases same
    | cons other more =>
      obtain ⟨fresh, rest_distinct⟩ := List.nodup_cons.mp distinct
      obtain ⟨new, more_apart⟩ := List.nodup_cons.mp apart
      obtain ⟨r, later', begins'⟩ := listed_begins (full other (.head _)) more
      have condition : row.condition = other.condition := by
        rw [begins, begins'] at same
        exact congrArg Transition.condition (List.cons.inj same).1
      have first : row = other := by
        apply rowTransitions_inj condition
        rw [← filter_condition_eq fresh, ← filter_condition_eq new, same, condition]
      subst first
      have remaining := List.append_cancel_left same
      rw [ih rest_distinct more_apart (fun other later => inhabited other (.tail _ later))
        (fun other later => full other (.tail _ later)) remaining]

theorem eq_of_transitions (same : t.transitions = u.transitions) : t = u :=
  ext (rows_eq_of_listed t.distinct u.distinct t.inhabited u.inhabited same)

end FiniteAutomata.Table
