import FiniteAutomata.Proofs.EditOutcomes
import Mathlib.Data.List.Induction
import Mathlib.Order.Bounds.Basic

/-!
A transition table against the history of the calls that filled it. The history alone says which
transitions a table holds, and in which order it lists their conditions: by the call at which each
of them last came in. `Multimap` says so for every way in which a table is read.
-/
namespace FiniteAutomata.Table
variable {kind : TableKind} {history : List (Edit Q S)} {e : Edit Q S} {c d : Condition Q S} {q : Q}
  {i : Nat}

/-- The pair was added to a table that can store it, and not removed since. -/
def Held (kind : TableKind) (history : List (Edit Q S)) (c : Condition Q S) (q : Q) : Prop :=
  kind.stores c = true ∧ ∃ before after, history = before ++ .add c q :: after ∧ .remove c q ∉ after

def Present (kind : TableKind) (history : List (Edit Q S)) (c : Condition Q S) : Prop :=
  ∃ q, Held kind history c q

def Enters (kind : TableKind) (history : List (Edit Q S)) (c : Condition Q S) (i : Nat) : Prop :=
  ¬ Present kind (history.take i) c ∧ Present kind (history.take (i + 1)) c

def Arrived (kind : TableKind) (history : List (Edit Q S)) (c : Condition Q S) (i : Nat) : Prop :=
  IsGreatest {j | Enters kind history c j} i

/-- One condition came in before the other, each looked at where it last came in. -/
def Sooner (kind : TableKind) (history : List (Edit Q S)) (c d : Condition Q S) : Prop :=
  ∃ i j, Arrived kind history c i ∧ Arrived kind history d j ∧ i < j

theorem not_held_nil : ¬ Held kind ([] : List (Edit Q S)) c q := by
  intro held
  obtain ⟨_, before, after, split, _⟩ := held
  simp at split

theorem held_append : Held kind (history ++ [e]) c q ↔
    kind.stores c = true ∧ e = .add c q ∨ Held kind history c q ∧ e ≠ .remove c q := by
  constructor
  · intro held
    obtain ⟨stored, before, after, split, unremoved⟩ := held
    -- the call that added the pair is the last one, or another call came after it
    rcases List.eq_nil_or_concat after with rfl | ⟨between, last, rfl⟩
    · exact .inl ⟨stored, List.singleton_inj.mp (List.append_inj' split rfl).2⟩
    · have cut : history ++ [e] = (before ++ .add c q :: between) ++ [last] := by simpa using split
      obtain ⟨rfl, same⟩ := List.append_inj' cut rfl
      cases List.singleton_inj.mp same
      simp only [List.concat_eq_append, List.mem_append, List.mem_singleton, not_or] at unremoved
      exact .inr ⟨⟨stored, before, between, rfl, unremoved.1⟩, Ne.symm unremoved.2⟩
  · intro given
    rcases given with ⟨stored, rfl⟩ | ⟨⟨stored, before, after, rfl, unremoved⟩, other⟩
    · exact ⟨stored, history, [], rfl, List.not_mem_nil⟩
    · refine ⟨stored, before, after ++ [e], by simp, ?_⟩
      simp only [List.mem_append, List.mem_singleton, not_or]
      exact ⟨unremoved, Ne.symm other⟩

theorem Enters.lt_length (enters : Enters kind history c i) : i < history.length := by
  by_contra late
  have before : history.take i = history := List.take_of_length_le (by omega)
  have after : history.take (i + 1) = history := List.take_of_length_le (by omega)
  rw [Enters, before, after] at enters
  exact enters.1 enters.2

theorem enters_append : Enters kind (history ++ [e]) c i ↔ Enters kind history c i ∨
    i = history.length ∧ ¬ Present kind history c ∧ Present kind (history ++ [e]) c := by
  rcases Nat.lt_trichotomy i history.length with early | rfl | late
  · have before : (history ++ [e]).take i = history.take i :=
      List.take_append_of_le_length (Nat.le_of_lt early)
    have after : (history ++ [e]).take (i + 1) = history.take (i + 1) :=
      List.take_append_of_le_length early
    rw [Enters, before, after]
    exact (or_iff_left fun last => Nat.ne_of_lt early last.1).symm
  · have never : ¬ Enters kind history c history.length := fun enters =>
      Nat.lt_irrefl _ enters.lt_length
    have before : (history ++ [e]).take history.length = history := List.take_left
    have after : (history ++ [e]).take (history.length + 1) = history ++ [e] :=
      List.take_of_length_le (by simp)
    rw [or_iff_right never, Enters, before, after]
    simp
  · have never : ¬ Enters kind history c i := fun enters => Nat.lt_asymm late enters.lt_length
    have never' : ¬ Enters kind (history ++ [e]) c i := by
      intro enters
      have bound := enters.lt_length
      rw [List.length_append, List.length_singleton] at bound
      omega
    exact iff_of_false never' (not_or.mpr ⟨never, fun last => Nat.ne_of_gt late last.1⟩)

theorem arrived_append_of_present (there : Present kind history c) :
    Arrived kind (history ++ [e]) c i ↔ Arrived kind history c i := by
  have same : {j | Enters kind (history ++ [e]) c j} = {j | Enters kind history c j} := by
    ext j
    exact enters_append.trans (or_iff_left fun last => last.2.1 there)
  rw [Arrived, Arrived, same]

theorem arrived_append_of_absent (absent : ¬ Present kind history c)
    (there : Present kind (history ++ [e]) c) :
    Arrived kind (history ++ [e]) c history.length := by
  constructor
  · exact enters_append.mpr (.inr ⟨rfl, absent, there⟩)
  · intro j enters
    rcases enters_append.mp enters with earlier | last
    · exact Nat.le_of_lt earlier.lt_length
    · exact Nat.le_of_eq last.1

theorem exists_arrived (there : Present kind history c) : ∃ i, Arrived kind history c i := by
  induction history using List.reverseRecOn with
  | nil =>
    obtain ⟨q, held⟩ := there
    exact absurd held not_held_nil
  | append_singleton history e ih =>
    by_cases before : Present kind history c
    · obtain ⟨i, arrived⟩ := ih before
      exact ⟨i, (arrived_append_of_present before).mpr arrived⟩
    · exact ⟨history.length, arrived_append_of_absent before there⟩

theorem Sooner.append (sooner : Sooner kind history c d) (first : Present kind history c)
    (second : Present kind history d) (e : Edit Q S) : Sooner kind (history ++ [e]) c d := by
  obtain ⟨i, j, arrivedC, arrivedD, less⟩ := sooner
  exact ⟨i, j, (arrived_append_of_present first).mpr arrivedC,
    (arrived_append_of_present second).mpr arrivedD, less⟩

variable [Ordered Q] [Ordered S]

/-- The table that a history of calls leaves, whatever they answered. -/
def filled (kind : TableKind) (history : List (Edit Q S)) : Table kind Q S :=
  history.foldl (fun t e => (t.edit e).1) ∅

theorem filled_append (kind : TableKind) (history : List (Edit Q S)) (e : Edit Q S) :
    filled kind (history ++ [e]) = ((filled kind history).edit e).1 := by
  rw [filled, filled, List.foldl_append]
  rfl

theorem mem_transitions_filled :
    ⟨c, q⟩ ∈ (filled kind history).transitions ↔ Held kind history c q := by
  induction history using List.reverseRecOn with
  | nil => exact iff_of_false List.not_mem_nil not_held_nil
  | append_singleton history e ih =>
    rw [filled_append, held_append, ← ih]
    cases e with
    | add d r =>
      rw [edit, mem_transitions_add]
      simp only [Transition.mk.injEq, Edit.add.injEq, reduceCtorEq, ne_eq, not_false_eq_true,
        and_true]
      grind
    | remove d r =>
      rw [edit, transitions_remove, List.mem_filter]
      simp only [ne_eq, Transition.mk.injEq, decide_eq_true_eq, Edit.remove.injEq, reduceCtorEq,
        and_false, false_or]
      grind

theorem mem_conditions_iff {t : Table kind Q S} :
    c ∈ t.rows.map Row.condition ↔ ∃ q, ⟨c, q⟩ ∈ t.transitions := by
  rw [List.mem_map]
  constructor
  · intro listed
    obtain ⟨row, among, same⟩ := listed
    obtain ⟨q, member⟩ := SortedSet.ne_empty_iff.mp (t.inhabited row among)
    exact ⟨q, mem_transitions_iff_row.mpr ⟨row, among, same, member⟩⟩
  · intro listed
    obtain ⟨q, member⟩ := listed
    obtain ⟨row, among, same, _⟩ := mem_transitions_iff_row.mp member
    exact ⟨row, among, same⟩

theorem mem_conditions_filled :
    c ∈ (filled kind history).rows.map Row.condition ↔ Present kind history c := by
  simp only [mem_conditions_iff, mem_transitions_filled]
  exact .rfl

/-- A call keeps some of the conditions in their order, and brings in at most one, at the end. -/
theorem conditions_edit (t : Table kind Q S) (e : Edit Q S) :
    ∃ kept, kept.Sublist (t.rows.map Row.condition) ∧
      ((t.edit e).1.rows.map Row.condition = kept ∨ ∃ c ∉ t.rows.map Row.condition,
        (t.edit e).1.rows.map Row.condition = kept ++ [c]) := by
  cases e with
  | add c q =>
    refine ⟨_, List.Sublist.refl _, ?_⟩
    by_cases storable : kind.stores c = true
    · rw [edit, add_of_stores t q storable, conditions_addRow]
      split
      · exact .inl rfl
      · rename_i new
        exact .inr ⟨c, new, rfl⟩
    · rw [edit, add_of_not_stores t q storable]
      exact .inl rfl
  | remove c q => exact ⟨_, conditions_removeRow, .inl rfl⟩

theorem conditions_filled_pairwise (kind : TableKind) (history : List (Edit Q S)) :
    ((filled kind history).rows.map Row.condition).Pairwise (Sooner kind history) := by
  induction history using List.reverseRecOn with
  | nil => exact .nil
  | append_singleton history e ih =>
    obtain ⟨kept, sublist, left⟩ := conditions_edit (filled kind history) e
    have before : ∀ c ∈ kept, Present kind history c := fun c member =>
      mem_conditions_filled.mp (sublist.subset member)
    have still : kept.Pairwise (Sooner kind (history ++ [e])) :=
      (ih.sublist sublist).imp_of_mem fun first second sooner =>
        sooner.append (before _ first) (before _ second) e
    rw [← filled_append] at left
    -- what is kept has arrived before this call, so only a condition that is new comes in by it
    rcases left with same | ⟨d, new, same⟩
    · rw [same]
      exact still
    · have absent : ¬ Present kind history d := fun there => new (mem_conditions_filled.mpr there)
      have there : Present kind (history ++ [e]) d :=
        mem_conditions_filled.mp (by simp [same])
      rw [same]
      refine List.pairwise_append.mpr ⟨still, List.pairwise_singleton _ _, ?_⟩
      intro c member last among
      cases List.mem_singleton.mp among
      obtain ⟨i, arrived⟩ := exists_arrived (before c member)
      exact ⟨i, history.length, (arrived_append_of_present (before c member)).mpr arrived,
        arrived_append_of_absent absent there, arrived.1.lt_length⟩

def Listed (kind : TableKind) (history : List (Edit Q S)) (t u : Transition Q S) : Prop :=
  t.condition = u.condition ∧ compare t.destination u.destination = .lt ∨
    Sooner kind history t.condition u.condition

theorem transitions_filled_pairwise (kind : TableKind) (history : List (Edit Q S)) :
    (filled kind history).transitions.Pairwise (Listed kind history) := by
  rw [transitions_eq]
  refine List.pairwise_flatMap.mpr ⟨?_, ?_⟩
  · intro row _
    exact List.pairwise_map.mpr (row.destinations.ascending.imp fun less => .inl ⟨rfl, less⟩)
  · refine (List.pairwise_map.mp (conditions_filled_pairwise kind history)).imp ?_
    intro row later sooner t here u there
    rw [Listed, (mem_rowTransitions.mp here).1, (mem_rowTransitions.mp there).1]
    exact .inr sooner

theorem size_eq_length (t : Table kind Q S) : t.size = t.transitions.length := by
  rw [size, transitions_eq]
  induction t.rows with
  | nil => rfl
  | cons row rest ih =>
    rw [List.foldr_cons, List.flatMap_cons, List.length_append, ih, rowTransitions, List.length_map]
    rfl

theorem mem_destinations?_iff {t : Table kind Q S} :
    (∃ set, t.destinations? c = some set ∧ q ∈ set) ↔ ⟨c, q⟩ ∈ t.transitions := by
  simp only [← has_iff, has, Option.any_eq_true, decide_eq_true_eq]

/-- The table is the insertion-ordered multimap of the history, however it is read and whatever is
called next. -/
structure Multimap (kind : TableKind) (history : List (Edit Q S)) (t : Table kind Q S) : Prop where
  destinations : ∀ c q, (∃ set, t.destinations? c = some set ∧ q ∈ set) ↔ Held kind history c q
  destinations_none : ∀ c, t.destinations? c = none ↔ ¬ Present kind history c
  plain_labeled : kind = .plain → ∀ p, t.destinations? (.spontaneous p) = none
  entries_present : ∀ c, c ∈ t.rows.map Row.condition ↔ Present kind history c
  entries_once : (t.rows.map Row.condition).Nodup
  entries_destinations : ∀ row ∈ t.rows, t.destinations? row.condition = some row.destinations
  entries_ordered : (t.rows.map Row.condition).Pairwise (Sooner kind history)
  added : ∀ c q, (t.edit (.add c q)).2 = true ↔ ¬ Held kind history c q ∧ kind.stores c = true
  removed : ∀ c q, (t.edit (.remove c q)).2 = true ↔ Held kind history c q
  transitions : ∀ c q, ⟨c, q⟩ ∈ t.transitions ↔ Held kind history c q
  transitions_once : t.transitions.Nodup
  transitions_ordered : t.transitions.Pairwise (Listed kind history)
  size : t.size = t.transitions.length
  successors : ∀ p s q, q ∈ t.successors p s ↔ Held kind history (.labeled p s) q

theorem filled_multimap (kind : TableKind) (history : List (Edit Q S)) :
    Multimap kind history (filled kind history) := by
  have missing : ∀ c, (filled kind history).destinations? c = none ↔ ¬ Present kind history c := by
    intro c
    simp only [destinations?_eq_none_iff, mem_transitions_filled]
    exact not_exists.symm
  constructor
  · intro c q
    rw [mem_destinations?_iff, mem_transitions_filled]
  · exact missing
  · intro plain p
    rw [missing]
    intro there
    obtain ⟨q, stored, _⟩ := there
    subst plain
    cases stored
  · intro c
    exact mem_conditions_filled
  · exact (filled kind history).distinct
  · intro row among
    exact destinations?_eq_some_iff.mpr among
  · exact conditions_filled_pairwise kind history
  · intro c q
    rw [edit, added_iff, mem_transitions_filled, and_comm]
  · intro c q
    change (filled kind history).has c q = true ↔ _
    rw [has_iff, mem_transitions_filled]
  · intro c q
    exact mem_transitions_filled
  · exact transitions_nodup _
  · exact transitions_filled_pairwise kind history
  · exact size_eq_length _
  · intro p s q
    rw [mem_successors, mem_transitions_filled]

/-- A condition that loses its last destination and returns stands behind one that stayed. -/
example : (filled .spontaneous [.add (.labeled 2 'b') 0, .add (.spontaneous 1) 2,
    .remove (.labeled 2 'b') 0, .add (.labeled 2 'b') 1, .add (.spontaneous 1) 0]).transitions =
      [⟨.spontaneous 1, 0⟩, ⟨.spontaneous 1, 2⟩, ⟨.labeled 2 'b', 1⟩] := by
  decide +kernel

end FiniteAutomata.Table
