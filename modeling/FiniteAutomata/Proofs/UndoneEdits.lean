import FiniteAutomata.Proofs.Assembly

/-!
Additions and the removals that undo them. A removal leaves the same whether or not what it removes
was added just before (`after_after_of_undoneBy`), so an addition that took effect is undone exactly:
without it there was nothing to remove. A removed transition can be added again; it comes back in its
place if its condition still had a row, and otherwise last.
-/
namespace FiniteAutomata

namespace Table
variable {kind : TableKind} [Ordered Q] [Ordered S] {c : Condition Q S} {q r : Q}
  {rows : List (Row Q S)} {t : Table kind Q S}

theorem filter_rowTransitions_addRow (c : Condition Q S) (q : Q) (rows : List (Row Q S)) :
    ((addRow c q rows).flatMap rowTransitions).filter (· ≠ ⟨c, q⟩) =
      (rows.flatMap rowTransitions).filter (· ≠ ⟨c, q⟩) := by
  induction rows with
  | nil => simp [addRow, rowTransitions, SortedSet.insert, SortedSet.place]
  | cons row rest ih =>
    by_cases here : row.condition = c
    · subst here
      have grown := rowTransitions_erase ⟨row.condition, row.destinations.insert q⟩ q
      have before := rowTransitions_erase row q
      rw [SortedSet.erase_insert] at grown
      rw [addRow, if_pos rfl, List.flatMap_cons, List.flatMap_cons, List.filter_append,
        List.filter_append, ← grown, before]
    · rw [addRow, if_neg here, List.flatMap_cons, List.flatMap_cons, List.filter_append,
        List.filter_append, ih]

theorem remove_add (t : Table kind Q S) (c : Condition Q S) (q : Q) :
    ((t.add c q).1.remove c q).1 = (t.remove c q).1 := by
  by_cases storable : kind.stores c = true
  · apply eq_of_transitions
    rw [transitions_remove, transitions_remove, transitions_eq, add_of_stores t q storable,
      filter_rowTransitions_addRow, ← transitions_eq]
  · rw [add_of_not_stores t q storable]

theorem addRow_removeRow {set : SortedSet Q} (distinct : (rows.map Row.condition).Nodup)
    (listed : ⟨c, set⟩ ∈ rows) (member : q ∈ set) (left : set.erase q ≠ ∅) :
    addRow c q (removeRow c q rows) = rows := by
  induction rows with
  | nil => cases listed
  | cons row rest ih =>
    obtain ⟨fresh, distinct⟩ := List.nodup_cons.mp distinct
    rcases List.mem_cons.mp listed with rfl | later
    · simp [removeRow, addRow, left, SortedSet.insert_erase member]
    · have differs : row.condition ≠ c := fun same => fresh (same ▸ List.mem_map_of_mem later)
      rw [removeRow, if_neg differs, addRow, if_neg differs, ih distinct later]

theorem add_remove_of_other (listed : ⟨c, q⟩ ∈ t.transitions) (other : ⟨c, r⟩ ∈ t.transitions)
    (differs : r ≠ q) : ((t.remove c q).1.add c q).1 = t := by
  have storable : kind.stores c = true := stores_of_mem listed
  obtain ⟨⟨_, set⟩, among, rfl, member⟩ := mem_transitions_iff_row.mp listed
  obtain ⟨row, also, same, also_member⟩ := mem_transitions_iff_row.mp other
  obtain rfl := row_unique also among same
  have left : set.erase q ≠ ∅ :=
    SortedSet.ne_empty_iff.mpr ⟨r, SortedSet.mem_erase.mpr ⟨also_member, differs⟩⟩
  apply Table.ext
  rw [add_of_stores _ q storable]
  exact addRow_removeRow t.distinct among member left

theorem transitions_add_remove_of_only (storable : kind.stores c = true)
    (only : ∀ r, ⟨c, r⟩ ∈ t.transitions → r = q) :
    ((t.remove c q).1.add c q).1.transitions =
      t.transitions.filter (·.condition ≠ c) ++ [⟨c, q⟩] := by
  have struck : (t.remove c q).1.transitions = t.transitions.filter (·.condition ≠ c) := by
    rw [transitions_remove]
    apply List.filter_congr
    intro tr listed
    obtain ⟨d, r⟩ := tr
    simp only [ne_eq, Transition.mk.injEq, decide_eq_decide, not_iff_not]
    constructor
    · intro same
      exact same.1
    · rintro rfl
      exact ⟨rfl, only r listed⟩
  have absent : (t.remove c q).1.destinations? c = none := by
    apply destinations?_eq_none_iff.mpr
    intro r listed
    rw [struck] at listed
    simp at listed
  rw [transitions_add_of_absent storable absent, struck]

theorem transitions_add_remove_perm (listed : ⟨c, q⟩ ∈ t.transitions) :
    ((t.remove c q).1.add c q).1.transitions.Perm t.transitions := by
  have storable : kind.stores c = true := stores_of_mem listed
  apply (List.perm_ext_iff_of_nodup (transitions_nodup _) (transitions_nodup _)).mpr
  intro tr
  rw [mem_transitions_add, transitions_remove, List.mem_filter]
  simp only [storable, true_and, ne_eq, decide_eq_true_eq]
  grind

end Table

inductive Edit.UndoneBy : Edit Q S → Edit Q S → Prop where
  | state (q : Q) : UndoneBy (.addState q) (.removeState q)
  | input (s : S) : UndoneBy (.addInput s) (.removeInput s)
  | transition (c : Condition Q S) (q : Q) : UndoneBy (.addTransition c q) (.removeTransition c q)
  | final (q : Q) : UndoneBy (.addFinal q) (.removeFinal q)

namespace Automaton
variable {kind : Kind} [Ordered Q] [Ordered S] {a : Automaton kind Q S} {c : Condition Q S}
  {q : Q} {e removal : Edit Q S} {edited : Edited kind Q S}

theorem removeState_addState (a : Automaton kind Q S) (q : Q) :
    ((a.addState q).automaton.removeState q).automaton = (a.removeState q).automaton := by
  rw [removeState_automaton, removeState_automaton]
  simp only [addState, SortedSet.erase_insert, touching, transitions]

theorem removeInput_addInput (a : Automaton kind Q S) (s : S) :
    ((a.addInput s).automaton.removeInput s).automaton = (a.removeInput s).automaton := by
  rw [removeInput_automaton, removeInput_automaton]
  simp only [addInput, SortedSet.erase_insert, reading, transitions]

theorem removeFinal_addFinal (a : Automaton kind Q S) (q : Q) :
    ((a.addFinal q).automaton.removeFinal q).automaton = (a.removeFinal q).automaton := by
  unfold addFinal
  split
  · simp only [removeFinal, SortedSet.erase_insert]
  · rfl

theorem removeTransition_addTransition (a : Automaton kind Q S) (c : Condition Q S) (q : Q) :
    ((a.addTransition c q).automaton.removeTransition c q).automaton =
      (a.removeTransition c q).automaton := by
  rcases a.addTransition_cases c q with ⟨_, same⟩ | same | ⟨_, _, added⟩
  · rw [same]
  · rw [same]
  · rw [added]
    simp only [removeTransition, Table.remove_add]

/-- A removal leaves the same with and without the addition before it, also a refused one. -/
theorem after_after_of_undoneBy (undone : e.UndoneBy removal) (a : Automaton kind Q S) :
    (a.after e).after removal = a.after removal := by
  cases undone with
  | state q => exact a.removeState_addState q
  | input s => exact a.removeInput_addInput s
  | final q => exact a.removeFinal_addFinal q
  | transition c q => exact a.removeTransition_addTransition c q

theorem done_addFinal (a : Automaton kind Q S) (q : Q) :
    (a.addFinal q).done = true ↔ q ∈ a.states ∧ q ∉ a.finals := by
  unfold addFinal
  split <;> simp_all

theorem done_addTransition (given : a.edit (.addTransition c q) = .ok edited)
    (done : edited.done = true) :
    ⟨c, q⟩ ∉ a.transitions ∧ ⟨c, q⟩ ∈ edited.automaton.transitions := by
  rcases edit_addTransition_cases given with rfl | ⟨_, _, rfl⟩
  · cases done
  · obtain ⟨stored, unlisted⟩ := Table.added_iff.mp done
    exact ⟨unlisted, Table.mem_transitions_add.mpr (.inr ⟨stored, rfl⟩)⟩

theorem removal_around_addition (undone : e.UndoneBy removal) (given : a.edit e = .ok edited)
    (done : edited.done = true) :
    (∃ before, a.edit removal = .ok before ∧ before.done = false) ∧
      ∃ now, edited.automaton.edit removal = .ok now ∧ now.done = true := by
  cases undone with
  | state q =>
    obtain rfl : edited = a.addState q := (Except.ok.inj given).symm
    have absent : q ∉ a.states := by simpa [addState] using done
    refine ⟨⟨_, rfl, ?_⟩, ⟨_, rfl, ?_⟩⟩
    · exact Bool.eq_false_iff.mpr fun removed => absent ((a.done_removeState q).mp removed)
    · exact (done_removeState _ q).mpr (SortedSet.mem_insert.mpr (.inl rfl))
  | input s =>
    obtain rfl : edited = a.addInput s := (Except.ok.inj given).symm
    have absent : s ∉ a.inputs := by simpa [addInput] using done
    refine ⟨⟨_, rfl, ?_⟩, ⟨_, rfl, ?_⟩⟩
    · exact Bool.eq_false_iff.mpr fun removed => absent ((a.done_removeInput s).mp removed)
    · exact (done_removeInput _ s).mpr (SortedSet.mem_insert.mpr (.inl rfl))
  | final q =>
    obtain rfl : edited = a.addFinal q := (Except.ok.inj given).symm
    obtain ⟨declared, absent⟩ := (a.done_addFinal q).mp done
    refine ⟨⟨_, rfl, ?_⟩, ⟨_, rfl, ?_⟩⟩
    · simpa [removeFinal] using absent
    · simp [removeFinal, addFinal, declared]
  | transition c q =>
    obtain ⟨absent, listed⟩ := done_addTransition given done
    refine ⟨⟨_, rfl, ?_⟩, ⟨_, rfl, ?_⟩⟩
    · exact Bool.eq_false_iff.mpr fun removed => absent (Table.has_iff.mp removed)
    · exact Table.has_iff.mpr listed

theorem undone_of_done (consistent : a.Consistent) (undone : e.UndoneBy removal)
    (given : a.edit e = .ok edited) (done : edited.done = true) :
    ∃ back, edited.automaton.edit removal = .ok back ∧ back.done = true ∧ back.automaton = a := by
  obtain ⟨⟨before, vain, missing⟩, ⟨now, removed, effect⟩⟩ :=
    removal_around_addition undone given done
  refine ⟨now, removed, effect, ?_⟩
  -- the removal leaves what it would have left before the addition, when there was nothing to remove
  calc now.automaton
    _ = edited.automaton.after removal := (after_of_ok removed).symm
    _ = (a.after e).after removal := by rw [after_of_ok given]
    _ = a.after removal := after_after_of_undoneBy undone a
    _ = a := edit_unchanged consistent vain missing

theorem addTransition_removeTransition (valid : a.WellFormed) (listed : ⟨c, q⟩ ∈ a.transitions) :
    (a.removeTransition c q).automaton.edit (.addTransition c q) =
      .ok ⟨{ a with table := ((a.table.remove c q).1.add c q).1 }, true, []⟩ := by
  have left : ∀ r, ⟨c, r⟩ ∈ (a.removeTransition c q).automaton.transitions →
      ⟨c, r⟩ ∈ a.transitions ∧ r ≠ q := by
    intro r kept
    rw [transitions_removeTransition, List.mem_filter] at kept
    simpa using kept
  have declared : (a.removeTransition c q).automaton.Declares c q :=
    valid.transitions_declared _ listed
  apply edit_addTransition_of_new declared (Table.stores_of_mem listed)
  · intro again
    exact (left q again).2 rfl
  · intro deterministic r kept
    obtain ⟨also, differs⟩ := left r kept
    have single := Table.deterministic_iff.mp (valid.deterministic deterministic)
    exact differs (single c r q also listed)

/-- `b` is `a` with the transition from `c` to `q` taken out and put in again. -/
structure PutBack (a b : Automaton kind Q S) (c : Condition Q S) (q : Q) : Prop where
  states : b.states = a.states
  inputs : b.inputs = a.inputs
  initial : b.initial = a.initial
  finals : b.finals = a.finals
  transitions : b.transitions.Perm a.transitions
  in_place : (∃ r, r ≠ q ∧ ⟨c, r⟩ ∈ a.transitions) → b.transitions = a.transitions
  at_end : (∀ r, ⟨c, r⟩ ∈ a.transitions → r = q) →
    b.transitions = a.transitions.filter (·.condition ≠ c) ++ [⟨c, q⟩]

/-- Additions are undone by removals exactly, and removals of transitions by additions up to the
place of the condition. -/
structure Reversible (a : Automaton kind Q S) : Prop where
  undone : ∀ e removal edited, e.UndoneBy removal → a.edit e = .ok edited → edited.done = true →
    ∃ back, edited.automaton.edit removal = .ok back ∧ back.done = true ∧ back.automaton = a
  redone : ∀ c q, (a.removeTransition c q).done = true →
    ∃ back, (a.removeTransition c q).automaton.edit (.addTransition c q) = .ok back ∧
      back.done = true ∧ a.PutBack back.automaton c q

theorem built_reversible (built : a.Built) : a.Reversible := by
  have valid := built.wellFormed
  constructor
  · intro e removal edited undone given done
    exact undone_of_done valid.toConsistent undone given done
  · intro c q removed
    have listed : ⟨c, q⟩ ∈ a.transitions := Table.has_iff.mp removed
    refine ⟨_, addTransition_removeTransition valid listed, rfl, rfl, rfl, rfl, rfl, ?_, ?_, ?_⟩
    · exact Table.transitions_add_remove_perm listed
    · intro other
      obtain ⟨r, differs, also⟩ := other
      exact congrArg Table.transitions (Table.add_remove_of_other listed also differs)
    · intro only
      exact Table.transitions_add_remove_of_only (Table.stores_of_mem listed) only

open Demonstration in
/-- A second destination is taken back without a trace. One of two destinations that is taken out and
put in again has its place, the only one of a condition comes last. -/
theorem exampleNfa_reversed :
    exampleNfa.Built ∧
      (∃ added back, exampleNfa.edit (.addTransition (.labeled 2 't') 0) = .ok added ∧
        added.automaton.edit (.removeTransition (.labeled 2 't') 0) = .ok back ∧
        added.automaton ≠ exampleNfa ∧ back.automaton = exampleNfa) ∧
      (∃ back, (exampleNfa.removeTransition (.labeled 0 'a') 1).automaton.edit
          (.addTransition (.labeled 0 'a') 1) = .ok back ∧
        back.automaton.transitions = exampleNfa.transitions) ∧
      ∃ back, (exampleNfa.removeTransition (.labeled 1 'u') 2).automaton.edit
          (.addTransition (.labeled 1 'u') 2) = .ok back ∧ back.automaton.transitions =
            exampleNfa.transitions.filter (·.condition ≠ .labeled 1 'u') ++ [⟨.labeled 1 'u', 2⟩] := by
  have reversible := built_reversible exampleNfa_built
  have added := edit_addTransition_of_new (a := exampleNfa) (c := .labeled 2 't') (q := 0)
    (by decide +kernel) rfl (by decide +kernel) nofun
  obtain ⟨back, removed, _, same⟩ := reversible.undone _ _ _ (.transition _ _) added rfl
  obtain ⟨inside, given, _, kept⟩ := reversible.redone (.labeled 0 'a') 1 (by decide +kernel)
  obtain ⟨last, given', _, moved⟩ := reversible.redone (.labeled 1 'u') 2 (by decide +kernel)
  refine ⟨exampleNfa_built, ⟨_, back, added, removed, by decide +kernel, same⟩,
    ⟨inside, given, kept.in_place ⟨2, by decide, by decide +kernel⟩⟩, last, given', ?_⟩
  have single : ∀ t ∈ exampleNfa.transitions, t.condition = .labeled 1 'u' → t.destination = 2 := by
    decide +kernel
  exact moved.at_end fun r listed => single _ listed rfl

end Automaton
end FiniteAutomata
