import FiniteAutomata.Proofs.BuiltAutomata

/-!
What an edit answers. An edit that answers that it did not take effect, and one that is refused,
leaves the automaton as it was, also one that works in several steps; an edit that answers that it
did leaves a different one. The initial state alone may be set again to what it is.
-/
namespace FiniteAutomata

namespace Table
variable {kind : TableKind} [Ordered Q] [Ordered S] {t : Table kind Q S} {c : Condition Q S} {q : Q}
  {rows : List (Row Q S)}

theorem addRow_of_mem {set : SortedSet Q} (distinct : (rows.map Row.condition).Nodup)
    (listed : ⟨c, set⟩ ∈ rows) (member : q ∈ set) : addRow c q rows = rows := by
  induction rows with
  | nil => cases listed
  | cons row rest ih =>
    obtain ⟨fresh, distinct⟩ := List.nodup_cons.mp distinct
    rcases List.mem_cons.mp listed with rfl | later
    · simp [addRow, SortedSet.insert_eq_self_iff.mpr member]
    · have differs : row.condition ≠ c := fun same => fresh (same ▸ List.mem_map_of_mem later)
      rw [addRow, if_neg differs, ih distinct later]

theorem removeRow_of_not_mem (inhabited : ∀ row ∈ rows, row.destinations ≠ ∅)
    (absent : ∀ row ∈ rows, row.condition = c → q ∉ row.destinations) :
    removeRow c q rows = rows := by
  induction rows with
  | nil => rfl
  | cons row rest ih =>
    by_cases here : row.condition = c
    · have same := SortedSet.erase_eq_self_iff.mpr (absent row (.head _) here)
      subst here
      simp [removeRow, same, inhabited row (.head _)]
    · rw [removeRow, if_neg here, ih (fun row later => inhabited row (.tail _ later))
        fun row later => absent row (.tail _ later)]

theorem added_iff : (t.add c q).2 = true ↔ kind.stores c = true ∧ ⟨c, q⟩ ∉ t.transitions := by
  rw [← has_iff, add]
  split <;> simp_all

theorem add_of_not_added (refused : (t.add c q).2 = false) : (t.add c q).1 = t := by
  by_cases storable : kind.stores c = true
  · have has : t.has c q = true := by simpa [add, storable] using refused
    obtain ⟨row, among, rfl, member⟩ := mem_transitions_iff_row.mp (has_iff.mp has)
    apply Table.ext
    rw [add_of_stores t q storable, addRow_of_mem t.distinct among member]
  · exact add_of_not_stores t q storable

theorem remove_of_not_removed (missing : (t.remove c q).2 = false) : (t.remove c q).1 = t := by
  have unlisted : ⟨c, q⟩ ∉ t.transitions := by
    rw [← has_iff]
    exact Bool.eq_false_iff.mp missing
  apply Table.ext
  apply removeRow_of_not_mem t.inhabited
  intro row among same member
  exact unlisted (mem_transitions_iff_row.mpr ⟨row, among, same, member⟩)

end Table

namespace Automaton
variable {kind : Kind} [Ordered Q] [Ordered S] {a : Automaton kind Q S} {c : Condition Q S}
  {q : Q} {s : S}

structure SameParts (a b : Automaton kind Q S) : Prop where
  states : a.states = b.states
  inputs : a.inputs = b.inputs
  initial : a.initial = b.initial
  finals : a.finals = b.finals
  transitions : a.transitions = b.transitions

structure Truthful (a : Automaton kind Q S) (edited : Edited kind Q S) : Prop where
  unchanged : edited.done = false → edited.automaton = a
  changed : edited.done = true → ¬ edited.automaton.SameParts a

theorem truthful_addState (a : Automaton kind Q S) (q : Q) : a.Truthful (a.addState q) where
  unchanged := by
    intro present
    have declared : q ∈ a.states := by simpa [addState] using present
    rw [addState, SortedSet.insert_eq_self_iff.mpr declared]
  changed := by
    intro new same
    have absent : q ∉ a.states := by simpa [addState] using new
    exact absent (SortedSet.insert_eq_self_iff.mp same.states)

theorem truthful_addInput (a : Automaton kind Q S) (s : S) : a.Truthful (a.addInput s) where
  unchanged := by
    intro present
    have declared : s ∈ a.inputs := by simpa [addInput] using present
    rw [addInput, SortedSet.insert_eq_self_iff.mpr declared]
  changed := by
    intro new same
    have absent : s ∉ a.inputs := by simpa [addInput] using new
    exact absent (SortedSet.insert_eq_self_iff.mp same.inputs)

theorem done_removeState (a : Automaton kind Q S) (q : Q) :
    (a.removeState q).done = true ↔ q ∈ a.states := by
  have removed : (a.table.removeAll (a.touching q)).2 = true := Table.removed_filter a.table _
  simp [removeState, removed]

theorem done_removeInput (a : Automaton kind Q S) (s : S) :
    (a.removeInput s).done = true ↔ s ∈ a.inputs := by
  have removed : (a.table.removeAll (a.reading s)).2 = true := Table.removed_filter a.table _
  simp [removeInput, removed]

/-- Nothing touches a state that is not declared, so its removal goes through its steps in vain. -/
theorem removeState_of_undeclared (consistent : a.Consistent) (undeclared : q ∉ a.states) :
    (a.removeState q).automaton = a := by
  have untouched : a.touching q = [] := by
    apply List.filter_eq_nil_iff.mpr
    intro t listed
    obtain ⟨source, _, destination⟩ := consistent.transitions_declared t listed
    grind
  have uninitial : a.initial ≠ some q := fun initial =>
    undeclared (consistent.initial_declared q initial)
  have unfinal : q ∉ a.finals := fun final => undeclared (consistent.finals_declared q final)
  rw [removeState_automaton, untouched, if_neg uninitial,
    SortedSet.erase_eq_self_iff.mpr undeclared, SortedSet.erase_eq_self_iff.mpr unfinal]
  rfl

theorem removeInput_of_undeclared (consistent : a.Consistent) (undeclared : s ∉ a.inputs) :
    (a.removeInput s).automaton = a := by
  have unread : a.reading s = [] := by
    apply List.filter_eq_nil_iff.mpr
    intro t listed
    have symbols := (consistent.transitions_declared t listed).2.1
    grind
  rw [removeInput_automaton, unread, SortedSet.erase_eq_self_iff.mpr undeclared]
  rfl

theorem truthful_removeState (consistent : a.Consistent) (q : Q) :
    a.Truthful (a.removeState q) where
  unchanged := by
    intro missing
    apply removeState_of_undeclared consistent
    rw [← done_removeState a q]
    exact Bool.eq_false_iff.mp missing
  changed := by
    intro done same
    have states := same.states
    rw [removeState_automaton] at states
    exact SortedSet.erase_eq_self_iff.mp states ((done_removeState a q).mp done)

theorem truthful_removeInput (consistent : a.Consistent) (s : S) :
    a.Truthful (a.removeInput s) where
  unchanged := by
    intro missing
    apply removeInput_of_undeclared consistent
    rw [← done_removeInput a s]
    exact Bool.eq_false_iff.mp missing
  changed := by
    intro done same
    have inputs := same.inputs
    rw [removeInput_automaton] at inputs
    exact SortedSet.erase_eq_self_iff.mp inputs ((done_removeInput a s).mp done)

theorem truthful_addTransition {edited : Edited kind Q S}
    (given : a.edit (.addTransition c q) = .ok edited) : a.Truthful edited := by
  rcases edit_addTransition_cases given with rfl | ⟨_, _, rfl⟩
  · exact ⟨fun _ => rfl, nofun⟩
  · constructor
    · intro refused
      have kept := Table.add_of_not_added refused
      simp only [kept]
    · intro added same
      obtain ⟨storable, unlisted⟩ := Table.added_iff.mp added
      have listed : ⟨c, q⟩ ∈ (a.table.add c q).1.transitions :=
        Table.mem_transitions_add.mpr (.inr ⟨storable, rfl⟩)
      have transitions : (a.table.add c q).1.transitions = a.table.transitions := same.transitions
      rw [transitions] at listed
      exact unlisted listed

theorem truthful_removeTransition (a : Automaton kind Q S) (c : Condition Q S) (q : Q) :
    a.Truthful (a.removeTransition c q) where
  unchanged := by
    intro missing
    have kept := Table.remove_of_not_removed missing
    simp only [removeTransition, kept]
  changed := by
    intro removed same
    have listed : ⟨c, q⟩ ∈ a.transitions := Table.has_iff.mp removed
    rw [← same.transitions, transitions_removeTransition] at listed
    simp at listed

theorem truthful_addFinal (a : Automaton kind Q S) (q : Q) : a.Truthful (a.addFinal q) := by
  unfold addFinal
  split
  · constructor
    · intro present
      have final : q ∈ a.finals := by simpa using present
      simp only [SortedSet.insert_eq_self_iff.mpr final]
    · intro new same
      have absent : q ∉ a.finals := by simpa using new
      exact absent (SortedSet.insert_eq_self_iff.mp same.finals)
  · exact ⟨fun _ => rfl, nofun⟩

theorem truthful_removeFinal (a : Automaton kind Q S) (q : Q) : a.Truthful (a.removeFinal q) where
  unchanged := by
    intro missing
    have absent : q ∉ a.finals := by simpa [removeFinal] using missing
    rw [removeFinal, SortedSet.erase_eq_self_iff.mpr absent]
  changed := by
    intro removed same
    have final : q ∈ a.finals := by simpa [removeFinal] using removed
    exact SortedSet.erase_eq_self_iff.mp same.finals final

theorem done_setInitial (a : Automaton kind Q S) (q : Q) :
    (a.setInitial q).done = true ↔ q ∈ a.states := by
  unfold setInitial
  split <;> simp_all

theorem setInitial_of_not_done (refused : (a.setInitial q).done = false) :
    (a.setInitial q).automaton = a := by
  unfold setInitial at refused ⊢
  split at refused
  · cases refused
  · rename_i undeclared
    rw [if_neg undeclared]

theorem edit_addTransition_eq_error_iff {failure : Failure} :
    a.edit (.addTransition c q) = .error failure ↔ kind = .dfa ∧
      (c.isSpontaneous = true ∧ failure = .spontaneousMove ∨
        c.isSpontaneous = false ∧ (∃ r, ⟨c, r⟩ ∈ a.transitions) ∧
          failure = .duplicateCondition) := by
  have leads : (a.table.destinations? c).isSome ↔ ∃ r, ⟨c, r⟩ ∈ a.transitions := by
    rw [← not_iff_not, Option.not_isSome_iff_eq_none, Table.destinations?_eq_none_iff, not_exists]
    exact .rfl
  rw [edit_addTransition, addTransition, ← leads]
  split
  · rename_i spontaneous
    simpa [Attempt.result, Except.map, spontaneous] using eq_comm
  · rename_i labeled
    split
    · rename_i repeated
      have reads : c.isSpontaneous = false := by simpa [repeated.1] using labeled
      simpa [Attempt.result, Except.map, repeated, reads] using eq_comm
    · split <;> simp_all [Attempt.result, Except.map]

theorem addTransition_eq_spontaneousMove_iff :
    a.edit (.addTransition c q) = .error .spontaneousMove ↔
      kind = .dfa ∧ c.isSpontaneous = true := by
  simp [edit_addTransition_eq_error_iff]

theorem addTransition_eq_duplicateCondition_iff :
    a.edit (.addTransition c q) = .error .duplicateCondition ↔
      kind = .dfa ∧ c.isSpontaneous = false ∧ ∃ r, ⟨c, r⟩ ∈ a.transitions := by
  simp [edit_addTransition_eq_error_iff]

theorem addTransition_failure {failure : Failure}
    (refused : a.edit (.addTransition c q) = .error failure) :
    kind = .dfa ∧ (failure = .spontaneousMove ∨ failure = .duplicateCondition) := by
  obtain ⟨deterministic, ⟨_, cause⟩ | ⟨_, _, cause⟩⟩ := edit_addTransition_eq_error_iff.mp refused
  · exact ⟨deterministic, .inl cause⟩
  · exact ⟨deterministic, .inr cause⟩

theorem truthful_edit {e : Edit Q S} {edited : Edited kind Q S} (consistent : a.Consistent)
    (given : a.edit e = .ok edited) (other : ∀ q, e ≠ .setInitial q) : a.Truthful edited := by
  cases e with
  | addState q => exact Except.ok.inj given ▸ a.truthful_addState q
  | removeState q => exact Except.ok.inj given ▸ truthful_removeState consistent q
  | addInput s => exact Except.ok.inj given ▸ a.truthful_addInput s
  | removeInput s => exact Except.ok.inj given ▸ truthful_removeInput consistent s
  | addTransition c q => exact truthful_addTransition given
  | removeTransition c q => exact Except.ok.inj given ▸ a.truthful_removeTransition c q
  | setInitial q => exact absurd rfl (other q)
  | addFinal q => exact Except.ok.inj given ▸ a.truthful_addFinal q
  | removeFinal q => exact Except.ok.inj given ▸ a.truthful_removeFinal q

theorem edit_unchanged {e : Edit Q S} {edited : Edited kind Q S} (consistent : a.Consistent)
    (given : a.edit e = .ok edited) (refused : edited.done = false) : a.after e = a := by
  rw [after_of_ok given]
  by_cases initial : ∃ q, e = .setInitial q
  · obtain ⟨q, rfl⟩ := initial
    obtain rfl := Except.ok.inj given
    exact setInitial_of_not_done refused
  · have other : ∀ q, e ≠ .setInitial q := fun q same => initial ⟨q, same⟩
    exact (truthful_edit consistent given other).unchanged refused

/-- What the answer of an edit says about the automaton it leaves, and when it is which. -/
structure TruthfulEdits (a : Automaton kind Q S) : Prop where
  refused : ∀ e failure, a.edit e = .error failure → a.after e = a
  unchanged : ∀ e edited, a.edit e = .ok edited → edited.done = false → a.after e = a
  changed : ∀ e edited, a.edit e = .ok edited → edited.done = true → (∀ q, e ≠ .setInitial q) →
    ¬ (a.after e).SameParts a
  setInitial : ∀ q, (a.setInitial q).done = true ↔ q ∈ a.states
  removeState : ∀ q, (a.removeState q).done = true ↔ q ∈ a.states
  removeInput : ∀ s, (a.removeInput s).done = true ↔ s ∈ a.inputs
  spontaneousMove : ∀ c q, a.edit (.addTransition c q) = .error .spontaneousMove ↔
    kind = .dfa ∧ c.isSpontaneous = true
  duplicateCondition : ∀ c q, a.edit (.addTransition c q) = .error .duplicateCondition ↔
    kind = .dfa ∧ c.isSpontaneous = false ∧ ∃ r, ⟨c, r⟩ ∈ a.transitions
  failures : ∀ e failure, a.edit e = .error failure → kind = .dfa ∧
    (∃ c q, e = .addTransition c q) ∧ (failure = .spontaneousMove ∨ failure = .duplicateCondition)

/-- Whatever is tried on an automaton that was built: what fails leaves no trace, and what succeeds
leaves one. -/
theorem built_truthfulEdits (built : a.Built) : a.TruthfulEdits := by
  have consistent := built.wellFormed.toConsistent
  constructor
  · intro e failure refused
    exact after_of_error refused
  · intro e edited given refused
    exact edit_unchanged consistent given refused
  · intro e edited given done other
    rw [after_of_ok given]
    exact (truthful_edit consistent given other).changed done
  · exact a.done_setInitial
  · exact a.done_removeState
  · exact a.done_removeInput
  · intro c q
    exact addTransition_eq_spontaneousMove_iff
  · intro c q
    exact addTransition_eq_duplicateCondition_iff
  · intro e failure refused
    cases e with
    | addTransition c q =>
      obtain ⟨deterministic, which⟩ := addTransition_failure refused
      exact ⟨deterministic, ⟨c, q, rfl⟩, which⟩
    | _ => cases refused

open Demonstration in
theorem second_destination_refused :
    exampleNfa.determinize.Built ∧ exampleNfa.determinize.TruthfulEdits ∧
      exampleNfa.determinize.edit (.addTransition (.labeled {2} 't') {2}) =
        .error .duplicateCondition ∧
      exampleNfa.determinize.after (.addTransition (.labeled {2} 't') {2}) =
        exampleNfa.determinize := by
  have built : exampleNfa.determinize.Built := .determinize (by decide) exampleNfa_built
  have truthful := built_truthfulEdits built
  have listed : ⟨.labeled {2} 't', {3}⟩ ∈ exampleNfa.determinize.transitions := by decide +kernel
  have refused := (truthful.duplicateCondition (.labeled {2} 't') {2}).mpr ⟨rfl, rfl, {3}, listed⟩
  exact ⟨built, truthful, refused, truthful.refused _ _ refused⟩

end Automaton
end FiniteAutomata
