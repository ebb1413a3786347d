import FiniteAutomata.Automaton.Edit
import FiniteAutomata.Proofs.TableContents

/-!
What edits leave. Every edit keeps an automaton well formed, whether it takes effect or not. A
removed state or symbol takes exactly the transitions along that touch it.
-/
namespace FiniteAutomata

namespace Table
variable {kind : TableKind} [Ordered Q] [Ordered S] {t u : Table kind Q S} {c : Condition Q S} {q : Q}

theorem deterministic_iff :
    t.Deterministic ↔ ∀ c q r, ⟨c, q⟩ ∈ t.transitions → ⟨c, r⟩ ∈ t.transitions → q = r := by
  constructor
  · intro single c q r first second
    obtain ⟨row, among, same, leads⟩ := mem_transitions_iff_row.mp first
    obtain ⟨other, also, alike, leads'⟩ := mem_transitions_iff_row.mp second
    have one := row_unique among also (same.trans alike.symm)
    subst one
    exact SortedSet.size_le_one_iff.mp (single row among) q leads r leads'
  · intro same row among
    apply SortedSet.size_le_one_iff.mpr
    intro q first r second
    exact same row.condition q r (mem_transitions_iff_row.mpr ⟨row, among, rfl, first⟩)
      (mem_transitions_iff_row.mpr ⟨row, among, rfl, second⟩)

theorem Deterministic.of_subset (single : t.Deterministic)
    (fewer : ∀ tr ∈ u.transitions, tr ∈ t.transitions) : u.Deterministic := by
  rw [deterministic_iff] at single ⊢
  intro c q r first second
  exact single c q r (fewer _ first) (fewer _ second)

theorem Deterministic.removeAll (single : t.Deterministic) (gone : List (Transition Q S)) :
    (t.removeAll gone).1.Deterministic := by
  apply single.of_subset
  intro tr kept
  rw [transitions_removeAll] at kept
  exact List.mem_of_mem_filter kept

theorem Deterministic.add (single : t.Deterministic) (absent : t.destinations? c = none) (q : Q) :
    (t.add c q).1.Deterministic := by
  rw [deterministic_iff] at single ⊢
  have unlisted := destinations?_eq_none_iff.mp absent
  intro d p r first second
  rcases mem_transitions_add.mp first with old | ⟨_, new⟩
  · rcases mem_transitions_add.mp second with also | ⟨_, new⟩
    · exact single d p r old also
    · cases new
      exact absurd old (unlisted p)
  · cases new
    rcases mem_transitions_add.mp second with also | ⟨_, new⟩
    · exact absurd also (unlisted r)
    · cases new
      rfl

end Table

namespace Automaton
variable {kind : Kind} [Ordered Q] [Ordered S] {a b : Automaton kind Q S} {c : Condition Q S} {q : Q}

theorem Declares.mono (declared : a.Declares c q) (states : a.states ⊆ b.states)
    (inputs : a.inputs ⊆ b.inputs) : b.Declares c q :=
  ⟨states _ declared.1, fun s label => inputs s (declared.2.1 s label), states q declared.2.2⟩

theorem removeState_automaton (a : Automaton kind Q S) (q : Q) :
    (a.removeState q).automaton =
      { states := a.states.erase q
        inputs := a.inputs
        table := (a.table.removeAll (a.touching q)).1
        initial := if a.initial = some q then (a.states.erase q).min? else a.initial
        finals := a.finals.erase q } := by
  have removed : (a.table.removeAll (a.touching q)).2 = true := Table.removed_filter a.table _
  simp [removeState, removed]

theorem removeInput_automaton (a : Automaton kind Q S) (s : S) :
    (a.removeInput s).automaton =
      { a with inputs := a.inputs.erase s, table := (a.table.removeAll (a.reading s)).1 } := by
  have removed : (a.table.removeAll (a.reading s)).2 = true := Table.removed_filter a.table _
  simp [removeInput, removed]

theorem transitions_removeState (a : Automaton kind Q S) (q : Q) :
    (a.removeState q).automaton.transitions =
      a.transitions.filter fun t => t.condition.state ≠ q ∧ t.destination ≠ q := by
  have struck := a.table.transitions_removeFilter fun t => t.condition.state = q ∨ t.destination = q
  rw [removeState_automaton]
  refine struck.trans (List.filter_congr ?_)
  intro t _
  simp

theorem transitions_removeInput (a : Automaton kind Q S) (s : S) :
    (a.removeInput s).automaton.transitions =
      a.transitions.filter fun t => t.condition.label? ≠ some s := by
  have struck := a.table.transitions_removeFilter fun t => t.condition.label? = some s
  rw [removeInput_automaton]
  refine struck.trans (List.filter_congr ?_)
  intro t _
  simp

theorem transitions_removeTransition (a : Automaton kind Q S) (c : Condition Q S) (q : Q) :
    (a.removeTransition c q).automaton.transitions = a.transitions.filter (· ≠ ⟨c, q⟩) :=
  a.table.transitions_remove c q

theorem addTransition_cases (a : Automaton kind Q S) (c : Condition Q S) (q : Q) :
    (∃ failure, a.addTransition c q = ⟨a, .error failure, []⟩) ∨
      a.addTransition c q = ⟨a, .ok false, []⟩ ∨
      a.Declares c q ∧ (kind = .dfa → a.table.destinations? c = none) ∧
        a.addTransition c q =
          ⟨{ a with table := (a.table.add c q).1 }, .ok (a.table.add c q).2, []⟩ := by
  unfold addTransition
  split
  · exact .inl ⟨_, rfl⟩
  · split
    · exact .inl ⟨_, rfl⟩
    · rename_i unrepeated
      split
      · rename_i declared
        have new : kind = .dfa → a.table.destinations? c = none := by
          intro deterministic
          simpa [deterministic] using unrepeated
        exact .inr (.inr ⟨declared, new, rfl⟩)
      · exact .inr (.inl rfl)

theorem edit_addTransition (a : Automaton kind Q S) (c : Condition Q S) (q : Q) :
    a.edit (.addTransition c q) = (a.addTransition c q).result := rfl

theorem edit_addTransition_cases {edited : Edited kind Q S}
    (given : a.edit (.addTransition c q) = .ok edited) :
    edited = ⟨a, false, []⟩ ∨ a.Declares c q ∧ (kind = .dfa → a.table.destinations? c = none) ∧
      edited = ⟨{ a with table := (a.table.add c q).1 }, (a.table.add c q).2, []⟩ := by
  rw [edit_addTransition] at given
  rcases a.addTransition_cases c q with ⟨failure, refused⟩ | vain | ⟨declared, new, added⟩
  · rw [refused] at given
    cases given
  · rw [vain] at given
    exact .inl (Except.ok.inj given).symm
  · rw [added] at given
    exact .inr ⟨declared, new, (Except.ok.inj given).symm⟩

theorem after_of_ok {e : Edit Q S} {edited : Edited kind Q S} (given : a.edit e = .ok edited) :
    a.after e = edited.automaton := by
  unfold edit Attempt.result at given
  cases answer : (a.attempt e).answer with
  | error failure =>
    rw [answer] at given
    cases given
  | ok done =>
    rw [answer] at given
    cases given
    rfl

/-- Only additions of transitions are refused, and those that are have changed nothing. -/
theorem after_of_error {e : Edit Q S} {failure : Failure} (refused : a.edit e = .error failure) :
    a.after e = a := by
  cases e with
  | addTransition c q =>
    rw [edit_addTransition] at refused
    change (a.addTransition c q).automaton = a
    rcases a.addTransition_cases c q with ⟨_, same⟩ | same | ⟨_, _, added⟩
    · rw [same]
    · rw [same]
    · rw [added] at refused
      cases refused
  | _ => cases refused

theorem wellFormed_withInputs (inputs : List S) :
    (withInputs inputs : Automaton kind Q S).WellFormed where
  initial_declared := nofun
  finals_declared := nofun
  transitions_declared := nofun
  deterministic := fun _ => nofun

theorem WellFormed.addState (valid : a.WellFormed) (q : Q) :
    (a.addState q).automaton.WellFormed := by
  have more : a.states ⊆ a.states.insert q := fun _ h => SortedSet.mem_insert.mpr (.inr h)
  refine ⟨⟨?_, ?_, ?_⟩, valid.deterministic⟩
  · intro p h
    exact more p (valid.initial_declared p h)
  · intro p h
    exact more p (valid.finals_declared p h)
  · intro t h
    exact (valid.transitions_declared t h).mono more fun _ h => h

theorem WellFormed.addInput (valid : a.WellFormed) (s : S) :
    (a.addInput s).automaton.WellFormed := by
  have more : a.inputs ⊆ a.inputs.insert s := fun _ h => SortedSet.mem_insert.mpr (.inr h)
  refine ⟨⟨valid.initial_declared, valid.finals_declared, ?_⟩, valid.deterministic⟩
  intro t h
  exact (valid.transitions_declared t h).mono (fun _ h => h) more

theorem WellFormed.removeState (valid : a.WellFormed) (q : Q) :
    (a.removeState q).automaton.WellFormed := by
  have kept := transitions_removeState a q
  rw [removeState_automaton] at kept ⊢
  refine ⟨⟨?_, ?_, ?_⟩, fun deterministic => (valid.deterministic deterministic).removeAll _⟩
  · intro p h
    by_cases here : a.initial = some q
    · simp only [here, if_true] at h
      exact SortedSet.mem_of_min? h
    · simp only [here, if_false] at h
      have differs : p ≠ q := fun same => here (same ▸ h)
      exact SortedSet.mem_erase.mpr ⟨valid.initial_declared p h, differs⟩
  · intro p h
    obtain ⟨final, differs⟩ := SortedSet.mem_erase.mp h
    exact SortedSet.mem_erase.mpr ⟨valid.finals_declared p final, differs⟩
  · intro t h
    rw [kept, List.mem_filter, decide_eq_true_eq] at h
    obtain ⟨source, symbol, destination⟩ := valid.transitions_declared t h.1
    exact ⟨SortedSet.mem_erase.mpr ⟨source, h.2.1⟩, symbol,
      SortedSet.mem_erase.mpr ⟨destination, h.2.2⟩⟩

theorem WellFormed.removeInput (valid : a.WellFormed) (s : S) :
    (a.removeInput s).automaton.WellFormed := by
  have kept := transitions_removeInput a s
  rw [removeInput_automaton] at kept ⊢
  refine ⟨⟨valid.initial_declared, valid.finals_declared, ?_⟩,
    fun deterministic => (valid.deterministic deterministic).removeAll _⟩
  intro t h
  rw [kept, List.mem_filter, decide_eq_true_eq] at h
  obtain ⟨source, symbol, destination⟩ := valid.transitions_declared t h.1
  have symbol_kept : ∀ x ∈ t.condition.label?, x ∈ a.inputs.erase s := by
    intro x label
    have differs : x ≠ s := fun same => h.2 (same ▸ label)
    exact SortedSet.mem_erase.mpr ⟨symbol x label, differs⟩
  exact ⟨source, symbol_kept, destination⟩

theorem WellFormed.addTransition (valid : a.WellFormed) (c : Condition Q S) (q : Q) :
    (a.addTransition c q).automaton.WellFormed := by
  rcases a.addTransition_cases c q with ⟨_, same⟩ | same | ⟨declared, new, added⟩
  · rw [same]
    exact valid
  · rw [same]
    exact valid
  · rw [added]
    refine ⟨⟨valid.initial_declared, valid.finals_declared, ?_⟩, ?_⟩
    · intro t h
      rcases Table.mem_transitions_add.mp h with old | ⟨_, rfl⟩
      · exact valid.transitions_declared t old
      · exact declared
    · intro deterministic
      exact (valid.deterministic deterministic).add (new deterministic) q

theorem WellFormed.removeTransition (valid : a.WellFormed) (c : Condition Q S) (q : Q) :
    (a.removeTransition c q).automaton.WellFormed := by
  have fewer : ∀ t ∈ (a.removeTransition c q).automaton.transitions, t ∈ a.transitions := by
    intro t h
    rw [transitions_removeTransition] at h
    exact List.mem_of_mem_filter h
  refine ⟨⟨valid.initial_declared, valid.finals_declared, ?_⟩,
    fun deterministic => (valid.deterministic deterministic).of_subset fewer⟩
  intro t h
  exact valid.transitions_declared t (fewer t h)

theorem WellFormed.setInitial (valid : a.WellFormed) (q : Q) :
    (a.setInitial q).automaton.WellFormed := by
  unfold Automaton.setInitial
  split
  · rename_i declared
    refine ⟨⟨?_, valid.finals_declared, valid.transitions_declared⟩, valid.deterministic⟩
    intro p h
    cases h
    exact declared
  · exact valid

theorem WellFormed.addFinal (valid : a.WellFormed) (q : Q) :
    (a.addFinal q).automaton.WellFormed := by
  unfold Automaton.addFinal
  split
  · rename_i declared
    refine ⟨⟨valid.initial_declared, ?_, valid.transitions_declared⟩, valid.deterministic⟩
    intro p h
    rcases SortedSet.mem_insert.mp h with rfl | old
    · exact declared
    · exact valid.finals_declared p old
  · exact valid

theorem WellFormed.removeFinal (valid : a.WellFormed) (q : Q) :
    (a.removeFinal q).automaton.WellFormed := by
  refine ⟨⟨valid.initial_declared, ?_, valid.transitions_declared⟩, valid.deterministic⟩
  intro p h
  exact valid.finals_declared p (SortedSet.mem_erase.mp h).1

theorem WellFormed.after (valid : a.WellFormed) (e : Edit Q S) : (a.after e).WellFormed := by
  cases e with
  | addState q => exact valid.addState q
  | removeState q => exact valid.removeState q
  | addInput s => exact valid.addInput s
  | removeInput s => exact valid.removeInput s
  | addTransition c q => exact valid.addTransition c q
  | removeTransition c q => exact valid.removeTransition c q
  | setInitial q => exact valid.setInitial q
  | addFinal q => exact valid.addFinal q
  | removeFinal q => exact valid.removeFinal q

theorem wellFormed_ofParts? {states finals : List Q} {inputs : List S} {initial : Option Q}
    {table : Table kind.table Q S}
    (made : ofParts? states inputs table initial finals = .ok (some a)) : a.WellFormed := by
  unfold ofParts? at made
  split at made
  · cases made
  · rename_i single
    simp only [Except.ok.injEq] at made
    split at made
    · rename_i consistent
      cases made
      have one : kind = .dfa → table.Deterministic := by
        intro deterministic
        simpa [deterministic] using single
      exact ⟨consistent, one⟩
    · cases made

end Automaton
end FiniteAutomata
