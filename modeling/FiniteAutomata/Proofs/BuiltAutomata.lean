import FiniteAutomata.Demonstration
import FiniteAutomata.Proofs.BoundedConversion

/-!
The automata that can be built: by a constructor or a conversion, and then by edits in any number
and order, refused ones included. All of them are well formed, so whatever such an automaton refers
to is declared, and its table holds nothing its kind does not allow.
-/
namespace FiniteAutomata.Automaton

/-- A copy of a built automaton is that automaton. -/
inductive Built {S : Type} [Ordered S] :
    {kind : Kind} → {Q : Type} → [Ordered Q] → Automaton kind Q S → Prop where
  | empty {kind : Kind} {Q : Type} [Ordered Q] : Built (empty : Automaton kind Q S)
  | withInputs {kind : Kind} {Q : Type} [Ordered Q] (inputs : List S) :
      Built (withInputs inputs : Automaton kind Q S)
  | ofParts {kind : Kind} {Q : Type} [Ordered Q] {a : Automaton kind Q S} {states finals : List Q}
      {inputs : List S} {table : Table kind.table Q S} {initial : Option Q}
      (made : ofParts? states inputs table initial finals = .ok (some a)) : Built a
  | determinize {kind : Kind} {Q : Type} [Ordered Q] {n : Automaton kind Q S}
      (nondeterministic : kind ≠ .dfa) (before : Built n) : Built n.determinize
  | convertWithin {kind : Kind} {Q : Type} [Ordered Q] {n : Automaton kind Q S}
      {limit : Option Nat} {d : DFA (SortedSet Q) S} (nondeterministic : kind ≠ .dfa)
      (before : Built n) (made : (n.convertWithin limit).1 = .ok d) : Built d
  | edit {kind : Kind} {Q : Type} [Ordered Q] {a : Automaton kind Q S} (before : Built a)
      (e : Edit Q S) : Built (a.after e)

variable {kind : Kind} [Ordered Q] [Ordered S] {a : Automaton kind Q S}

theorem Built.afterAll (built : a.Built) (edits : List (Edit Q S)) : (a.afterAll edits).Built := by
  induction edits generalizing a with
  | nil => exact built
  | cons e rest ih => exact ih (built.edit e)

theorem exampleNfa_built : Demonstration.exampleNfa.Built := (Built.withInputs _).afterAll _

theorem Built.wellFormed (built : a.Built) : a.WellFormed := by
  induction built with
  | empty => exact wellFormed_withInputs []
  | withInputs inputs => exact wellFormed_withInputs inputs
  | ofParts made => exact wellFormed_ofParts? made
  | determinize _ _ ih => exact wellFormed_determinize ih.toConsistent
  | convertWithin _ _ made ih =>
    rw [(convertWithin_eq_ok_iff.mp made).1]
    exact wellFormed_determinize ih.toConsistent
  | edit _ e ih => exact ih.after e

structure TupleInvariant (a : Automaton kind Q S) : Prop where
  initial_declared : ∀ q ∈ a.initial, q ∈ a.states
  finals_declared : ∀ q ∈ a.finals, q ∈ a.states
  ends_declared : ∀ t ∈ a.transitions, t.condition.state ∈ a.states ∧ t.destination ∈ a.states
  symbols_declared : ∀ t ∈ a.transitions, ∀ s ∈ t.condition.label?, s ∈ a.inputs
  rows_inhabited : ∀ row ∈ a.table.rows, row.destinations ≠ ∅
  rows_distinct : (a.table.rows.map Row.condition).Nodup
  labeled_only : kind ≠ .epsilonNfa → ∀ row ∈ a.table.rows, row.condition.isSpontaneous = false
  one_destination : kind = .dfa → ∀ row ∈ a.table.rows, ∃ q, row.destinations = {q}

theorem WellFormed.one_destination (valid : a.WellFormed) (deterministic : kind = .dfa)
    {row : Row Q S} (among : row ∈ a.table.rows) : ∃ q, row.destinations = {q} := by
  obtain ⟨q, member⟩ := SortedSet.ne_empty_iff.mp (a.table.inhabited row among)
  have small := valid.deterministic deterministic row among
  exact ⟨q, (SortedSet.eq_singleton_iff small).mpr member⟩

omit [Ordered Q] [Ordered S] in
theorem labeled_of_stores (plain : kind ≠ .epsilonNfa) {c : Condition Q S}
    (stored : kind.table.stores c = true) : c.isSpontaneous = false := by
  cases kind with
  | epsilonNfa => exact absurd rfl plain
  | nfa => simpa [Kind.table, TableKind.stores, TableKind.allowsSpontaneous] using stored
  | dfa => simpa [Kind.table, TableKind.stores, TableKind.allowsSpontaneous] using stored

theorem labeled_of_listed (plain : kind ≠ .epsilonNfa) :
    ∀ t ∈ a.transitions, t.condition.isSpontaneous = false := by
  intro t listed
  exact labeled_of_stores plain (Table.stores_of_mem listed)

/-- However an automaton was built, and whatever was tried on it, its parts fit together. -/
theorem built_tupleInvariant (built : a.Built) : a.TupleInvariant := by
  have valid := built.wellFormed
  constructor
  · exact valid.initial_declared
  · exact valid.finals_declared
  · intro t listed
    obtain ⟨source, _, destination⟩ := valid.transitions_declared t listed
    exact ⟨source, destination⟩
  · intro t listed
    exact (valid.transitions_declared t listed).2.1
  · exact a.table.inhabited
  · exact a.table.distinct
  · exact fun plain row among => labeled_of_stores plain (a.table.stored row among)
  · exact fun deterministic row among => valid.one_destination deterministic among

open Demonstration in
/-- The DFA of the example loses its initial state, and another label takes its place. -/
theorem tupleInvariant_without_first_label :
    let edited := exampleNfa.determinize.after (.removeState (.ofList [0, 3]))
    edited.Built ∧ edited.TupleInvariant ∧ edited.initial = some {2} := by
  have built : (exampleNfa.determinize.after (.removeState (.ofList [0, 3]))).Built :=
    (Built.determinize (by decide) exampleNfa_built).edit _
  exact ⟨built, built_tupleInvariant built, by decide +kernel⟩

end FiniteAutomata.Automaton
