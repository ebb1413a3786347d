import FiniteAutomata.Table

/-!
Finite automata: states, inputs, transitions, an initial state and final states. The three kinds
share this shape. An NFA has labeled conditions only, an ε-NFA may have spontaneous ones, and a DFA
is an NFA in which no condition has two destinations. `WellFormed` says that whatever is referred to
is declared; `ofParts?` accepts exactly the parts for which it holds.
-/
namespace FiniteAutomata

inductive Kind where
  | nfa
  | epsilonNfa
  | dfa
deriving DecidableEq, Repr

def Kind.table : Kind → TableKind
  | .nfa => .plain
  | .epsilonNfa => .spontaneous
  | .dfa => .plain

structure Automaton (kind : Kind) (Q S : Type) [Ordered Q] [Ordered S] where
  states : SortedSet Q
  inputs : SortedSet S
  table : Table kind.table Q S
  initial : Option Q
  finals : SortedSet Q
deriving DecidableEq

abbrev NFA (Q S : Type) [Ordered Q] [Ordered S] := Automaton .nfa Q S

abbrev EpsilonNFA (Q S : Type) [Ordered Q] [Ordered S] := Automaton .epsilonNfa Q S

abbrev DFA (Q S : Type) [Ordered Q] [Ordered S] := Automaton .dfa Q S

namespace Automaton
variable {kind : Kind} [Ordered Q] [Ordered S]

def withInputs (inputs : List S) : Automaton kind Q S :=
  ⟨∅, SortedSet.ofList inputs, ∅, none, ∅⟩

def empty : Automaton kind Q S := withInputs []

instance : Inhabited (Automaton kind Q S) := ⟨empty⟩

def transitions (a : Automaton kind Q S) : List (Transition Q S) := a.table.transitions

def stateCount (a : Automaton kind Q S) : Nat := a.states.size

def isAccepting (a : Automaton kind Q S) (q : Q) : Bool := q ∈ a.finals

def Declares (a : Automaton kind Q S) (c : Condition Q S) (q : Q) : Prop :=
  c.state ∈ a.states ∧ (∀ s ∈ c.label?, s ∈ a.inputs) ∧ q ∈ a.states

instance (a : Automaton kind Q S) (c : Condition Q S) (q : Q) : Decidable (a.Declares c q) := by
  unfold Declares
  infer_instance

structure Consistent (a : Automaton kind Q S) : Prop where
  initial_declared : ∀ q ∈ a.initial, q ∈ a.states
  finals_declared : a.finals ⊆ a.states
  transitions_declared : ∀ t ∈ a.transitions, a.Declares t.condition t.destination

instance (a : Automaton kind Q S) : Decidable a.Consistent :=
  decidable_of_iff
    ((∀ q ∈ a.initial, q ∈ a.states) ∧ a.finals ⊆ a.states ∧
      ∀ t ∈ a.transitions, a.Declares t.condition t.destination)
    ⟨fun ⟨i, f, t⟩ => ⟨i, f, t⟩, fun ⟨i, f, t⟩ => ⟨i, f, t⟩⟩

end Automaton

def Table.Deterministic [Ordered Q] [Ordered S] (t : Table kind Q S) : Prop :=
  ∀ row ∈ t.rows, row.destinations.size ≤ 1

instance [Ordered Q] [Ordered S] (t : Table kind Q S) : Decidable t.Deterministic := by
  unfold Table.Deterministic
  infer_instance

namespace Automaton
variable {kind : Kind} [Ordered Q] [Ordered S]

structure WellFormed (a : Automaton kind Q S) : Prop extends a.Consistent where
  deterministic : kind = .dfa → a.table.Deterministic

instance (a : Automaton kind Q S) : Decidable a.WellFormed :=
  decidable_of_iff (a.Consistent ∧ (kind = .dfa → a.table.Deterministic))
    ⟨fun ⟨c, d⟩ => ⟨c, d⟩, fun ⟨c, d⟩ => ⟨c, d⟩⟩

/-- The automaton of these parts, or none if they refer to something undeclared. For a DFA a second
destination of a condition is an error, whatever else is wrong. -/
def ofParts? (states : List Q) (inputs : List S) (table : Table kind.table Q S)
    (initial : Option Q) (finals : List Q) : Except Failure (Option (Automaton kind Q S)) :=
  let a := ⟨SortedSet.ofList states, SortedSet.ofList inputs, table, initial,
    SortedSet.ofList finals⟩
  if kind = .dfa ∧ ¬ table.Deterministic then .error .duplicateCondition
  else .ok (if a.Consistent then some a else none)

end Automaton
end FiniteAutomata
