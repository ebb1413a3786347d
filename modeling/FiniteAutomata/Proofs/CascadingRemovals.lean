import FiniteAutomata.Demonstration
import FiniteAutomata.Proofs.EditInvariants

/-!
What the removal of a state or of a symbol takes along. The transitions go one by one while the table
changes, but what is left of their list is the list without those that touch the state or read the
symbol. A removed initial state gives way to the least state that is left, and that is reported.
-/
namespace FiniteAutomata.Automaton
variable {kind : Kind} [Ordered Q] [Ordered S] {a : Automaton kind Q S} {q : Q}

/-- The initial state held when `q` is gone: the one before, or, if that was `q`, the least of the
other states. -/
structure InitialWithout (a : Automaton kind Q S) (q : Q) (now : Option Q) : Prop where
  kept : a.initial ≠ some q → now = a.initial
  least : a.initial = some q → ∀ p, now = some p ↔
    (p ∈ a.states ∧ p ≠ q) ∧ ∀ r ∈ a.states, r ≠ q → compare p r ≠ .gt
  missing : a.initial = some q → (now = none ↔ ∀ p ∈ a.states, p = q)

theorem initialWithout_removeState (a : Automaton kind Q S) (q : Q) :
    a.InitialWithout q (a.removeState q).automaton.initial := by
  rw [removeState_automaton]
  constructor
  · intro other
    exact if_neg other
  · intro same p
    rw [if_pos same, SortedSet.min?_eq_some_iff, SortedSet.mem_erase]
    refine and_congr_right fun _ => forall_congr' fun r => ?_
    rw [SortedSet.mem_erase, and_imp]
  · intro same
    rw [if_pos same, SortedSet.min?_eq_none_iff, SortedSet.eq_empty_iff]
    refine forall_congr' fun p => ?_
    rw [SortedSet.mem_erase, not_and, not_not]

structure WithoutState (a : Automaton kind Q S) (q : Q) (edited : Edited kind Q S) : Prop where
  states : ∀ p, p ∈ edited.automaton.states ↔ p ∈ a.states ∧ p ≠ q
  inputs : edited.automaton.inputs = a.inputs
  finals : ∀ p, p ∈ edited.automaton.finals ↔ p ∈ a.finals ∧ p ≠ q
  transitions : edited.automaton.transitions =
    a.transitions.filter fun t => t.condition.state ≠ q ∧ t.destination ≠ q
  initial : a.InitialWithout q edited.automaton.initial
  reported : a.initial = some q → edited.events = [.initialRemoved q edited.automaton.initial]
  silent : a.initial ≠ some q → edited.events = []
  warning : ∀ event ∈ edited.events, event.level = .warn
  message : ∀ [Written Q], ∀ event ∈ edited.events, event.message =
    "removed the initial state " ++ Written.literal q ++ ", initial state is now " ++
      Written.literalOption edited.automaton.initial

structure WithoutInput (a : Automaton kind Q S) (s : S) (edited : Edited kind Q S) : Prop where
  states : edited.automaton.states = a.states
  inputs : ∀ x, x ∈ edited.automaton.inputs ↔ x ∈ a.inputs ∧ x ≠ s
  initial : edited.automaton.initial = a.initial
  finals : edited.automaton.finals = a.finals
  transitions : edited.automaton.transitions =
    a.transitions.filter fun t => t.condition.label? ≠ some s
  spontaneous_kept : ∀ t ∈ a.transitions, t.condition.isSpontaneous = true →
    t ∈ edited.automaton.transitions

theorem events_removeState (a : Automaton kind Q S) (q : Q) : (a.removeState q).events =
    if a.initial = some q then [.initialRemoved q (a.removeState q).automaton.initial] else [] := by
  rw [removeState_automaton]
  by_cases initial : a.initial = some q <;> simp [removeState, initial]

theorem withoutState_removeState (a : Automaton kind Q S) (q : Q) :
    a.WithoutState q (a.removeState q) := by
  have named : ∀ event ∈ (a.removeState q).events,
      event = .initialRemoved q (a.removeState q).automaton.initial := by
    intro event among
    rw [events_removeState] at among
    split at among
    · exact List.mem_singleton.mp among
    · cases among
  refine ⟨?_, ?_, ?_, transitions_removeState a q, initialWithout_removeState a q, ?_, ?_, ?_, ?_⟩
  · intro p
    rw [removeState_automaton, SortedSet.mem_erase]
  · rw [removeState_automaton]
  · intro p
    rw [removeState_automaton, SortedSet.mem_erase]
  · intro initial
    rw [events_removeState, if_pos initial]
  · intro other
    rw [events_removeState, if_neg other]
  · intro event among
    rw [named event among]
    rfl
  · intro _ event among
    rw [named event among]
    rfl

theorem withoutInput_removeInput (a : Automaton kind Q S) (s : S) :
    a.WithoutInput s (a.removeInput s) := by
  have left := transitions_removeInput a s
  refine ⟨?_, ?_, ?_, ?_, left, ?_⟩
  · rw [removeInput_automaton]
  · intro x
    rw [removeInput_automaton, SortedSet.mem_erase]
  · rw [removeInput_automaton]
  · rw [removeInput_automaton]
  · intro t listed silent
    rw [left, List.mem_filter]
    refine ⟨listed, ?_⟩
    obtain ⟨c, r⟩ := t
    cases c with
    | labeled p x => cases silent
    | spontaneous p => rfl

/-- Removals are filters of the parts of an automaton, also of one whose parts do not fit together. -/
theorem removals_filter (a : Automaton kind Q S) :
    (∀ q, a.WithoutState q (a.removeState q)) ∧ ∀ s, a.WithoutInput s (a.removeInput s) :=
  ⟨a.withoutState_removeState, a.withoutInput_removeInput⟩

open Demonstration in
/-- The initial state of the example takes four transitions along: two that read and leave it, a
spontaneous one, and one that comes back. -/
example : (exampleNfa.removeState 0).automaton.transitions =
    [⟨.labeled 1 'u', 2⟩, ⟨.labeled 2 't', 3⟩, ⟨.labeled 3 'o', 2⟩, ⟨.labeled 2 'n', 3⟩] := by
  decide +kernel

end FiniteAutomata.Automaton
