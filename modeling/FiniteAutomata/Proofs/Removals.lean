import FiniteAutomata.Demonstration
import FiniteAutomata.Proofs.EditInvariants

/-!
What removals leave, however many and in whatever order. Each part of the automaton keeps what none
of them names, and an initial state that is removed gives way to the least state left in the end,
whichever states took its place on the way. `Remains` says so by membership in the list of removals
alone, so their order plays no part.
-/
namespace FiniteAutomata

def Edit.isRemoval : Edit Q S → Bool
  | .removeState _ | .removeInput _ | .removeTransition .. | .removeFinal _ => true
  | .addState _ | .addInput _ | .addTransition .. | .setInitial _ | .addFinal _ => false

namespace Automaton
variable {kind : Kind} [Ordered Q] [Ordered S] {a b c : Automaton kind Q S}
  {edits others : List (Edit Q S)} {e : Edit Q S}

/-- No edit of the list removes the transition, one of its ends or what it reads. -/
def Spares (edits : List (Edit Q S)) (t : Transition Q S) : Prop :=
  .removeState t.condition.state ∉ edits ∧ .removeState t.destination ∉ edits ∧
    (∀ s ∈ t.condition.label?, .removeInput s ∉ edits) ∧
    .removeTransition t.condition t.destination ∉ edits

instance (edits : List (Edit Q S)) (t : Transition Q S) : Decidable (Spares edits t) := by
  unfold Spares
  infer_instance

/-- What is left, in `b`, of `a` after the removals among `edits`. -/
structure Remains (edits : List (Edit Q S)) (a b : Automaton kind Q S) : Prop where
  states : b.states = a.states.filter fun q => .removeState q ∉ edits
  inputs : b.inputs = a.inputs.filter fun s => .removeInput s ∉ edits
  finals : b.finals = a.finals.filter fun q => .removeState q ∉ edits ∧ .removeFinal q ∉ edits
  initial : b.initial = a.initial.bind fun q =>
    if .removeState q ∈ edits then b.states.min? else some q
  transitions : b.transitions = a.transitions.filter fun t => Spares edits t

theorem Remains.unique (first : Remains edits a b) (second : Remains others a c)
    (same : ∀ e, e ∈ edits ↔ e ∈ others) : b = c := by
  have states : b.states = c.states := by
    rw [first.states, second.states]
    simp only [same]
  have inputs : b.inputs = c.inputs := by
    rw [first.inputs, second.inputs]
    simp only [same]
  have finals : b.finals = c.finals := by
    rw [first.finals, second.finals]
    simp only [same]
  have initial : b.initial = c.initial := by
    rw [first.initial, second.initial, states]
    simp only [same]
  have table : b.table = c.table := by
    apply Table.eq_of_transitions
    apply first.transitions.trans (Eq.trans _ second.transitions.symm)
    simp only [Spares, same]
  cases b
  cases c
  cases states
  cases inputs
  cases finals
  cases initial
  cases table
  rfl

theorem remains_nil (a : Automaton kind Q S) : Remains [] a a := by
  constructor <;> simp [Spares]

theorem Remains.least (left : Remains edits a b) :
    (a.states.min?.bind fun q => if .removeState q ∈ edits then b.states.min? else some q) =
      b.states.min? := by
  by_cases kept : ∀ q ∈ a.states.min?, (.removeState q : Edit Q S) ∉ edits
  · have same : b.states.min? = a.states.min? := by
      rw [left.states]
      exact SortedSet.min?_filter fun q least => by simpa using kept q least
    rw [same]
    cases least : a.states.min? with
    | none => rfl
    | some q => simp [kept q least]
  · simp only [not_forall, not_not] at kept
    obtain ⟨q, least, gone⟩ := kept
    rw [Option.mem_def.mp least, Option.bind_some, if_pos gone]

theorem Remains.trans (first : Remains edits a b) (second : Remains others b c) :
    Remains (edits ++ others) a c := by
  constructor
  · rw [second.states, first.states, SortedSet.filter_filter]
    simp
  · rw [second.inputs, first.inputs, SortedSet.filter_filter]
    simp
  · rw [second.finals, first.finals, SortedSet.filter_filter]
    congr 1
    funext q
    grind
  · rw [second.initial, first.initial]
    cases a.initial with
    | none => rfl
    | some q =>
      by_cases gone : .removeState q ∈ edits
      · -- whatever took the place of `q`, the least state of `c` has it in the end
        simpa [gone] using second.least
      · simp [gone]
  · rw [second.transitions, first.transitions, List.filter_filter]
    congr 1
    funext t
    grind [Spares]

theorem remains_removeState (a : Automaton kind Q S) (q : Q) :
    Remains [.removeState q] a (a.removeState q).automaton := by
  have kept := transitions_removeState a q
  rw [removeState_automaton] at kept ⊢
  constructor
  · simp [SortedSet.erase]
  · simp
  · simp [SortedSet.erase]
  · cases a.initial <;> simp
  · rw [kept]
    congr 1
    funext t
    simp [Spares]

theorem remains_removeInput (a : Automaton kind Q S) (s : S) :
    Remains [.removeInput s] a (a.removeInput s).automaton := by
  have kept := transitions_removeInput a s
  rw [removeInput_automaton] at kept ⊢
  constructor
  · simp
  · simp [SortedSet.erase]
  · simp
  · simp
  · rw [kept]
    congr 1
    funext t
    cases label : t.condition.label? <;> simp [Spares, label]

theorem remains_removeTransition (a : Automaton kind Q S) (d : Condition Q S) (q : Q) :
    Remains [.removeTransition d q] a (a.removeTransition d q).automaton := by
  constructor
  · simp [removeTransition]
  · simp [removeTransition]
  · simp [removeTransition]
  · simp [removeTransition]
  · rw [transitions_removeTransition]
    congr 1
    funext t
    obtain ⟨c, r⟩ := t
    simp [Spares]

theorem remains_removeFinal (a : Automaton kind Q S) (q : Q) :
    Remains [.removeFinal q] a (a.removeFinal q).automaton := by
  constructor
  · simp [removeFinal]
  · simp [removeFinal]
  · simp [removeFinal, SortedSet.erase]
  · simp [removeFinal]
  · simp [removeFinal, Spares, transitions]

theorem remains_after (a : Automaton kind Q S) (removal : e.isRemoval = true) :
    Remains [e] a (a.after e) := by
  cases e with
  | removeState q => exact remains_removeState a q
  | removeInput s => exact remains_removeInput a s
  | removeTransition c q => exact remains_removeTransition a c q
  | removeFinal q => exact remains_removeFinal a q
  | _ => cases removal

theorem remains_afterAll (a : Automaton kind Q S) (removals : ∀ e ∈ edits, e.isRemoval = true) :
    Remains edits a (a.afterAll edits) := by
  induction edits generalizing a with
  | nil => exact remains_nil a
  | cons e rest ih =>
    obtain ⟨here, later⟩ := List.forall_mem_cons.mp removals
    exact (remains_after a here).trans (ih (a.after e) later)

/-- Removals commute: in whatever order a list of them is carried out, the same automaton is
left. -/
theorem afterAll_removals_perm (a : Automaton kind Q S)
    (removals : ∀ e ∈ edits, e.isRemoval = true) (reordered : edits.Perm others) :
    a.afterAll edits = a.afterAll others := by
  have also : ∀ e ∈ others, e.isRemoval = true := fun e member =>
    removals e (reordered.mem_iff.mpr member)
  exact (remains_afterAll a removals).unique (remains_afterAll a also) fun e => reordered.mem_iff

open Demonstration in
/-- The initial state of the example moves from 0 by way of 1 to 2 in one order, and at once in the
other. -/
theorem exampleNfa_removals_meet :
    let stepwise := [.removeState 0, .removeInput 't', .removeState 1, .removeState 9,
      .removeTransition (.labeled 2 'm') 0, .removeFinal 3]
    let at_once := [.removeFinal 3, .removeState 1, .removeTransition (.labeled 2 'm') 0,
      .removeState 0, .removeState 9, .removeInput 't']
    (∀ e ∈ stepwise, e.isRemoval = true) ∧ stepwise.Perm at_once ∧
      exampleNfa.afterAll stepwise = exampleNfa.afterAll at_once ∧
      (exampleNfa.after (.removeState 0)).initial = some 1 ∧
      (exampleNfa.afterAll stepwise).initial = some 2 :=
  ⟨by decide, by decide, afterAll_removals_perm exampleNfa (by decide) (by decide),
    by decide +kernel, by decide +kernel⟩

end Automaton
end FiniteAutomata
