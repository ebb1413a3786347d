import FiniteAutomata.Proofs.Simulation

/-!
What additions do to the language. Each of them leaves an automaton that has all it had before and
that begins where it began. Whatever can be reached on a word can then be reached on it still, so the
frontiers grow with the automaton, and with them the labels in which the runs of the DFA end.
-/
namespace FiniteAutomata

def Edit.isAddition : Edit Q S → Bool
  | .addState _ | .addInput _ | .addTransition .. | .addFinal _ => true
  | .removeState _ | .removeInput _ | .removeTransition .. | .setInitial _ | .removeFinal _ => false

namespace Automaton
variable {kind : Kind} [Ordered Q] [Ordered S] {a b c : Automaton kind Q S} {l m : SortedSet Q}
  {edits : List (Edit Q S)} {e : Edit Q S} {q : Q}

/-- All of `a` is in `b`, and the two begin in the same state. -/
structure GrowsTo (a b : Automaton kind Q S) : Prop where
  states : a.states ⊆ b.states
  inputs : a.inputs ⊆ b.inputs
  transitions : a.transitions ⊆ b.transitions
  initial : b.initial = a.initial
  finals : a.finals ⊆ b.finals

theorem GrowsTo.refl (a : Automaton kind Q S) : a.GrowsTo a :=
  ⟨fun _ h => h, fun _ h => h, fun _ h => h, rfl, fun _ h => h⟩

theorem GrowsTo.trans (first : a.GrowsTo b) (second : b.GrowsTo c) : a.GrowsTo c where
  states := fun q declared => second.states q (first.states q declared)
  inputs := fun s declared => second.inputs s (first.inputs s declared)
  transitions := List.Subset.trans first.transitions second.transitions
  initial := second.initial.trans first.initial
  finals := fun q final => second.finals q (first.finals q final)

theorem growsTo_addState (a : Automaton kind Q S) (q : Q) : a.GrowsTo (a.addState q).automaton :=
  { GrowsTo.refl a with states := fun _ h => SortedSet.mem_insert.mpr (.inr h) }

theorem growsTo_addInput (a : Automaton kind Q S) (s : S) : a.GrowsTo (a.addInput s).automaton :=
  { GrowsTo.refl a with inputs := fun _ h => SortedSet.mem_insert.mpr (.inr h) }

theorem growsTo_addTransition (a : Automaton kind Q S) (d : Condition Q S) (q : Q) :
    a.GrowsTo (a.addTransition d q).automaton := by
  rcases a.addTransition_cases d q with ⟨_, same⟩ | same | ⟨_, _, added⟩
  · rw [same]
    exact .refl a
  · rw [same]
    exact .refl a
  · rw [added]
    exact { GrowsTo.refl a with transitions := fun _ h => Table.mem_transitions_add.mpr (.inl h) }

theorem growsTo_addFinal (a : Automaton kind Q S) (q : Q) : a.GrowsTo (a.addFinal q).automaton := by
  unfold addFinal
  split
  · exact { GrowsTo.refl a with finals := fun _ h => SortedSet.mem_insert.mpr (.inr h) }
  · exact .refl a

theorem growsTo_after (a : Automaton kind Q S) (addition : e.isAddition = true) :
    a.GrowsTo (a.after e) := by
  cases e with
  | addState q => exact growsTo_addState a q
  | addInput s => exact growsTo_addInput a s
  | addTransition d q => exact growsTo_addTransition a d q
  | addFinal q => exact growsTo_addFinal a q
  | _ => cases addition

theorem growsTo_afterAll (a : Automaton kind Q S) (additions : ∀ e ∈ edits, e.isAddition = true) :
    a.GrowsTo (a.afterAll edits) := by
  induction edits generalizing a with
  | nil => exact .refl a
  | cons e rest ih =>
    obtain ⟨first, others⟩ := List.forall_mem_cons.mp additions
    exact (growsTo_after a first).trans (ih (a.after e) others)

theorem GrowsTo.start (grows : a.GrowsTo b) : a.start ⊆ b.start := by
  intro q begins
  exact mem_start.mpr (grows.initial.trans (mem_start.mp begins))

theorem GrowsTo.advance (grows : a.GrowsTo b) (more : l ⊆ m) (s : S) :
    a.advance l s ⊆ b.advance m s := by
  intro q reached
  obtain ⟨declared, p, inside, listed⟩ := mem_advance.mp reached
  exact mem_advance.mpr ⟨grows.states q declared, p, more p inside, grows.transitions listed⟩

theorem GrowsTo.close (grows : a.GrowsTo b) (more : l ⊆ m) : a.close l ⊆ b.close m := by
  intro q reached
  obtain ⟨declared, p, inside, drifts⟩ := mem_close.mp reached
  exact mem_close.mpr
    ⟨grows.states q declared, p, more p inside, drifts.mono grows.transitions⟩

theorem GrowsTo.frontier (grows : a.GrowsTo b) (word : List S) :
    a.frontier word ⊆ b.frontier word := by
  induction word using List.reverseRecOn with
  | nil => exact grows.start
  | append_singleton word s ih =>
    rw [frontier_append, frontier_append]
    exact grows.advance ih s

theorem GrowsTo.closedFrontier (grows : a.GrowsTo b) (word : List S) :
    a.closedFrontier word ⊆ b.closedFrontier word := by
  induction word using List.reverseRecOn with
  | nil => exact grows.close grows.start
  | append_singleton word s ih =>
    rw [closedFrontier_append, closedFrontier_append]
    exact grows.close (grows.advance ih s)

theorem GrowsTo.evaluate (grows : a.GrowsTo b) (word : List S) :
    a.evaluate word ⊆ b.evaluate word := by
  intro q ends
  obtain ⟨reached, final⟩ := mem_evaluate.mp ends
  exact mem_evaluate.mpr ⟨grows.frontier word q reached, grows.finals q final⟩

theorem GrowsTo.evaluateClosed (grows : a.GrowsTo b) (word : List S) :
    a.evaluateClosed word ⊆ b.evaluateClosed word := by
  intro q ends
  obtain ⟨reached, final⟩ := mem_evaluateClosed.mp ends
  exact mem_evaluateClosed.mpr ⟨grows.closedFrontier word q reached, grows.finals q final⟩

/-- The DFAs need not share a state, but where the first can follow a word the second can too, into a
label that holds as much. -/
theorem GrowsTo.stateAfter?_determinize (grows : a.GrowsTo b) (before : a.Consistent)
    (later : b.Consistent) {word : List S} (reached : a.determinize.stateAfter? word = some l) :
    ∃ m, b.determinize.stateAfter? word = some m ∧ l ⊆ m := by
  have more := grows.closedFrontier word
  rw [Automaton.stateAfter?_determinize before] at reached
  split at reached
  · cases reached
  · rename_i full
    cases reached
    obtain ⟨q, inside⟩ := SortedSet.ne_empty_iff.mp full
    have still : b.closedFrontier word ≠ ∅ := SortedSet.ne_empty_iff.mpr ⟨q, more q inside⟩
    exact ⟨_, (Automaton.stateAfter?_determinize later word).trans (if_neg still), more⟩

/-- Additions, also those that come to nothing, never take an end of a word away, and the DFA reaches
on it a label that holds the former one. -/
theorem evaluate_mono_of_additions {n : Automaton kind Q S} (built : n.Built)
    (additions : ∀ e ∈ edits, e.isAddition = true) (word : List S) :
    let b := n.afterAll edits
    n.evaluate word ⊆ b.evaluate word ∧ n.evaluateClosed word ⊆ b.evaluateClosed word ∧
      ∀ l, n.determinize.stateAfter? word = some l →
        ∃ m, b.determinize.stateAfter? word = some m ∧ l ⊆ m := by
  intro b
  have grows : n.GrowsTo b := growsTo_afterAll n additions
  have later : b.Built := built.afterAll edits
  refine ⟨grows.evaluate word, grows.evaluateClosed word, ?_⟩
  intro l reached
  exact grows.stateAfter?_determinize built.wellFormed.toConsistent later.wellFormed.toConsistent
    reached

open Demonstration in
theorem exampleNfa_grown :
    let additions : List (Edit Nat Char) :=
      [.addState 4, .addInput 'x', .addTransition (.labeled 3 'x') 5, .addFinal 5,
       .addTransition (.labeled 0 'a') 2, .addTransition (.labeled 0 'a') 0,
       .addTransition (.spontaneous 3) 4, .addFinal 4]
    let grown := exampleNfa.afterAll additions
    exampleNfa.Built ∧ (∀ e ∈ additions, e.isAddition = true) ∧
      exampleNfa.evaluateClosed exampleWord = {3} ∧
      grown.evaluateClosed exampleWord = .ofList [3, 4] ∧
      (∀ l ∈ exampleNfa.determinize.states, l ∈ grown.determinize.states → l = {2}) ∧
      (∃ m, grown.determinize.stateAfter? exampleWord = some m ∧ {3} ⊆ m) := by
  intro additions grown
  have allowed : ∀ e ∈ additions, e.isAddition = true := by decide
  have reached : exampleNfa.determinize.stateAfter? exampleWord = some {3} := by decide +kernel
  obtain ⟨_, _, later⟩ := evaluate_mono_of_additions exampleNfa_built allowed exampleWord
  exact ⟨exampleNfa_built, allowed, by decide +kernel, by decide +kernel, by decide +kernel,
    later {3} reached⟩

end Automaton
end FiniteAutomata
