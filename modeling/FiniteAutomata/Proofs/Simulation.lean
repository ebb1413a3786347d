import FiniteAutomata.Proofs.ReachableSubsets
import FiniteAutomata.Proofs.ShortWords

/-!
Converting keeps the language. The run of the DFA ends in the closed frontier of the NFA, so the two
accept the same words and no comparison tells them apart.
-/
namespace FiniteAutomata

theorem Recognizer.sameLanguage_of_accepts [Ordered S] {a b : Recognizer S}
    (inputs : a.inputs = b.inputs) (accepts : ∀ word, a.accepts word = b.accepts word)
    (bound : Nat) : a.sameLanguage b bound = true :=
  sameLanguage_iff.mpr ⟨inputs, fun word _ _ => accepts word⟩

namespace Automaton
variable {kind : Kind} [Ordered Q] [Ordered S] {n : Automaton kind Q S}

theorem frontier_determinize (consistent : n.Consistent) (word : List S) :
    n.determinize.frontier word =
      if n.closedFrontier word = ∅ then ∅ else {n.closedFrontier word} := by
  apply SortedSet.ext
  intro l
  rw [mem_frontier_iff (wellFormed_determinize consistent), stateAfter?_determinize consistent]
  split <;> simp [eq_comm]

theorem mem_evaluate_determinize (consistent : n.Consistent) {word : List S} {l : SortedSet Q} :
    l ∈ n.determinize.evaluate word ↔ l = n.closedFrontier word ∧ n.evaluateClosed word ≠ ∅ := by
  have valid := wellFormed_determinize consistent
  rw [mem_evaluate_iff_stateAfter? valid, stateAfter?_determinize consistent,
    mem_finals_determinize]
  constructor
  · intro ends
    obtain ⟨reached, _, q, inside, final⟩ := ends
    split at reached
    · cases reached
    · cases reached
      exact ⟨rfl, SortedSet.ne_empty_iff.mpr ⟨q, mem_evaluateClosed.mpr ⟨inside, final⟩⟩⟩
  · intro accepts
    obtain ⟨rfl, some_end⟩ := accepts
    obtain ⟨q, ends⟩ := SortedSet.ne_empty_iff.mp some_end
    obtain ⟨inside, final⟩ := mem_evaluateClosed.mp ends
    have full : n.closedFrontier word ≠ ∅ := SortedSet.ne_empty_iff.mpr ⟨q, inside⟩
    have reached := stateAfter?_determinize consistent word
    rw [if_neg full] at reached ⊢
    exact ⟨rfl, stateAfter?_declared valid reached, q, inside, final⟩

theorem evaluate_determinize (consistent : n.Consistent) (word : List S) :
    n.determinize.evaluate word =
      if n.evaluateClosed word = ∅ then ∅ else {n.closedFrontier word} := by
  apply SortedSet.ext
  intro l
  rw [mem_evaluate_determinize consistent]
  split <;> simp_all

theorem accepts_determinize (consistent : n.Consistent) (word : List S) :
    n.determinize.accepts word = n.acceptsClosed word := by
  rw [accepts, acceptsClosed, evaluate_determinize consistent]
  split
  · rename_i rejected
    rw [rejected]
    rfl
  · rename_i accepted
    have full : (n.evaluateClosed word).isEmpty = false :=
      Bool.eq_false_iff.mpr fun empty => accepted (SortedSet.isEmpty_iff.mp empty)
    rw [full]
    rfl

theorem acceptsClosed_of_still (consistent : n.Consistent)
    (still : ∀ t ∈ n.transitions, t.condition.isSpontaneous = false) (word : List S) :
    n.acceptsClosed word = n.accepts word := by
  rw [acceptsClosed, evaluateClosed_eq_evaluate consistent still]
  rfl

/-- The DFA of an NFA does on every word what the NFA does with its spontaneous moves. -/
theorem determinize_simulates (built : n.Built) (word : List S) :
    n.determinize.stateAfter? word =
        (if n.closedFrontier word = ∅ then none else some (n.closedFrontier word)) ∧
      n.determinize.frontier word =
        (if n.closedFrontier word = ∅ then ∅ else {n.closedFrontier word}) ∧
      n.determinize.evaluate word =
        (if n.evaluateClosed word = ∅ then ∅ else {n.closedFrontier word}) ∧
      (∀ q, q ∈ n.evaluateClosed word ↔ q ∈ n.closedFrontier word ∧ q ∈ n.finals) ∧
      n.determinize.accepts word = n.acceptsClosed word ∧
      (∀ bound, n.closedRecognizer.sameLanguage n.determinize.recognizer bound = true) ∧
      ((∀ t ∈ n.transitions, t.condition.isSpontaneous = false) →
        n.determinize.accepts word = n.accepts word) := by
  have consistent := built.wellFormed.toConsistent
  have accepts := accepts_determinize consistent
  refine ⟨stateAfter?_determinize consistent word, frontier_determinize consistent word,
    evaluate_determinize consistent word, ?_, accepts word, ?_, ?_⟩
  · intro q
    exact mem_evaluateClosed
  · intro bound
    exact Recognizer.sameLanguage_of_accepts (inputs_determinize consistent).symm
      (fun word => (accepts word).symm) bound
  · intro still
    rw [accepts word, acceptsClosed_of_still consistent still]

open Demonstration in
theorem exampleNfa_simulated :
    exampleNfa.Built ∧ exampleNfa.closedFrontier exampleWord = {3} ∧
      exampleNfa.determinize.stateAfter? exampleWord = some {3} ∧
      exampleNfa.determinize.evaluate exampleWord = {{3}} := by
  have frontier : exampleNfa.closedFrontier exampleWord = {3} := by decide +kernel
  have accepted : exampleNfa.evaluateClosed exampleWord ≠ ∅ := by decide +kernel
  obtain ⟨state, _, evaluated, _⟩ := determinize_simulates exampleNfa_built exampleWord
  rw [frontier] at state evaluated
  rw [if_neg accepted] at evaluated
  exact ⟨exampleNfa_built, frontier, state, evaluated⟩

end Automaton
end FiniteAutomata
