import FiniteAutomata.Proofs.BuiltAutomata

/-!
Conversion and the order of transitions. Which labels arise and where they lead is told by
membership among the transitions, so of two automata that differ only in the order in which their
transitions came in, the conversions differ only in the order of theirs.
-/
namespace FiniteAutomata.Automaton
variable {kind other : Kind} [Ordered Q] [Ordered S] {m : Automaton kind Q S}
  {n : Automaton other Q S} {l : SortedSet Q} {s : S}

/-- The two automata have the same parts, their transitions perhaps in another order. -/
structure Reordered (m : Automaton kind Q S) (n : Automaton other Q S) : Prop where
  states : m.states = n.states
  inputs : m.inputs = n.inputs
  initial : m.initial = n.initial
  finals : m.finals = n.finals
  transitions : ∀ t, t ∈ m.transitions ↔ t ∈ n.transitions

theorem Reordered.symm (same : m.Reordered n) : n.Reordered m :=
  ⟨same.states.symm, same.inputs.symm, same.initial.symm, same.finals.symm,
    fun t => (same.transitions t).symm⟩

theorem Reordered.drifts (same : m.Reordered n) : m.Drifts = n.Drifts := by
  unfold Drifts
  simp only [same.transitions]

theorem Reordered.closure (same : m.Reordered n) (states : List Q) :
    m.moves.closure states = n.moves.closure states :=
  spontaneousClosure_congr (fun _ => .rfl) same.transitions

theorem Reordered.firstLabel? (same : m.Reordered n) : m.firstLabel? = n.firstLabel? := by
  unfold Automaton.firstLabel?
  simp only [same.initial, same.closure]

theorem Reordered.mem_outgoing (same : m.Reordered n) : s ∈ m.outgoing l ↔ s ∈ n.outgoing l := by
  rw [Automaton.mem_outgoing, Automaton.mem_outgoing]
  simp only [same.transitions]

theorem Reordered.target (same : m.Reordered n) (l : SortedSet Q) (s : S) :
    m.target l s = n.target l s := by
  apply SortedSet.ext
  intro q
  rw [mem_target, mem_target]
  simp only [same.transitions, same.drifts]

/-- No label is lost: the two constructions may find it in another turn. -/
theorem Reordered.label (same : m.Reordered n) (arises : m.Label l) : n.Label l := by
  induction arises with
  | first begins => exact .first (same.firstLabel? ▸ begins)
  | next _ reads ih =>
    rw [same.target]
    exact .next ih (same.mem_outgoing.mp reads)

theorem Reordered.states_determinize (same : m.Reordered n) (first : m.Consistent)
    (second : n.Consistent) : m.determinize.states = n.determinize.states := by
  apply SortedSet.ext
  intro l
  rw [mem_states_determinize, mem_states_determinize, mem_labels first, mem_labels second]
  exact ⟨same.label, same.symm.label⟩

theorem Reordered.transitions_determinize (same : m.Reordered n) (first : m.Consistent)
    (second : n.Consistent) (t : Transition (SortedSet Q) S) :
    t ∈ m.determinize.transitions ↔ t ∈ n.determinize.transitions := by
  simp only [mem_transitions_determinize_iff first, mem_transitions_determinize_iff second,
    same.states_determinize first second, same.mem_outgoing, same.target]

theorem Reordered.finals_determinize (same : m.Reordered n) (first : m.Consistent)
    (second : n.Consistent) : m.determinize.finals = n.determinize.finals := by
  apply SortedSet.ext
  intro l
  rw [mem_finals_determinize, mem_finals_determinize, same.states_determinize first second,
    same.finals]

theorem Reordered.determinize (same : m.Reordered n) (first : m.Consistent)
    (second : n.Consistent) : m.determinize.Reordered n.determinize where
  states := same.states_determinize first second
  inputs := by rw [inputs_determinize first, inputs_determinize second, same.inputs]
  initial := by rw [initial_determinize first, initial_determinize second, same.firstLabel?]
  finals := same.finals_determinize first second
  transitions := same.transitions_determinize first second

/-- Two automata built in whatever ways with the same transitions have the same conversion, up to
the order of its transitions, and the same limits are enough for both. -/
theorem determinize_reordered (builtM : m.Built) (builtN : n.Built) (same : m.Reordered n) :
    m.determinize.Reordered n.determinize ∧ ∀ limit,
      (∃ d, (m.convertWithin limit).1 = .ok d) ↔ ∃ d, (n.convertWithin limit).1 = .ok d := by
  have converted := same.determinize builtM.wellFormed.toConsistent builtN.wellFormed.toConsistent
  have counted : m.determinize.stateCount = n.determinize.stateCount := by
    rw [stateCount, stateCount, converted.states]
  refine ⟨converted, ?_⟩
  intro limit
  simp only [convertWithin_eq_ok_iff, counted, exists_eq_left]

open Demonstration in
def exampleMoved : EpsilonNFA Nat Char :=
  exampleNfa.afterAll [.removeTransition (.labeled 0 'a') 1, .removeTransition (.labeled 0 'a') 2,
    .addTransition (.labeled 0 'a') 2, .addTransition (.labeled 0 'a') 1]

open Demonstration in
theorem exampleNfa_reordered :
    exampleNfa.Built ∧ exampleMoved.Built ∧ exampleNfa.Reordered exampleMoved ∧
      exampleNfa.determinize.Reordered exampleMoved.determinize ∧
      exampleNfa.determinize.transitions ≠ exampleMoved.determinize.transitions := by
  have built : exampleMoved.Built := exampleNfa_built.afterAll _
  have permuted : exampleNfa.transitions.Perm exampleMoved.transitions := by decide +kernel
  have same : exampleNfa.Reordered exampleMoved :=
    ⟨by decide +kernel, by decide +kernel, by decide +kernel, by decide +kernel,
      fun t => permuted.mem_iff⟩
  exact ⟨exampleNfa_built, built, same, (determinize_reordered exampleNfa_built built same).1,
    by decide +kernel⟩

end FiniteAutomata.Automaton
