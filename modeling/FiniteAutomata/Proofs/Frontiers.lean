import FiniteAutomata.Automaton.Evaluation
import FiniteAutomata.Proofs.EditInvariants
import FiniteAutomata.Proofs.SpontaneousReach
import Mathlib.Data.List.Induction

/-!
The states an automaton can be in after a word. The early end of reading at an empty frontier
changes nothing, so a frontier is a fold over the word, and one more symbol is one more step. In a
well-formed DFA the frontier is the state of its run, if the run has one.
-/
namespace FiniteAutomata

theorem foldl_advance_empty [Ordered Q] {advance : SortedSet Q → S → SortedSet Q}
    (stuck : ∀ s, advance ∅ s = ∅) (word : List S) : word.foldl advance ∅ = ∅ := by
  induction word with
  | nil => rfl
  | cons s word ih => rw [List.foldl_cons, stuck, ih]

theorem follow_eq_foldl [Ordered Q] {advance : SortedSet Q → S → SortedSet Q}
    (stuck : ∀ s, advance ∅ s = ∅) (frontier : SortedSet Q) (word : List S) :
    follow advance frontier word = word.foldl advance frontier := by
  induction word generalizing frontier with
  | nil => rfl
  | cons s word ih =>
    rw [follow]
    split
    · rename_i empty
      have none := SortedSet.isEmpty_iff.mp empty
      rw [none, foldl_advance_empty stuck]
    · rw [ih, List.foldl_cons]

namespace Automaton
variable {kind : Kind} [Ordered Q] [Ordered S] {a : Automaton kind Q S} {p q r : Q} {s : S}
  {frontier : SortedSet Q} {word : List S}

def Drifts (a : Automaton kind Q S) : Q → Q → Prop :=
  Relation.ReflTransGen fun p q => ⟨.spontaneous p, q⟩ ∈ a.transitions

theorem reaches_moves (a : Automaton kind Q S) : a.moves.Reaches = a.Drifts :=
  reaches_ofTransitions a.transitions

theorem Drifts.declared (consistent : a.Consistent) (drifts : a.Drifts p q) (start : p ∈ a.states) :
    q ∈ a.states := by
  cases drifts with
  | refl => exact start
  | tail _ move => exact (consistent.transitions_declared _ move).2.2

theorem Drifts.mono {b : Automaton kind Q S} (more : a.transitions ⊆ b.transitions)
    (drifts : a.Drifts p q) : b.Drifts p q :=
  Relation.ReflTransGen.mono (fun _ _ move => more move) p q drifts

theorem mem_start : q ∈ a.start ↔ a.initial = some q := by
  simp [start]

theorem mem_advance : q ∈ a.advance frontier s ↔
    q ∈ a.states ∧ ∃ p ∈ frontier, ⟨.labeled p s, q⟩ ∈ a.transitions := by
  have leads : (∃ p ∈ frontier.toList, q ∈ (a.table.successors p s).toList) ↔
      ∃ p ∈ frontier, ⟨.labeled p s, q⟩ ∈ a.transitions :=
    exists_congr fun p => and_congr_right fun _ => Table.mem_successors
  rw [advance, SortedSet.mem_filter, SortedSet.mem_ofList, List.mem_flatMap, decide_eq_true_eq,
    leads]
  exact and_comm

theorem mem_close : q ∈ a.close frontier ↔ q ∈ a.states ∧ ∃ p ∈ frontier, a.Drifts p q := by
  rw [close, SortedSet.mem_filter, SpontaneousMoves.mem_closure, reaches_moves, decide_eq_true_eq,
    and_comm]
  exact .rfl

theorem advance_empty (a : Automaton kind Q S) (s : S) : a.advance ∅ s = ∅ := by
  apply SortedSet.eq_empty_iff.mpr
  intro q h
  obtain ⟨_, p, member, _⟩ := mem_advance.mp h
  exact SortedSet.not_mem_empty member

theorem close_empty (a : Automaton kind Q S) : a.close ∅ = ∅ := by
  apply SortedSet.eq_empty_iff.mpr
  intro q h
  obtain ⟨_, p, member, _⟩ := mem_close.mp h
  exact SortedSet.not_mem_empty member

theorem frontier_eq_foldl (a : Automaton kind Q S) (word : List S) :
    a.frontier word = word.foldl a.advance a.start :=
  follow_eq_foldl a.advance_empty a.start word

theorem closedFrontier_eq_foldl (a : Automaton kind Q S) (word : List S) :
    a.closedFrontier word = word.foldl (fun l s => a.close (a.advance l s)) (a.close a.start) := by
  apply follow_eq_foldl
  intro s
  rw [advance_empty, close_empty]

theorem closedFrontier_nil (a : Automaton kind Q S) : a.closedFrontier [] = a.close a.start := rfl

theorem frontier_append (a : Automaton kind Q S) (word : List S) (s : S) :
    a.frontier (word ++ [s]) = a.advance (a.frontier word) s := by
  rw [frontier_eq_foldl, frontier_eq_foldl, List.foldl_append]
  rfl

theorem closedFrontier_append (a : Automaton kind Q S) (word : List S) (s : S) :
    a.closedFrontier (word ++ [s]) = a.close (a.advance (a.closedFrontier word) s) := by
  rw [closedFrontier_eq_foldl, closedFrontier_eq_foldl, List.foldl_append]
  rfl

theorem closedFrontier_closes (a : Automaton kind Q S) (word : List S) :
    ∃ reached, a.closedFrontier word = a.close reached := by
  cases word using List.reverseRecOn with
  | nil => exact ⟨a.start, a.closedFrontier_nil⟩
  | append_singleton word s => exact ⟨_, a.closedFrontier_append word s⟩

theorem closedFrontier_subset (a : Automaton kind Q S) (word : List S) :
    a.closedFrontier word ⊆ a.states := by
  intro q h
  obtain ⟨reached, closes⟩ := a.closedFrontier_closes word
  rw [closes] at h
  exact (mem_close.mp h).1

theorem mem_evaluate : q ∈ a.evaluate word ↔ q ∈ a.frontier word ∧ q ∈ a.finals := by
  simp [evaluate, accepted]

theorem accepts_iff : a.accepts word = true ↔ ∃ q, q ∈ a.evaluate word := by
  rw [accepts, Bool.not_eq_true', ← SortedSet.ne_empty_iff, ne_eq, ← SortedSet.isEmpty_iff,
    Bool.not_eq_true]

theorem mem_evaluateClosed : q ∈ a.evaluateClosed word ↔
    q ∈ a.closedFrontier word ∧ q ∈ a.finals := by
  simp [evaluateClosed, accepted]

theorem acceptsClosed_iff : a.acceptsClosed word = true ↔ ∃ q, q ∈ a.evaluateClosed word := by
  rw [acceptsClosed, Bool.not_eq_true', ← SortedSet.ne_empty_iff, ne_eq, ← SortedSet.isEmpty_iff,
    Bool.not_eq_true]

theorem drifts_iff_eq (still : ∀ t ∈ a.transitions, t.condition.isSpontaneous = false) :
    a.Drifts p q ↔ p = q := by
  constructor
  · intro drifts
    cases drifts with
    | refl => rfl
    | tail _ move => exact absurd (still _ move) (by simp [Condition.isSpontaneous])
  · rintro rfl
    exact .refl

theorem close_eq_self (still : ∀ t ∈ a.transitions, t.condition.isSpontaneous = false)
    (inside : frontier ⊆ a.states) : a.close frontier = frontier := by
  apply SortedSet.ext
  intro q
  simp only [mem_close, drifts_iff_eq still, exists_eq_right]
  exact and_iff_right_of_imp (inside q)

theorem closedFrontier_eq_frontier (consistent : a.Consistent)
    (still : ∀ t ∈ a.transitions, t.condition.isSpontaneous = false) (word : List S) :
    a.closedFrontier word = a.frontier word := by
  induction word using List.reverseRecOn with
  | nil =>
    apply close_eq_self still
    intro q h
    exact consistent.initial_declared q (mem_start.mp h)
  | append_singleton word s ih =>
    rw [closedFrontier_append, frontier_append, ih]
    apply close_eq_self still
    intro q h
    exact (mem_advance.mp h).1

theorem evaluateClosed_eq_evaluate (consistent : a.Consistent)
    (still : ∀ t ∈ a.transitions, t.condition.isSpontaneous = false) (word : List S) :
    a.evaluateClosed word = a.evaluate word := by
  rw [evaluateClosed, closedFrontier_eq_frontier consistent still]
  rfl

/-- The state in which the run of a DFA on a word ends, if it can be carried through. -/
def stateAfter? (d : DFA Q S) (word : List S) : Option Q :=
  d.initial.bind fun q => word.foldlM d.successor? q

theorem stateAfter?_append (d : DFA Q S) (word : List S) (s : S) :
    d.stateAfter? (word ++ [s]) = (d.stateAfter? word).bind (d.successor? · s) := by
  cases initial : d.initial with
  | none => simp [stateAfter?, initial]
  | some q => simp [stateAfter?, initial, List.foldlM_append]

theorem successor?_eq_min? (d : DFA Q S) (p : Q) (s : S) :
    d.successor? p s = (d.table.successors p s).min? := by
  rw [successor?, Table.successors]
  cases d.table.destinations? (.labeled p s) <;> rfl

theorem successor?_eq_some_iff {d : DFA Q S} (valid : d.WellFormed) :
    d.successor? p s = some q ↔ ⟨.labeled p s, q⟩ ∈ d.transitions := by
  have leads : ∀ r, d.successor? p s = some r → ⟨.labeled p s, r⟩ ∈ d.transitions := by
    intro r found
    rw [successor?_eq_min?] at found
    exact Table.mem_successors.mp (SortedSet.mem_of_min? found)
  constructor
  · exact leads q
  · intro listed
    have single := Table.deterministic_iff.mp (valid.deterministic rfl)
    cases found : d.successor? p s with
    | some r => rw [single _ _ _ (leads r found) listed]
    | none =>
      have member : q ∈ d.table.successors p s := Table.mem_successors.mpr listed
      rw [successor?_eq_min?, SortedSet.min?_eq_none_iff] at found
      rw [found] at member
      exact absurd member SortedSet.not_mem_empty

theorem mem_frontier_iff {d : DFA Q S} (valid : d.WellFormed) :
    q ∈ d.frontier word ↔ d.stateAfter? word = some q := by
  induction word using List.reverseRecOn generalizing q with
  | nil =>
    change q ∈ d.start ↔ _
    rw [mem_start]
    simp [stateAfter?]
  | append_singleton word s ih =>
    rw [frontier_append, mem_advance, stateAfter?_append, Option.bind_eq_some_iff]
    constructor
    · intro advanced
      obtain ⟨_, p, member, listed⟩ := advanced
      exact ⟨p, ih.mp member, (successor?_eq_some_iff valid).mpr listed⟩
    · intro followed
      obtain ⟨p, reached, found⟩ := followed
      have listed := (successor?_eq_some_iff valid).mp found
      exact ⟨(valid.transitions_declared _ listed).2.2, p, ih.mpr reached, listed⟩

theorem mem_evaluate_iff_stateAfter? {d : DFA Q S} (valid : d.WellFormed) :
    q ∈ d.evaluate word ↔ d.stateAfter? word = some q ∧ q ∈ d.finals := by
  rw [mem_evaluate, mem_frontier_iff valid]

theorem stateAfter?_declared {d : DFA Q S} (valid : d.WellFormed)
    (reached : d.stateAfter? word = some q) : q ∈ d.states := by
  cases word using List.reverseRecOn with
  | nil =>
    have initial : d.initial = some q := by simpa [stateAfter?] using reached
    exact valid.initial_declared q initial
  | append_singleton word s =>
    have member := (mem_frontier_iff valid).mpr reached
    rw [frontier_append] at member
    exact (mem_advance.mp member).1

end Automaton
end FiniteAutomata
