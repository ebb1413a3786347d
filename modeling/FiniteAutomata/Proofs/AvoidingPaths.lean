import FiniteAutomata.Proofs.CascadingRemovals
import FiniteAutomata.Proofs.Paths

/-!
Runs after a removal. The paths that are left are those of the automaton before that take no removed
transition. So after the removal of a state a word ends where it could end before by a path that
avoids the state; and after the removal of a symbol the words with the symbol are rejected, while on
all others nothing has changed.
-/
namespace FiniteAutomata

theorem mem_spelled {path : List (Transition Q S)} {s : S} :
    s ∈ spelled path ↔ ∃ t ∈ path, t.condition.label? = some s := List.mem_filterMap

def visited (p : Q) (path : List (Transition Q S)) : List Q := p :: path.map Transition.destination

theorem not_mem_visited_cons {p q : Q} {t : Transition Q S} {path : List (Transition Q S)} :
    q ∉ visited p (t :: path) ↔ p ≠ q ∧ q ∉ visited t.destination path := by
  simp [visited, eq_comm]

namespace Automaton
variable {kind : Kind} [Ordered Q] [Ordered S] {a b : Automaton kind Q S} {p q r : Q} {s : S}
  {path : List (Transition Q S)} {word : List S}

theorem path_iff_of_kept {keep : Transition Q S → Prop}
    (left : ∀ t, t ∈ b.transitions ↔ t ∈ a.transitions ∧ keep t) :
    b.Path p path r ↔ a.Path p path r ∧ ∀ t ∈ path, keep t := by
  constructor
  · intro leads
    induction leads with
    | nil q => exact ⟨.nil q, nofun⟩
    | labeled listed _ ih =>
      obtain ⟨before, kept⟩ := (left _).mp listed
      exact ⟨.labeled before ih.1, List.forall_mem_cons.mpr ⟨kept, ih.2⟩⟩
    | spontaneous listed _ ih =>
      obtain ⟨before, kept⟩ := (left _).mp listed
      exact ⟨.spontaneous before ih.1, List.forall_mem_cons.mpr ⟨kept, ih.2⟩⟩
  · intro given
    obtain ⟨leads, all_kept⟩ := given
    induction leads with
    | nil q => exact .nil q
    | labeled listed _ ih =>
      obtain ⟨kept, later⟩ := List.forall_mem_cons.mp all_kept
      exact .labeled ((left _).mpr ⟨listed, kept⟩) (ih later)
    | spontaneous listed _ ih =>
      obtain ⟨kept, later⟩ := List.forall_mem_cons.mp all_kept
      exact .spontaneous ((left _).mpr ⟨listed, kept⟩) (ih later)

theorem Path.not_mem_visited_iff (leads : a.Path p path r) : q ∉ visited p path ↔
    p ≠ q ∧ ∀ t ∈ path, t.condition.state ≠ q ∧ t.destination ≠ q := by
  induction leads with
  | nil p => simp [visited, eq_comm]
  | labeled _ _ ih | spontaneous _ _ ih =>
    rw [not_mem_visited_cons, ih, List.forall_mem_cons]
    constructor
    · intro avoids
      obtain ⟨source, destination, later⟩ := avoids
      exact ⟨source, ⟨source, destination⟩, later⟩
    · intro avoids
      obtain ⟨source, ⟨_, destination⟩, later⟩ := avoids
      exact ⟨source, destination, later⟩

theorem path_removeState_iff (differs : p ≠ q) :
    (a.removeState q).automaton.Path p path r ↔ a.Path p path r ∧ q ∉ visited p path := by
  have left : ∀ t, t ∈ (a.removeState q).automaton.transitions ↔
      t ∈ a.transitions ∧ (t.condition.state ≠ q ∧ t.destination ≠ q) := by
    intro t
    rw [transitions_removeState, List.mem_filter, decide_eq_true_eq]
  rw [path_iff_of_kept left]
  refine and_congr_right fun leads => ?_
  rw [leads.not_mem_visited_iff]
  exact (and_iff_right differs).symm

theorem path_removeInput_iff :
    (a.removeInput s).automaton.Path p path r ↔ a.Path p path r ∧ s ∉ spelled path := by
  have left : ∀ t, t ∈ (a.removeInput s).automaton.transitions ↔
      t ∈ a.transitions ∧ t.condition.label? ≠ some s := by
    intro t
    rw [transitions_removeInput, List.mem_filter, decide_eq_true_eq]
  rw [path_iff_of_kept left, mem_spelled]
  push Not
  exact .rfl

/-- Where paths lead without a removed state: the initial state held then is not that state, and the
paths from there are those that do not visit it. -/
theorem reached_removeState_iff (consistent : (a.removeState q).automaton.Consistent)
    (through : List (Transition Q S) → Prop) :
    (∃ q₀ path, (a.removeState q).automaton.initial = some q₀ ∧
        (a.removeState q).automaton.Path q₀ path r ∧ through path) ↔
      ∃ q₀ path, (a.removeState q).automaton.initial = some q₀ ∧ a.Path q₀ path r ∧
        q ∉ visited q₀ path ∧ through path := by
  refine exists_congr fun q₀ => exists_congr fun path => and_congr_right fun initial => ?_
  have declared := consistent.initial_declared q₀ initial
  rw [removeState_automaton, SortedSet.mem_erase] at declared
  rw [path_removeState_iff declared.2, and_assoc]

theorem reached_removeInput_iff (through : List (Transition Q S) → Prop)
    (spells : ∀ path, through path → spelled path = word) :
    (∃ q₀ path, (a.removeInput s).automaton.initial = some q₀ ∧
        (a.removeInput s).automaton.Path q₀ path r ∧ through path) ↔
      s ∉ word ∧ ∃ q₀ path, a.initial = some q₀ ∧ a.Path q₀ path r ∧ through path := by
  have initial : (a.removeInput s).automaton.initial = a.initial := by rw [removeInput_automaton]
  rw [initial]
  constructor
  · intro reached
    obtain ⟨q₀, path, begins, leads, given⟩ := reached
    obtain ⟨before, unread⟩ := path_removeInput_iff.mp leads
    rw [spells path given] at unread
    exact ⟨unread, q₀, path, begins, before, given⟩
  · intro reached
    obtain ⟨unread, q₀, path, begins, leads, given⟩ := reached
    rw [← spells path given] at unread
    exact ⟨q₀, path, begins, path_removeInput_iff.mpr ⟨leads, unread⟩, given⟩

theorem mem_frontier_removeInput (valid : a.WellFormed) :
    q ∈ (a.removeInput s).automaton.frontier word ↔ s ∉ word ∧ q ∈ a.frontier word := by
  rw [mem_frontier_iff_path (valid.removeInput s).toConsistent,
    mem_frontier_iff_path valid.toConsistent]
  exact reached_removeInput_iff _ fun path given => given.2

theorem mem_closedFrontier_removeInput (valid : a.WellFormed) :
    q ∈ (a.removeInput s).automaton.closedFrontier word ↔
      s ∉ word ∧ q ∈ a.closedFrontier word := by
  rw [mem_closedFrontier_iff_path (valid.removeInput s).toConsistent,
    mem_closedFrontier_iff_path valid.toConsistent]
  exact reached_removeInput_iff _ fun path given => given

/-- Without a state, declared or not, a word ends in those of the other final states to which paths
lead that avoid the state, from the initial state that is held then. -/
theorem evaluate_removeState_iff (built : a.Built) (q : Q) (word : List S) (r : Q) :
    let b := a.after (.removeState q)
    a.InitialWithout q b.initial ∧
      (r ∈ b.evaluate word ↔ (r ∈ a.finals ∧ r ≠ q) ∧ ∃ q₀ path, b.initial = some q₀ ∧
        a.Path q₀ path r ∧ q ∉ visited q₀ path ∧
        (∀ t ∈ path, t.condition.isSpontaneous = false) ∧ spelled path = word) ∧
      (r ∈ b.evaluateClosed word ↔ (r ∈ a.finals ∧ r ≠ q) ∧ ∃ q₀ path, b.initial = some q₀ ∧
        a.Path q₀ path r ∧ q ∉ visited q₀ path ∧ spelled path = word) := by
  intro b
  have consistent : b.Consistent := (built.wellFormed.removeState q).toConsistent
  have final : r ∈ b.finals ↔ r ∈ a.finals ∧ r ≠ q := (a.withoutState_removeState q).finals r
  refine ⟨initialWithout_removeState a q, ?_, ?_⟩
  · rw [mem_evaluate, and_comm, final, mem_frontier_iff_path consistent]
    exact and_congr_right fun _ => reached_removeState_iff consistent _
  · rw [mem_evaluateClosed, and_comm, final, mem_closedFrontier_iff_path consistent]
    exact and_congr_right fun _ => reached_removeState_iff consistent _

open Demonstration in
/-- Without its initial state the example begins in 1, so it accepts a word that it rejected before,
by a path that was there. -/
theorem exampleNfa_without_zero :
    exampleNfa.Built ∧ 3 ∉ exampleNfa.evaluate ['u', 't'] ∧
      3 ∈ (exampleNfa.after (.removeState 0)).evaluate ['u', 't'] ∧
      ∃ path, exampleNfa.Path 1 path 3 ∧ 0 ∉ visited 1 path ∧ spelled path = ['u', 't'] := by
  have ends : 3 ∈ (exampleNfa.after (.removeState 0)).evaluate ['u', 't'] := by decide +kernel
  have initial : (exampleNfa.after (.removeState 0)).initial = some 1 := by decide +kernel
  obtain ⟨_, evaluated, _⟩ := evaluate_removeState_iff exampleNfa_built 0 ['u', 't'] 3
  obtain ⟨_, q₀, path, begins, leads, avoids, _, spells⟩ := evaluated.mp ends
  rw [initial] at begins
  cases begins
  exact ⟨exampleNfa_built, by decide +kernel, ends, path, leads, avoids, spells⟩

/-- Without a symbol, declared or not, the words that have it are rejected, and all others end where
they ended before. -/
theorem evaluate_removeInput (built : a.Built) (s : S) (word : List S) :
    let b := a.after (.removeInput s)
    b.evaluate word = (if s ∈ word then ∅ else a.evaluate word) ∧
      b.evaluateClosed word = (if s ∈ word then ∅ else a.evaluateClosed word) := by
  intro b
  have valid := built.wellFormed
  have finals : b.finals = a.finals := (a.withoutInput_removeInput s).finals
  constructor
  · apply SortedSet.ext
    intro q
    have member : q ∈ b.frontier word ↔ s ∉ word ∧ q ∈ a.frontier word :=
      mem_frontier_removeInput valid
    rw [mem_evaluate, finals, member, and_assoc, ← mem_evaluate]
    split <;> simp [*]
  · apply SortedSet.ext
    intro q
    have member : q ∈ b.closedFrontier word ↔ s ∉ word ∧ q ∈ a.closedFrontier word :=
      mem_closedFrontier_removeInput valid
    rw [mem_evaluateClosed, finals, member, and_assoc, ← mem_evaluateClosed]
    split <;> simp [*]

open Demonstration in
theorem exampleNfa_without_m :
    exampleNfa.Built ∧ exampleNfa.evaluate exampleWord = {3} ∧
      (exampleNfa.after (.removeInput 'm')).evaluate exampleWord = ∅ ∧
      (exampleNfa.after (.removeInput 'm')).evaluate ['a', 'u', 't'] = {3} ∧
      (exampleNfa.after (.removeInput 'm')).evaluateClosed [] = {3} := by
  have with_m := evaluate_removeInput exampleNfa_built 'm' exampleWord
  have without_m := evaluate_removeInput exampleNfa_built 'm' ['a', 'u', 't']
  have silent := evaluate_removeInput exampleNfa_built 'm' []
  refine ⟨exampleNfa_built, by decide +kernel, ?_, ?_, ?_⟩
  · rw [with_m.1]
    exact if_pos (by decide)
  · rw [without_m.1, if_neg (by decide)]
    decide +kernel
  · rw [silent.2, if_neg (by decide)]
    decide +kernel

end Automaton
end FiniteAutomata
