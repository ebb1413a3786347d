import FiniteAutomata.Proofs.Paths
import FiniteAutomata.Proofs.Simulation

/-!
Automata in which no condition has two destinations. After any word they are in one state at most, so
the sets that a DFA is evaluated with come to the single states of its run. To convert such an NFA,
if it has no spontaneous transitions, copies its reachable part: every label holds one state.
-/
namespace FiniteAutomata.Automaton
variable {kind : Kind} [Ordered Q] [Ordered S] {a n : Automaton kind Q S} {d : DFA Q S} {p q : Q}
  {s : S} {word : List S} {l : SortedSet Q}

theorem size_frontier_le_one (single : a.table.Deterministic) (word : List S) :
    (a.frontier word).size ≤ 1 := by
  rw [SortedSet.size_le_one_iff]
  induction word using List.reverseRecOn with
  | nil =>
    intro p first q second
    have initial := mem_start.mp first
    rw [mem_start.mp second] at initial
    exact (Option.some.inj initial).symm
  | append_singleton word s ih =>
    intro p first q second
    rw [frontier_append] at first second
    obtain ⟨_, before, reached, listed⟩ := mem_advance.mp first
    obtain ⟨_, other, also, listed'⟩ := mem_advance.mp second
    -- there was one state before the last symbol, and it has one destination
    rw [ih other also before reached] at listed'
    exact Table.deterministic_iff.mp single _ p q listed listed'

theorem size_evaluate_le_one (single : a.table.Deterministic) (word : List S) :
    (a.evaluate word).size ≤ 1 := by
  rw [SortedSet.size_le_one_iff]
  intro p first q second
  exact SortedSet.size_le_one_iff.mp (size_frontier_le_one single word)
    p (mem_evaluate.mp first).1 q (mem_evaluate.mp second).1

structure FollowsOneRun (d : DFA Q S) (word : List S) : Prop where
  ends : ∀ q, d.stateAfter? word = some q ∧ q ∈ d.finals ↔ d.evaluate word = {q}
  otherwise : (¬ ∃ q, d.stateAfter? word = some q ∧ q ∈ d.finals) ↔ d.evaluate word = ∅
  at_most_one : (d.evaluate word).size ≤ 1

/-- A lookup takes the first destination only, and evaluation all of them: in a DFA that was built,
whatever was tried on it, they are the same. -/
theorem evaluate_followsOneRun (built : d.Built) (word : List S) : d.FollowsOneRun word := by
  have valid := built.wellFormed
  have small := size_evaluate_le_one (valid.deterministic rfl) word
  refine ⟨?_, ?_, small⟩
  · intro q
    rw [SortedSet.eq_singleton_iff small, mem_evaluate_iff_stateAfter? valid]
  · rw [SortedSet.eq_empty_iff, not_exists]
    exact forall_congr' fun q => not_congr (mem_evaluate_iff_stateAfter? valid).symm

open Demonstration in
theorem exampleNfa_determinize_followed :
    let d := exampleNfa.determinize.afterAll
      [.removeTransition (.labeled {2} 't') {3}, .addTransition (.labeled {2} 't') {2}]
    d.Built ∧ d.stateAfter? ['a', 'u', 't', 'n'] = some {3} ∧
      d.evaluate ['a', 'u', 't', 'n'] = {{3}} ∧
      d.stateAfter? ['a', 'u', 't'] = some {2} ∧ d.evaluate ['a', 'u', 't'] = ∅ := by
  intro d
  have built : d.Built := (Built.determinize (by decide) exampleNfa_built).afterAll _
  have ends : d.stateAfter? ['a', 'u', 't', 'n'] = some {3} := by decide +kernel
  have stays : d.stateAfter? ['a', 'u', 't'] = some {2} := by decide +kernel
  refine ⟨built, ends, ?_, stays, ?_⟩
  · exact ((evaluate_followsOneRun built _).ends {3}).mp ⟨ends, by decide +kernel⟩
  · apply (evaluate_followsOneRun built _).otherwise.mp
    rw [stays]
    simp only [Option.some.injEq, exists_eq_left']
    decide +kernel

def ReadsTo (n : Automaton kind Q S) (q : Q) : Prop :=
  ∃ q₀ path, n.initial = some q₀ ∧ n.Path q₀ path q ∧
    ∀ t ∈ path, t.condition.isSpontaneous = false

theorem readsTo_iff (consistent : n.Consistent) : n.ReadsTo q ↔ ∃ word, q ∈ n.frontier word := by
  constructor
  · intro reached
    obtain ⟨q₀, path, initial, leads, read⟩ := reached
    exact ⟨spelled path, (mem_frontier_iff_path consistent).mpr
      ⟨q₀, path, initial, leads, read, rfl⟩⟩
  · intro reached
    obtain ⟨word, member⟩ := reached
    obtain ⟨q₀, path, initial, leads, read, _⟩ := (mem_frontier_iff_path consistent).mp member
    exact ⟨q₀, path, initial, leads, read⟩

section
variable (still : ∀ t ∈ n.transitions, t.condition.isSpontaneous = false)
  (single : n.table.Deterministic)
include still single

theorem target_eq_singleton_iff : n.target {p} s = {q} ↔ ⟨.labeled p s, q⟩ ∈ n.transitions := by
  have small : (n.target {p} s).size ≤ 1 := by
    rw [SortedSet.size_le_one_iff]
    intro r first r' second
    exact Table.deterministic_iff.mp single _ r r' ((mem_target_singleton still).mp first)
      ((mem_target_singleton still).mp second)
  rw [SortedSet.eq_singleton_iff small, mem_target_singleton still]

variable (consistent : n.Consistent)
include consistent

theorem closedFrontier_eq_singleton_iff : n.closedFrontier word = {q} ↔ q ∈ n.frontier word := by
  rw [closedFrontier_eq_frontier consistent still,
    SortedSet.eq_singleton_iff (size_frontier_le_one single word)]

theorem mem_states_determinize_iff_readsTo :
    l ∈ n.determinize.states ↔ ∃ q, n.ReadsTo q ∧ l = {q} := by
  rw [mem_states_determinize, mem_labels consistent]
  constructor
  · intro arises
    obtain ⟨word, _, rfl⟩ := arises.closedFrontier consistent
    obtain ⟨q, member⟩ := SortedSet.ne_empty_iff.mp arises.ne_empty
    rw [closedFrontier_eq_frontier consistent still] at member
    exact ⟨q, (readsTo_iff consistent).mpr ⟨word, member⟩,
      (closedFrontier_eq_singleton_iff still single consistent).mpr member⟩
  · intro reached
    obtain ⟨q, reads, rfl⟩ := reached
    obtain ⟨word, member⟩ := (readsTo_iff consistent).mp reads
    have ends := (closedFrontier_eq_singleton_iff still single consistent).mpr member
    rw [← ends]
    apply label_closedFrontier consistent
    rw [ends]
    exact SortedSet.singleton_ne_empty q

theorem mem_transitions_determinize_singleton :
    ⟨.labeled {p} s, {q}⟩ ∈ n.determinize.transitions ↔
      n.ReadsTo p ∧ ⟨.labeled p s, q⟩ ∈ n.transitions := by
  rw [mem_transitions_determinize consistent,
    mem_states_determinize_iff_readsTo still single consistent,
    ← target_eq_singleton_iff still single]
  constructor
  · intro listed
    obtain ⟨⟨r, reads, same⟩, _, leads⟩ := listed
    exact ⟨SortedSet.singleton_inj.mp same ▸ reads, leads.symm⟩
  · intro leads
    obtain ⟨reads, target⟩ := leads
    have full : n.target {p} s ≠ ∅ := by
      rw [target]
      exact SortedSet.singleton_ne_empty q
    exact ⟨⟨p, reads, rfl⟩, target_ne_empty_iff.mp full, target.symm⟩

theorem evaluate_determinize_eq_singleton_iff :
    n.determinize.evaluate word = {{q}} ↔ n.evaluate word = {q} := by
  have small := size_evaluate_le_one ((wellFormed_determinize consistent).deterministic rfl) word
  rw [SortedSet.eq_singleton_iff small, mem_evaluate_determinize consistent, eq_comm,
    closedFrontier_eq_singleton_iff still single consistent,
    evaluateClosed_eq_evaluate consistent still, SortedSet.ne_empty_iff,
    SortedSet.eq_singleton_iff (size_evaluate_le_one single word)]
  constructor
  · intro ends
    obtain ⟨member, r, final⟩ := ends
    have same := SortedSet.size_le_one_iff.mp (size_frontier_le_one single word)
      r (mem_evaluate.mp final).1 q member
    exact same ▸ final
  · intro final
    exact ⟨(mem_evaluate.mp final).1, q, final⟩

end

/-- `d` is the part of `n` that reading reaches, every state in a set of its own. -/
structure ReachedPart (n : Automaton kind Q S) (d : DFA (SortedSet Q) S) : Prop where
  states : ∀ l, l ∈ d.states ↔ ∃ q, n.ReadsTo q ∧ l = {q}
  inputs : d.inputs = n.inputs
  initial : d.initial = n.initial.map fun q => {q}
  finals : ∀ l, l ∈ d.finals ↔ ∃ q, (q ∈ n.finals ∧ n.ReadsTo q) ∧ l = {q}
  transitions : ∀ p s q, ⟨.labeled {p} s, {q}⟩ ∈ d.transitions ↔
    n.ReadsTo p ∧ ⟨.labeled p s, q⟩ ∈ n.transitions
  no_others : ∀ t ∈ d.transitions, ∃ p s q, t = ⟨.labeled {p} s, {q}⟩
  evaluate : ∀ word q, d.evaluate word = {{q}} ↔ n.evaluate word = {q}

/-- To convert an automaton that is deterministic as it stands leaves out what is not reached, and
changes nothing else. -/
theorem determinize_reachedPart (built : n.Built)
    (still : ∀ t ∈ n.transitions, t.condition.isSpontaneous = false)
    (single : n.table.Deterministic) : n.ReachedPart n.determinize := by
  have consistent := built.wellFormed.toConsistent
  have states : ∀ l, l ∈ n.determinize.states ↔ ∃ q, n.ReadsTo q ∧ l = {q} := by
    intro l
    exact mem_states_determinize_iff_readsTo still single consistent
  refine ⟨states, inputs_determinize consistent, ?_, ?_, ?_, ?_, ?_⟩
  · rw [initial_determinize consistent, firstLabel?_eq_singleton still]
  · intro l
    rw [mem_finals_determinize, states]
    constructor
    · intro final
      obtain ⟨⟨q, reads, rfl⟩, r, member, also⟩ := final
      exact ⟨q, ⟨SortedSet.mem_singleton.mp member ▸ also, reads⟩, rfl⟩
    · intro final
      obtain ⟨q, ⟨also, reads⟩, rfl⟩ := final
      exact ⟨⟨q, reads, rfl⟩, q, SortedSet.mem_singleton_self q, also⟩
  · intro p s q
    exact mem_transitions_determinize_singleton still single consistent
  · intro t listed
    obtain ⟨source, _, destination⟩ :=
      (wellFormed_determinize consistent).transitions_declared t listed
    obtain ⟨l, _, s, _, rfl⟩ := (mem_transitions_determinize_iff consistent).mp listed
    obtain ⟨p, _, from_one⟩ := (states _).mp source
    obtain ⟨q, _, to_one⟩ := (states _).mp destination
    exact ⟨p, s, q, by rw [← from_one, ← to_one]; rfl⟩
  · intro word q
    exact evaluate_determinize_eq_singleton_iff still single consistent

open Demonstration in
theorem exampleNfa_reachedPart :
    let n := exampleNfa.afterAll
      [.removeTransition (.labeled 0 'a') 1, .removeTransition (.spontaneous 0) 3]
    n.Built ∧ n.table.Deterministic ∧ n.ReachedPart n.determinize ∧
      n.determinize.states.toList = [{0}, {2}, {3}] ∧ 1 ∈ n.states ∧ ¬ n.ReadsTo 1 := by
  intro n
  have built : n.Built := exampleNfa_built.afterAll _
  have single : n.table.Deterministic := by decide +kernel
  have copied := determinize_reachedPart built (by decide +kernel) single
  have listed : n.determinize.states.toList = [{0}, {2}, {3}] := by decide +kernel
  refine ⟨built, single, copied, listed, by decide +kernel, ?_⟩
  intro reads
  have found : {1} ∈ n.determinize.states := (copied.states {1}).mpr ⟨1, reads, rfl⟩
  rw [SortedSet.mem_def, listed] at found
  revert found
  decide

end FiniteAutomata.Automaton
