import FiniteAutomata.Proofs.BuiltAutomata

/-!
Evaluation against paths. A path is a chain of transitions and spells what its labeled transitions
read. Plain evaluation ends exactly where paths without spontaneous transitions lead, closed
evaluation exactly where any paths lead, however many spontaneous transitions they take in a row.
-/
namespace FiniteAutomata

/-- What is read along a path; spontaneous transitions read nothing. -/
def spelled (path : List (Transition Q S)) : List S := path.filterMap (·.condition.label?)

@[simp] theorem spelled_nil : spelled ([] : List (Transition Q S)) = [] := rfl

@[simp] theorem spelled_labeled (p q : Q) (s : S) (path : List (Transition Q S)) :
    spelled (⟨.labeled p s, q⟩ :: path) = s :: spelled path := rfl

@[simp] theorem spelled_spontaneous (p q : Q) (path : List (Transition Q S)) :
    spelled (⟨.spontaneous p, q⟩ :: path) = spelled path := rfl

@[simp] theorem spelled_append (first second : List (Transition Q S)) :
    spelled (first ++ second) = spelled first ++ spelled second := List.filterMap_append

namespace Automaton
variable {kind : Kind} [Ordered Q] [Ordered S] {a : Automaton kind Q S} {p q r : Q}
  {path first second : List (Transition Q S)} {word : List S}

inductive Path (a : Automaton kind Q S) : Q → List (Transition Q S) → Q → Prop where
  | nil (q : Q) : Path a q [] q
  | labeled {p q r : Q} {s : S} {path : List (Transition Q S)}
      (listed : ⟨.labeled p s, q⟩ ∈ a.transitions) (rest : Path a q path r) :
      Path a p (⟨.labeled p s, q⟩ :: path) r
  | spontaneous {p q r : Q} {path : List (Transition Q S)}
      (listed : ⟨.spontaneous p, q⟩ ∈ a.transitions) (rest : Path a q path r) :
      Path a p (⟨.spontaneous p, q⟩ :: path) r

theorem Path.append (before : a.Path p first q) (after : a.Path q second r) :
    a.Path p (first ++ second) r := by
  induction before with
  | nil q => exact after
  | labeled listed _ ih => exact .labeled listed (ih after)
  | spontaneous listed _ ih => exact .spontaneous listed (ih after)

theorem Path.symbols_declared (consistent : a.Consistent) (leads : a.Path p path q) :
    ∀ s ∈ spelled path, s ∈ a.inputs := by
  induction leads with
  | nil q => nofun
  | @labeled p q r s path listed _ ih =>
    have declared := (consistent.transitions_declared _ listed).2.1 s rfl
    exact List.forall_mem_cons.mpr ⟨declared, ih⟩
  | spontaneous _ _ ih => exact ih

theorem Drifts.silent_path (drifts : a.Drifts p q) :
    ∃ path, a.Path p path q ∧ spelled path = [] := by
  induction drifts with
  | refl => exact ⟨[], .nil p, rfl⟩
  | tail _ move ih =>
    obtain ⟨path, leads, silent⟩ := ih
    exact ⟨_, leads.append (.spontaneous move (.nil _)), by simp [silent]⟩

theorem closedFrontier_drift (consistent : a.Consistent) (member : p ∈ a.closedFrontier word)
    (move : ⟨.spontaneous p, q⟩ ∈ a.transitions) : q ∈ a.closedFrontier word := by
  have declared := (consistent.transitions_declared _ move).2.2
  obtain ⟨reached, closes⟩ := a.closedFrontier_closes word
  rw [closes] at member ⊢
  obtain ⟨_, r, among, drifts⟩ := mem_close.mp member
  exact mem_close.mpr ⟨declared, r, among, drifts.tail move⟩

theorem closedFrontier_read {s : S} (consistent : a.Consistent) (member : p ∈ a.closedFrontier word)
    (move : ⟨.labeled p s, q⟩ ∈ a.transitions) : q ∈ a.closedFrontier (word ++ [s]) := by
  have declared := (consistent.transitions_declared _ move).2.2
  rw [closedFrontier_append]
  exact mem_close.mpr ⟨declared, q, mem_advance.mpr ⟨declared, p, member, move⟩, .refl⟩

theorem Path.closedFrontier (consistent : a.Consistent) (leads : a.Path p path q)
    (member : p ∈ a.closedFrontier word) : q ∈ a.closedFrontier (word ++ spelled path) := by
  induction leads generalizing word with
  | nil q => simpa using member
  | labeled listed _ ih =>
    have later := ih (closedFrontier_read consistent member listed)
    rwa [List.append_assoc] at later
  | spontaneous listed _ ih => exact ih (closedFrontier_drift consistent member listed)

theorem mem_closedFrontier_iff_path (consistent : a.Consistent) : q ∈ a.closedFrontier word ↔
    ∃ q₀ path, a.initial = some q₀ ∧ a.Path q₀ path q ∧ spelled path = word := by
  constructor
  · intro member
    induction word using List.reverseRecOn generalizing q with
    | nil =>
      obtain ⟨_, q₀, start, drifts⟩ := mem_close.mp member
      obtain ⟨path, leads, silent⟩ := drifts.silent_path
      exact ⟨q₀, path, mem_start.mp start, leads, silent⟩
    | append_singleton word s ih =>
      rw [closedFrontier_append] at member
      obtain ⟨_, r, reached, drifts⟩ := mem_close.mp member
      obtain ⟨_, p, before, move⟩ := mem_advance.mp reached
      obtain ⟨q₀, path, initial, leads, spells⟩ := ih before
      obtain ⟨rest, further, silent⟩ := drifts.silent_path
      exact ⟨q₀, path ++ ⟨.labeled p s, r⟩ :: rest, initial, leads.append (.labeled move further),
        by simp [spells, silent]⟩
  · intro reached
    obtain ⟨q₀, path, initial, leads, rfl⟩ := reached
    have declared := consistent.initial_declared q₀ initial
    have start : q₀ ∈ a.closedFrontier [] :=
      mem_close.mpr ⟨declared, q₀, mem_start.mpr initial, .refl⟩
    exact leads.closedFrontier consistent start

theorem Path.frontier (consistent : a.Consistent) (leads : a.Path p path q)
    (read : ∀ t ∈ path, t.condition.isSpontaneous = false) (member : p ∈ a.frontier word) :
    q ∈ a.frontier (word ++ spelled path) := by
  induction leads generalizing word with
  | nil q => simpa using member
  | @labeled p q r s path listed _ ih =>
    have declared := (consistent.transitions_declared _ listed).2.2
    have next : q ∈ a.frontier (word ++ [s]) := by
      rw [frontier_append]
      exact mem_advance.mpr ⟨declared, p, member, listed⟩
    have later := ih (fun t among => read t (.tail _ among)) next
    rwa [List.append_assoc] at later
  | spontaneous _ _ _ => exact absurd (read _ (.head _)) (by simp [Condition.isSpontaneous])

theorem mem_frontier_iff_path (consistent : a.Consistent) : q ∈ a.frontier word ↔
    ∃ q₀ path, a.initial = some q₀ ∧ a.Path q₀ path q ∧
      (∀ t ∈ path, t.condition.isSpontaneous = false) ∧ spelled path = word := by
  constructor
  · intro member
    induction word using List.reverseRecOn generalizing q with
    | nil => exact ⟨q, [], mem_start.mp member, .nil q, nofun, rfl⟩
    | append_singleton word s ih =>
      rw [frontier_append] at member
      obtain ⟨_, p, before, move⟩ := mem_advance.mp member
      obtain ⟨q₀, path, initial, leads, read, rfl⟩ := ih before
      have longer := leads.append (.labeled move (.nil q))
      refine ⟨q₀, path ++ [⟨.labeled p s, q⟩], initial, longer, ?_, ?_⟩
      · intro t among
        rcases List.mem_append.mp among with old | new
        · exact read t old
        · rw [List.mem_singleton.mp new]
          rfl
      · simp
  · intro reached
    obtain ⟨q₀, path, initial, leads, read, rfl⟩ := reached
    have start : q₀ ∈ a.frontier [] := mem_start.mpr initial
    exact leads.frontier consistent read start

theorem symbols_declared_of_mem_frontier (consistent : a.Consistent)
    (member : q ∈ a.frontier word) : ∀ s ∈ word, s ∈ a.inputs := by
  obtain ⟨_, _, _, leads, _, rfl⟩ := (mem_frontier_iff_path consistent).mp member
  exact leads.symbols_declared consistent

theorem symbols_declared_of_mem_closedFrontier (consistent : a.Consistent)
    (member : q ∈ a.closedFrontier word) : ∀ s ∈ word, s ∈ a.inputs := by
  obtain ⟨_, _, _, leads, rfl⟩ := (mem_closedFrontier_iff_path consistent).mp member
  exact leads.symbols_declared consistent

/-- A word ends in the final states that paths spelling it lead to, and nowhere else. -/
theorem evaluate_iff_path (built : a.Built) (word : List S) (q : Q) :
    (q ∈ a.evaluate word ↔ q ∈ a.finals ∧ ∃ q₀ path, a.initial = some q₀ ∧ a.Path q₀ path q ∧
        (∀ t ∈ path, t.condition.isSpontaneous = false) ∧ spelled path = word) ∧
      (q ∈ a.evaluateClosed word ↔ q ∈ a.finals ∧ ∃ q₀ path, a.initial = some q₀ ∧
        a.Path q₀ path q ∧ spelled path = word) := by
  have consistent := built.wellFormed.toConsistent
  rw [mem_evaluate, mem_evaluateClosed, mem_frontier_iff_path consistent,
    mem_closedFrontier_iff_path consistent]
  exact ⟨and_comm, and_comm⟩

open Demonstration in
/-- The example ends in its final state after its word without spontaneous transitions, after the
empty word only with one. -/
theorem exampleNfa_paths :
    exampleNfa.Built ∧
      (∃ path, exampleNfa.Path 0 path 3 ∧ (∀ t ∈ path, t.condition.isSpontaneous = false) ∧
        spelled path = exampleWord) ∧
      (∃ path, exampleNfa.Path 0 path 3 ∧ spelled path = []) ∧
      ¬ ∃ path, exampleNfa.Path 0 path 3 ∧ (∀ t ∈ path, t.condition.isSpontaneous = false) ∧
        spelled path = [] := by
  have final : 3 ∈ exampleNfa.finals := by decide +kernel
  have initial : exampleNfa.initial = some 0 := by decide +kernel
  have plain : ∀ word, 3 ∈ exampleNfa.evaluate word ↔ ∃ path, exampleNfa.Path 0 path 3 ∧
      (∀ t ∈ path, t.condition.isSpontaneous = false) ∧ spelled path = word := by
    intro word
    rw [(evaluate_iff_path exampleNfa_built word 3).1]
    simp [final, initial]
  refine ⟨exampleNfa_built, ?_, ?_, ?_⟩
  · exact (plain exampleWord).mp (by decide +kernel)
  · have ends : 3 ∈ exampleNfa.evaluateClosed [] := by decide +kernel
    obtain ⟨_, q₀, path, begins, leads, spells⟩ :=
      (evaluate_iff_path exampleNfa_built [] 3).2.mp ends
    rw [initial] at begins
    cases begins
    exact ⟨path, leads, spells⟩
  · rw [← plain []]
    decide +kernel

end Automaton
end FiniteAutomata
