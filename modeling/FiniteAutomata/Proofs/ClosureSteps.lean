import FiniteAutomata.Proofs.QueueRuns
import FiniteAutomata.Proofs.SpontaneousReach

/-!
How many steps a closure takes. A step takes a state from the queue, and a state is queued only when
it is found, so what was taken and what waits is together what is found, each state once. The search
stops when every state found was taken: after as many steps as the closure has states, whatever
cycles or repetitions there are among the moves and the states it begins with.
-/
namespace FiniteAutomata

namespace SpontaneousMoves.Search
variable [Ordered Q] {m : SpontaneousMoves Q} {seeds taken : List Q} {search next : Search Q} {q : Q}

abbrev Expanded (m : SpontaneousMoves Q) (seeds : List Q) : List Q → Search Q → Prop :=
  m.search.Taken (start seeds)

structure Accounted (taken : List Q) (search : Search Q) : Prop where
  nodup : (taken ++ search.queue).Nodup
  found : ∀ q, q ∈ search.found ↔ q ∈ taken ++ search.queue

theorem Accounted.visit (accounted : Accounted taken search) (q : Q) :
    Accounted taken (search.visit q) := by
  unfold Search.visit
  split
  · exact accounted
  · rename_i new
    have unlisted : q ∉ taken ++ search.queue := fun listed => new ((accounted.found q).mpr listed)
    constructor
    · rw [← List.append_assoc]
      exact List.nodup_append.mpr ⟨accounted.nodup, by simp, by grind⟩
    · intro r
      rw [SortedSet.mem_insert, accounted.found r, ← List.append_assoc]
      simp only [List.mem_append, List.mem_singleton]
      exact or_comm

theorem Accounted.visits (accounted : Accounted taken search) (states : List Q) :
    Accounted taken (states.foldl Search.visit search) := by
  induction states generalizing search with
  | nil => exact accounted
  | cons q rest ih => exact ih (accounted.visit q)

theorem accounted_start (seeds : List Q) : Accounted [] (start seeds) := by
  have nothing : Accounted [] (⟨∅, []⟩ : Search Q) := ⟨.nil, by simp⟩
  exact nothing.visits seeds

theorem Accounted.step {rest : List Q} (accounted : Accounted taken search)
    (waiting : search.queue = q :: rest) (advanced : m.search.step search = some next) :
    Accounted (taken ++ [q]) next := by
  obtain ⟨_, _, also, rfl⟩ := step_eq_some_iff.mp advanced
  rw [waiting] at also
  cases also
  have split : taken ++ search.queue = taken ++ [q] ++ rest := by simp [waiting]
  have dequeued : Accounted (taken ++ [q]) ⟨search.found, rest⟩ :=
    ⟨split ▸ accounted.nodup, fun r => split ▸ accounted.found r⟩
  exact dequeued.visits (m.destinations q)

theorem Expanded.accounted (expanded : Expanded m seeds taken search) :
    Accounted taken search := by
  induction expanded with
  | begun => exact accounted_start seeds
  | further _ waiting advanced ih => exact ih.step waiting advanced

theorem accounted_run (m : SpontaneousMoves Q) (seeds : List Q) :
    (m.search.trail (start seeds)).Nodup ∧
      ∀ q, q ∈ m.closure seeds ↔ q ∈ m.search.trail (start seeds) := by
  have all : Expanded m seeds _ _ := m.search.taken_run (start seeds)
  obtain ⟨nodup, found⟩ := all.accounted
  rw [step_eq_none_iff.mp (m.search.step_run _), List.append_nil] at nodup found
  exact ⟨nodup, found⟩

/-- How the loop of a closure goes that takes the states of the list from its queue. -/
structure ExpandsEachOnce (m : SpontaneousMoves Q) (seeds order : List Q)
    (closure : SortedSet Q) : Prop where
  stops : ∃ last, Expanded m seeds order last ∧ m.search.step last = none ∧ last.found = closure
  advances : ∀ taken search, Expanded m seeds taken search →
    ((∃ next, m.search.step search = some next) ↔ taken.length < closure.size)
  in_order : ∀ taken search, Expanded m seeds taken search → taken <+: order
  steps : order.length = closure.size
  once : order.Nodup
  states : ∀ q, q ∈ order ↔ q ∈ closure

end SpontaneousMoves.Search

open SpontaneousMoves.Search in
/-- The loop of a closure stops after as many steps as the closure has states. -/
theorem spontaneousClosure_expandsEachOnce [Ordered Q] (states : List Q)
    (transitions : List (Transition Q S)) :
    ∃ order, ExpandsEachOnce (.ofTransitions transitions) states order
      (spontaneousClosure states transitions) := by
  let m : SpontaneousMoves Q := .ofTransitions transitions
  obtain ⟨nodup, found⟩ := accounted_run m states
  have size : (m.closure states).size = (m.search.trail (start states)).length :=
    SortedSet.size_eq_length_of_nodup nodup found
  refine ⟨m.search.trail (start states), ⟨_, m.search.taken_run _, m.search.step_run _, rfl⟩, ?_, ?_,
    size.symm, nodup, fun q => (found q).symm⟩
  · intro taken search expanded
    rw [spontaneousClosure, size]
    exact expanded.advances_iff
  · intro taken search expanded
    exact expanded.prefix_trail

end FiniteAutomata
