import FiniteAutomata.Proofs.ReachableSubsets
import Mathlib.Algebra.Group.Nat.Defs

/-!
How many steps a conversion takes. A step takes a label from the queue, and whatever was taken is the
beginning of the list of all labels, so no label is taken twice and a further step is possible just
as long as a label is left. The labels are nonempty sets of declared states, which bounds the steps.
-/
namespace FiniteAutomata

theorem SortedSet.length_sublists (l : List α) : (sublists l).length = 2 ^ l.length := by
  induction l with
  | nil => rfl
  | cons x rest ih =>
    rw [sublists, List.length_append, List.length_map, ih, List.length_cons, Nat.pow_succ]
    omega

namespace SubsetConstruction
variable {kind : Kind} [Ordered Q] [Ordered S] {n : Automaton kind Q S}
  {c : SubsetConstruction Q S} {taken : List (SortedSet Q)}

theorem Stepped.prefix_labels (stepped : Stepped n taken c) : taken <+: n.labels := by
  rw [Automaton.labels, ← trail_start]
  exact stepped.prefix_trail

theorem Stepped.found_prefix_labels (stepped : Stepped n taken c) : c.found <+: n.labels := by
  have grown := found_prefix_run n c
  rwa [stepped.run_eq] at grown

theorem Stepped.label_of_waiting {label : SortedSet Q} (stepped : Stepped n taken c)
    (waits : label ∈ c.queue) : label ∈ n.labels := by
  apply stepped.found_prefix_labels.subset
  rw [stepped.tracked.found_split]
  exact List.mem_append_right _ waits

end SubsetConstruction

namespace Automaton
open SubsetConstruction
variable {kind : Kind} [Ordered Q] [Ordered S] {n : Automaton kind Q S} {l : SortedSet Q}

theorem subset_states_of_mem_labels (consistent : n.Consistent) (found : l ∈ n.labels) :
    l ⊆ n.states := by
  obtain ⟨word, _, rfl⟩ := ((mem_labels consistent).mp found).closedFrontier consistent
  exact closedFrontier_subset n word

/-- There are fewer labels than sets of states, since the empty set is none. -/
theorem length_labels_lt (consistent : n.Consistent) : n.labels.length < 2 ^ n.stateCount := by
  have distinct : ([] :: n.labels.map SortedSet.toList).Nodup := by
    refine List.nodup_cons.mpr ⟨?_, n.labels_nodup.map fun _ _ => SortedSet.toList_inj.mp⟩
    intro listed
    obtain ⟨l, found, empty⟩ := List.mem_map.mp listed
    exact ((mem_labels consistent).mp found).ne_empty (SortedSet.toList_inj.mp empty)
  have inside : ([] :: n.labels.map SortedSet.toList) ⊆ SortedSet.sublists n.states.toList := by
    intro k member
    rcases List.mem_cons.mp member with rfl | listed
    · exact SortedSet.mem_sublists.mpr (List.nil_sublist _)
    · obtain ⟨l, found, rfl⟩ := List.mem_map.mp listed
      exact SortedSet.mem_sublists_of_subset (subset_states_of_mem_labels consistent found)
  have fewer := distinct.length_le_of_subset inside
  rw [SortedSet.length_sublists, List.length_cons, List.length_map] at fewer
  exact fewer

structure TakesEachOnce (n : Automaton kind Q S) (labels : List (SortedSet Q)) : Prop where
  stops : ∃ last, Stepped n labels last ∧ n.construction.step last = none ∧
    last.finish n = n.convert
  advances : ∀ taken c, Stepped n taken c →
    ((∃ next, n.construction.step c = some next) ↔ taken.length < n.determinize.stateCount)
  in_order : ∀ taken c, Stepped n taken c → taken <+: labels
  steps : labels.length = n.determinize.stateCount
  once : labels.Nodup
  states : ∀ l, l ∈ labels ↔ l ∈ n.determinize.states
  without_initial : n.initial = none → labels.length = 0
  with_initial : n.initial ≠ none → 1 ≤ labels.length ∧ labels.length ≤ 2 ^ n.stateCount - 1

/-- The loop of a conversion stops after as many steps as the DFA has states. -/
theorem determinize_takesEachOnce (built : n.Built) : ∃ labels, n.TakesEachOnce labels := by
  have consistent := built.wellFormed.toConsistent
  refine ⟨n.labels, ?_, ?_, ?_, n.stateCount_determinize.symm, n.labels_nodup, ?_, ?_, ?_⟩
  · exact ⟨_, stepped_run n, n.construction.step_run _, rfl⟩
  · intro taken c stepped
    rw [stateCount_determinize, labels, ← trail_start]
    exact stepped.advances_iff
  · intro taken c stepped
    exact stepped.prefix_labels
  · intro l
    exact n.mem_states_determinize.symm
  · intro absent
    rw [n.labels_eq_nil_iff.mpr absent, List.length_nil]
  · intro present
    have some_label : n.labels ≠ [] := fun none => present (n.labels_eq_nil_iff.mp none)
    exact ⟨List.length_pos_iff.mpr some_label, Nat.le_sub_one_of_lt (length_labels_lt consistent)⟩

open Demonstration in
theorem exampleNfa_takesEachOnce :
    exampleNfa.Built ∧ ∃ labels, exampleNfa.TakesEachOnce labels ∧ labels.length = 4 ∧
      exampleNfa.stateCount = 4 := by
  obtain ⟨labels, taken⟩ := determinize_takesEachOnce exampleNfa_built
  refine ⟨exampleNfa_built, labels, taken, ?_, by decide +kernel⟩
  rw [taken.steps]
  decide +kernel

end Automaton
end FiniteAutomata
