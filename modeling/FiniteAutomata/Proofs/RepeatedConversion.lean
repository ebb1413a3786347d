import FiniteAutomata.Proofs.Renaming

/-!
Converting what was converted. A converted DFA is deterministic and all its states are reached, so a
second conversion goes through its states in the order in which they were found and puts each of
them into a set of its own.
-/
namespace FiniteAutomata

namespace Automaton
variable {kind : Kind} [Ordered Q] [Ordered S] {d : DFA Q S} {n : Automaton kind Q S} {p q : Q}
  {l : SortedSet Q} {s : S}

def asNfa (d : DFA Q S) : NFA Q S := ⟨d.states, d.inputs, d.table, d.initial, d.finals⟩

theorem transitions_asNfa (d : DFA Q S) : d.asNfa.transitions = d.transitions := rfl

theorem consistent_asNfa (valid : d.WellFormed) : d.asNfa.Consistent :=
  ⟨valid.initial_declared, valid.finals_declared, valid.transitions_declared⟩

theorem ofParts?_asNfa (valid : d.WellFormed) :
    (ofParts? d.states.toList d.inputs.toList d.table d.initial d.finals.toList :
      Except Failure (Option (NFA Q S))) = .ok (some d.asNfa) := by
  simp only [ofParts?, SortedSet.ofList_toList, reduceCtorEq, false_and, if_false]
  exact congrArg Except.ok (if_pos (consistent_asNfa valid))

theorem still_asNfa (d : DFA Q S) :
    ∀ t ∈ d.asNfa.transitions, t.condition.isSpontaneous = false := labeled_of_listed nofun

theorem outgoing_determinize_asNfa (consistent : n.Consistent) (found : l ∈ n.labels) :
    n.determinize.asNfa.outgoing {l} = n.outgoing l := by
  have read : ∀ k, ((n.outgoing k).map fun s => (⟨.labeled k s, n.target k s⟩ :
      Transition (SortedSet Q) S)).filterMap (readFrom {l}) =
        if k = l then n.outgoing k else [] := by
    intro k
    by_cases same : k = l <;> simp [readFrom, List.filterMap_map, Function.comp_def, same]
  have listed : n.determinize.asNfa.transitions.filterMap (readFrom {l}) = n.outgoing l := by
    rw [transitions_asNfa, transitions_determinize_flatMap consistent, List.filterMap_flatMap,
      flatMap_of_single n.labels_nodup found]
    · rw [read, if_pos rfl]
    · intro k _ differs
      rw [read, if_neg differs]
  rw [outgoing_eq, listed, eraseDups_of_nodup (n.outgoing_nodup l)]

theorem target_determinize_asNfa (consistent : n.Consistent) (found : l ∈ n.labels)
    (reads : s ∈ n.outgoing l) : n.determinize.asNfa.target {l} s = {n.target l s} := by
  have declared := n.mem_states_determinize.mpr found
  apply SortedSet.ext
  intro k
  rw [mem_target_singleton (still_asNfa _), transitions_asNfa,
    mem_transitions_determinize consistent, SortedSet.mem_singleton]
  simp [declared, reads]

theorem mirrors_asNfa (consistent : n.Consistent) :
    Mirrors (fun l => {l}) n n.determinize.asNfa where
  injective := by
    intro l _ k _ same
    exact SortedSet.singleton_inj.mp same
  inputs := inputs_determinize consistent
  first := by
    rw [firstLabel?_eq_singleton (still_asNfa _), ← initial_determinize consistent]
    rfl
  outgoing := fun l found => outgoing_determinize_asNfa consistent found
  target := fun l found s reads => target_determinize_asNfa consistent found reads
  finals := by
    intro l found
    have declared := n.mem_states_determinize.mpr found
    change (∃ k ∈ ({l} : SortedSet (SortedSet Q)), k ∈ n.determinize.finals) ↔ _
    simp only [SortedSet.mem_singleton, exists_eq_left, mem_finals_determinize]
    exact and_iff_right declared

/-- The parts of a converted DFA are those of an NFA, and to convert that again only puts every
label into a set of its own. -/
theorem determinize_twice (built : n.Built) : ∃ m : NFA (SortedSet Q) S,
    (ofParts? n.determinize.states.toList n.determinize.inputs.toList n.determinize.table
        n.determinize.initial n.determinize.finals.toList :
      Except Failure (Option (NFA (SortedSet Q) S))) = .ok (some m) ∧
      Renamed (fun l => {l}) n.determinize m.determinize ∧
      m.determinize.states.toList = n.determinize.states.toList.map fun l => {l} := by
  have consistent := built.wellFormed.toConsistent
  have valid := wellFormed_determinize consistent
  have renamed := (mirrors_asNfa consistent).renamed consistent (consistent_asNfa valid)
  refine ⟨n.determinize.asNfa, ofParts?_asNfa valid, renamed, ?_⟩
  rw [renamed.states, SortedSet.toList_map]
  intro l k less
  rw [SortedSet.compare_singleton, less]

open Demonstration in
theorem exampleNfa_determinized_twice :
    exampleNfa.Built ∧ ∃ m : NFA (SortedSet Nat) Char,
      (ofParts? exampleNfa.determinize.states.toList exampleNfa.determinize.inputs.toList
          exampleNfa.determinize.table exampleNfa.determinize.initial
          exampleNfa.determinize.finals.toList :
        Except Failure (Option (NFA (SortedSet Nat) Char))) = .ok (some m) ∧
      Renamed (fun l => {l}) exampleNfa.determinize m.determinize ∧
      m.determinize.states.toList = [{{2}}, {{3}}, {.ofList [0, 3]}, {.ofList [1, 2]}] := by
  obtain ⟨m, accepted, renamed, listed⟩ := determinize_twice exampleNfa_built
  refine ⟨exampleNfa_built, m, accepted, renamed, ?_⟩
  rw [listed]
  decide +kernel

end Automaton
end FiniteAutomata
