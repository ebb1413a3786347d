import FiniteAutomata.Proofs.ConstructionTrace

/-!
The parts of a converted DFA. Its states are the labels that arise, in the order in which they are
found; it has one transition for every label and every symbol the label can read. So it is well
formed if the NFA is consistent.
-/
namespace FiniteAutomata.Automaton
open SubsetConstruction
variable {kind : Kind} [Ordered Q] [Ordered S] {n : Automaton kind Q S} {l m : SortedSet Q} {s : S}

def labels (n : Automaton kind Q S) : List (SortedSet Q) :=
  (n.construction.run (.start n)).found

theorem labels_nodup (n : Automaton kind Q S) : n.labels.Nodup := (tracked_run n).found_nodup

theorem mem_states_determinize (n : Automaton kind Q S) :
    l ∈ n.determinize.states ↔ l ∈ n.labels := (tracked_run n).states_found l

theorem stateCount_determinize (n : Automaton kind Q S) :
    n.determinize.stateCount = n.labels.length :=
  SortedSet.size_eq_length_of_nodup n.labels_nodup fun _ => n.mem_states_determinize

theorem mem_finals_determinize (n : Automaton kind Q S) :
    l ∈ n.determinize.finals ↔ l ∈ n.determinize.states ∧ ∃ q ∈ l, q ∈ n.finals := by
  change l ∈ SortedSet.filter _ n.determinize.states ↔ _
  rw [SortedSet.mem_filter, SortedSet.meets_iff]

theorem inputs_determinize (consistent : n.Consistent) : n.determinize.inputs = n.inputs :=
  (traced_run consistent).inputs_same

theorem initial_determinize (consistent : n.Consistent) : n.determinize.initial = n.firstLabel? :=
  (traced_run consistent).initial_same

theorem transitions_determinize (consistent : n.Consistent) :
    n.determinize.transitions = (n.labels.flatMap n.links).map n.edge :=
  (traced_run consistent).transitions_linked

/-- The transitions are listed label by label, and for each label in the order of what it reads. -/
theorem transitions_determinize_flatMap (consistent : n.Consistent) :
    n.determinize.transitions =
      n.labels.flatMap fun l => (n.outgoing l).map fun s => ⟨.labeled l s, n.target l s⟩ := by
  rw [transitions_determinize consistent, List.map_flatMap]
  simp only [links, edge, List.map_map, Function.comp_def]

theorem mem_labels (consistent : n.Consistent) : l ∈ n.labels ↔ n.Label l := by
  have traced := traced_run consistent
  constructor
  · exact traced.found_arise l
  · intro arises
    induction arises with
    | first begins => exact traced.initial_found _ begins
    | @next label s before reads ih =>
      exact traced.targets_found (label, s) (mem_flatMap_links.mpr ⟨ih, reads⟩)

theorem mem_transitions_determinize_iff (consistent : n.Consistent)
    {t : Transition (SortedSet Q) S} : t ∈ n.determinize.transitions ↔
      ∃ l ∈ n.determinize.states, ∃ s ∈ n.outgoing l, t = ⟨.labeled l s, n.target l s⟩ := by
  simp only [transitions_determinize_flatMap consistent, List.mem_flatMap, List.mem_map,
    mem_states_determinize, eq_comm]

theorem mem_transitions_determinize (consistent : n.Consistent) :
    ⟨.labeled l s, m⟩ ∈ n.determinize.transitions ↔
      l ∈ n.determinize.states ∧ s ∈ n.outgoing l ∧ m = n.target l s := by
  rw [mem_transitions_determinize_iff consistent]
  constructor
  · intro listed
    obtain ⟨l, found, s, reads, same⟩ := listed
    cases same
    exact ⟨found, reads, rfl⟩
  · intro arises
    obtain ⟨found, reads, rfl⟩ := arises
    exact ⟨l, found, s, reads, rfl⟩

theorem wellFormed_determinize (consistent : n.Consistent) : n.determinize.WellFormed := by
  have single : n.determinize.table.Deterministic := by
    rw [Table.deterministic_iff]
    intro c m k first second
    obtain ⟨l, _, s, _, same⟩ := (mem_transitions_determinize_iff consistent).mp first
    cases same
    exact ((mem_transitions_determinize consistent).mp second).2.2.symm
  refine ⟨⟨?_, ?_, ?_⟩, fun _ => single⟩
  · intro l first
    rw [initial_determinize consistent] at first
    exact n.mem_states_determinize.mpr ((mem_labels consistent).mpr (.first first))
  · intro l final
    exact (n.mem_finals_determinize.mp final).1
  · intro t listed
    obtain ⟨l, found, s, reads, rfl⟩ := (mem_transitions_determinize_iff consistent).mp listed
    refine ⟨found, ?_, ?_⟩
    · intro x symbol
      cases symbol
      rw [inputs_determinize consistent]
      exact outgoing_declared consistent reads
    · have arises := (mem_labels consistent).mp (n.mem_states_determinize.mp found)
      exact n.mem_states_determinize.mpr ((mem_labels consistent).mpr (.next arises reads))

end FiniteAutomata.Automaton
