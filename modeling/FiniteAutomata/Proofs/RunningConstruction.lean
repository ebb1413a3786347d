import FiniteAutomata.Proofs.Assembly
import FiniteAutomata.Proofs.ReachableSubsets

/-!
A conversion between its steps and inside them. Between two steps the labels found are the states of
the DFA, the labels that wait have no transitions yet, and all others have theirs. Inside a step a
transition is therefore new when it is put in, and all that it refers to is declared, so nothing
that a step does is refused.
-/
namespace FiniteAutomata

namespace SubsetConstruction
variable {kind : Kind} [Ordered Q] [Ordered S] {n : Automaton kind Q S}
  {c now : SubsetConstruction Q S} {label l m : SortedSet Q} {s : S} {past : List (SortedSet Q)}

/-- The construction after so many calls of a step. A call changes nothing once no label waits. -/
def afterSteps (n : Automaton kind Q S) : Nat → SubsetConstruction Q S
  | 0 => start n
  | calls + 1 => (n.construction.step (afterSteps n calls)).getD (afterSteps n calls)

theorem stepped_afterSteps (n : Automaton kind Q S) (calls : Nat) :
    ∃ past, Stepped n past (afterSteps n calls) := by
  induction calls with
  | zero => exact ⟨[], .begun⟩
  | succ calls ih =>
    obtain ⟨past, stepped⟩ := ih
    cases advanced : n.construction.step (afterSteps n calls) with
    | none =>
      refine ⟨past, ?_⟩
      rw [afterSteps, advanced]
      exact stepped
    | some next =>
      obtain ⟨label, further⟩ := stepped.one_more advanced
      refine ⟨past ++ [label], ?_⟩
      rw [afterSteps, advanced]
      exact further

structure Invariant (n : Automaton kind Q S) (c : SubsetConstruction Q S) : Prop where
  inputs_same : c.dfa.inputs = n.inputs
  states_found : ∀ l, l ∈ c.dfa.states ↔ l ∈ c.found
  queue_nodup : c.queue.Nodup
  queue_found : ∀ l ∈ c.queue, l ∈ c.found
  processed_complete : ∀ l ∈ c.found, l ∉ c.queue → ∀ s m,
    ⟨.labeled l s, m⟩ ∈ c.dfa.transitions ↔
      (∃ p ∈ l, ∃ r, ⟨.labeled p s, r⟩ ∈ n.transitions) ∧
        n.IsClosure (fun r => ∃ p ∈ l, ⟨.labeled p s, r⟩ ∈ n.transitions) m
  waiting_bare : ∀ l ∈ c.queue, ∀ t ∈ c.dfa.transitions, t.condition.state ≠ l
  ends_found : ∀ t ∈ c.dfa.transitions, t.condition.state ∈ c.found ∧ t.destination ∈ c.found
  symbols_declared : ∀ t ∈ c.dfa.transitions, ∃ s ∈ n.inputs, t.condition.label? = some s

theorem Traced.mem_transitions (traced : Traced n past (past.flatMap n.links) c)
    {t : Transition (SortedSet Q) S} : t ∈ c.dfa.transitions ↔
      ∃ l ∈ past, ∃ s ∈ n.outgoing l, t = ⟨.labeled l s, n.target l s⟩ := by
  rw [traced.transitions_linked, List.mem_map]
  constructor
  · intro listed
    obtain ⟨link, among, rfl⟩ := listed
    obtain ⟨processed, reads⟩ := Automaton.mem_flatMap_links.mp among
    exact ⟨link.1, processed, link.2, reads, rfl⟩
  · intro listed
    obtain ⟨l, processed, s, reads, rfl⟩ := listed
    exact ⟨(l, s), Automaton.mem_flatMap_links.mpr ⟨processed, reads⟩, rfl⟩

theorem Traced.mem_transitions_of_past (traced : Traced n past (past.flatMap n.links) c)
    (processed : l ∈ past) : ⟨.labeled l s, m⟩ ∈ c.dfa.transitions ↔
      (∃ p ∈ l, ∃ r, ⟨.labeled p s, r⟩ ∈ n.transitions) ∧
        n.IsClosure (fun r => ∃ p ∈ l, ⟨.labeled p s, r⟩ ∈ n.transitions) m := by
  rw [traced.mem_transitions, ← Automaton.mem_outgoing]
  constructor
  · intro listed
    obtain ⟨_, _, _, reads, same⟩ := listed
    cases same
    exact ⟨reads, n.target_isClosure l s⟩
  · intro leads
    obtain ⟨reads, closure⟩ := leads
    refine ⟨l, processed, s, reads, ?_⟩
    rw [closure.unique (n.target_isClosure l s)]

theorem Traced.invariant (traced : Traced n past (past.flatMap n.links) c)
    (consistent : n.Consistent) : Invariant n c := by
  have nodup := traced.found_nodup
  have split := traced.found_split
  rw [split] at nodup
  obtain ⟨_, queue_nodup, apart⟩ := List.nodup_append.mp nodup
  have sources : ∀ t ∈ c.dfa.transitions, t.condition.state ∈ past := by
    intro t listed
    obtain ⟨l, processed, s, _, rfl⟩ := traced.mem_transitions.mp listed
    exact processed
  refine ⟨traced.inputs_same, traced.states_found, queue_nodup, ?_, ?_, ?_, ?_, ?_⟩
  · intro l waits
    rw [split]
    exact List.mem_append_right past waits
  · intro l found done s m
    rw [split, List.mem_append] at found
    exact traced.mem_transitions_of_past (found.resolve_right done)
  · intro l waits t listed same
    exact apart _ (sources t listed) l waits same
  · intro t listed
    constructor
    · rw [split]
      exact List.mem_append_left c.queue (sources t listed)
    · obtain ⟨l, processed, s, reads, rfl⟩ := traced.mem_transitions.mp listed
      exact traced.targets_found (l, s) (Automaton.mem_flatMap_links.mpr ⟨processed, reads⟩)
  · intro t listed
    obtain ⟨l, _, s, reads, rfl⟩ := traced.mem_transitions.mp listed
    exact ⟨s, Automaton.outgoing_declared consistent reads, rfl⟩

/-- The construction inside a step from `c`, right before the transition of the label by the symbol
is put in: the transitions of the symbols before it are there, and the target was just found. -/
inductive Inserting (n : Automaton kind Q S) (c : SubsetConstruction Q S) (label : SortedSet Q)
    (s : S) : SubsetConstruction Q S → Prop where
  | reached {rest : List (SortedSet Q)} {before after : List S} (waiting : c.queue = label :: rest)
      (symbols : n.outgoing label = before ++ s :: after) : Inserting n c label s
        ((before.foldl (link n label) (c.dequeue n label rest)).discover (n.target label s))

structure Inserted (n : Automaton kind Q S) (c : SubsetConstruction Q S) (label : SortedSet Q)
    (s : S) (now : SubsetConstruction Q S) : Prop where
  absent : now.dfa.table.destinations? (.labeled label s) = none
  declared : now.dfa.Declares (.labeled label s) (n.target label s)
  added : now.dfa.edit (.addTransition (.labeled label s) (n.target label s)) =
    .ok ⟨now.dfa.after (.addTransition (.labeled label s) (n.target label s)), true, []⟩
  continues : ∃ left : List S, n.construction.step c = some (left.foldl (link n label)
    { now with dfa := now.dfa.after (.addTransition (.labeled label s) (n.target label s)) })

theorem Traced.inserted (traced : Traced n past (past.flatMap n.links) c)
    (consistent : n.Consistent) (inserting : Inserting n c label s now) :
    Inserted n c label s now := by
  cases inserting with
  | @reached rest before after waiting symbols =>
    have midway := traced.midway consistent waiting symbols
    have reads : s ∈ n.outgoing label := by simp [symbols]
    have fresh : (label, s) ∉ past.flatMap n.links ++ before.map (label, ·) := by
      intro member
      rcases List.mem_append.mp member with old | new
      · exact traced.unprocessed waiting (Automaton.mem_flatMap_links.mp old).1
      · have distinct := n.outgoing_nodup label
        rw [symbols] at distinct
        obtain ⟨x, earlier, same⟩ := List.mem_map.mp new
        cases same
        exact (List.nodup_append.mp distinct).2.2 s earlier s (.head _) rfl
    obtain ⟨declared, absent⟩ := midway.insertable consistent (by simp) reads fresh
    have unlisted := Table.destinations?_eq_none_iff.mp absent
    have added := Automaton.edit_addTransition_of_new declared rfl (unlisted _) fun _ => unlisted
    refine ⟨absent, declared, ?_, after, ?_⟩
    · rw [Automaton.after_of_ok added]
      exact added
    · rw [step_eq_some_iff]
      refine ⟨label, rest, waiting, ?_⟩
      rw [process, symbols, List.foldl_append, List.foldl_cons]
      rfl

theorem start_of_first (first : n.firstLabel? = some label) :
    (((blank n).discover label).dfa.setInitial label).done = true ∧
      start n = { (blank n).discover label with
        dfa := (((blank n).discover label).dfa.setInitial label).automaton } := by
  obtain ⟨q, initial, rfl⟩ := Option.map_eq_some_iff.mp first
  constructor
  · simp [blank, discover, Automaton.addState, Automaton.setInitial]
  · unfold start
    rw [initial]

/-- Nothing is refused while a construction runs, and each of its steps keeps the invariant. -/
structure RunsSafely (n : Automaton kind Q S) : Prop where
  invariant : ∀ calls, Invariant n (afterSteps n calls)
  insertions : ∀ calls label s now, Inserting n (afterSteps n calls) label s now →
    Inserted n (afterSteps n calls) label s now
  initial_set : ∀ label ∈ n.firstLabel?,
    (((blank n).discover label).dfa.setInitial label).done = true ∧
      start n = { (blank n).discover label with
        dfa := (((blank n).discover label).dfa.setInitial label).automaton }

theorem construction_runsSafely (built : n.Built) : RunsSafely n := by
  have consistent := built.wellFormed.toConsistent
  constructor
  · intro calls
    obtain ⟨past, stepped⟩ := stepped_afterSteps n calls
    exact (stepped.traced consistent).invariant consistent
  · intro calls label s now inserting
    obtain ⟨past, stepped⟩ := stepped_afterSteps n calls
    exact (stepped.traced consistent).inserted consistent inserting
  · intro label first
    exact start_of_first first

open Demonstration in
theorem exampleNfa_runsSafely : exampleNfa.Built ∧ RunsSafely exampleNfa ∧
    (afterSteps exampleNfa 2).queue = [{2}, {3}] ∧ (afterSteps exampleNfa 7).queue = [] :=
  ⟨Automaton.exampleNfa_built, construction_runsSafely Automaton.exampleNfa_built,
    by decide +kernel, by decide +kernel⟩

end SubsetConstruction
end FiniteAutomata
