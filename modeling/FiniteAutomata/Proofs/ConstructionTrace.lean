import FiniteAutomata.Proofs.QueueRuns
import FiniteAutomata.Proofs.SubsetLabels

/-!
What holds of a running subset construction. `Stepped` tells which labels its steps have processed, in
that order. The labels found are those processed, followed by those that wait (`Tracked`); and the DFA
so far has exactly the transitions of the labels processed (`Traced`). Both are kept by every step, so
a finished construction has the transitions of all its labels.
-/
namespace FiniteAutomata

def putNew [DecidableEq α] (l : List α) (x : α) : List α := if x ∈ l then l else l ++ [x]

theorem mem_putNew [DecidableEq α] {l : List α} {x y : α} :
    x ∈ putNew l y ↔ x ∈ l ∨ x = y := by
  unfold putNew
  split <;> grind

theorem mem_foldl_putNew [DecidableEq α] {l new : List α} {x : α} :
    x ∈ new.foldl putNew l ↔ x ∈ l ∨ x ∈ new := by
  induction new generalizing l with
  | nil => simp
  | cons y rest ih => rw [List.foldl_cons, ih, mem_putNew, or_assoc, ← List.mem_cons]

theorem prefix_foldl_putNew [DecidableEq α] (l new : List α) : l <+: new.foldl putNew l := by
  induction new generalizing l with
  | nil => exact List.prefix_rfl
  | cons y rest ih =>
    refine List.IsPrefix.trans ?_ (ih (putNew l y))
    unfold putNew
    split
    · exact List.prefix_rfl
    · exact List.prefix_append l [y]

namespace Automaton
variable {kind : Kind} [Ordered Q] [Ordered S]

def edge (n : Automaton kind Q S) (link : SortedSet Q × S) : Transition (SortedSet Q) S :=
  ⟨.labeled link.1 link.2, n.target link.1 link.2⟩

def links (n : Automaton kind Q S) (label : SortedSet Q) : List (SortedSet Q × S) :=
  (n.outgoing label).map (label, ·)

variable {n : Automaton kind Q S} {link : SortedSet Q × S} {labels : List (SortedSet Q)}

theorem mem_flatMap_links :
    link ∈ labels.flatMap n.links ↔ link.1 ∈ labels ∧ link.2 ∈ n.outgoing link.1 := by
  obtain ⟨l, s⟩ := link
  simp only [links, List.mem_flatMap, List.mem_map, Prod.mk.injEq]
  constructor
  · intro linked
    obtain ⟨label, among, symbol, reads, rfl, rfl⟩ := linked
    exact ⟨among, reads⟩
  · intro linked
    exact ⟨l, linked.1, s, linked.2, rfl, rfl⟩

theorem after_addTransition (a : Automaton kind Q S) (c : Condition Q S) (q : Q) :
    (a.after (.addTransition c q)).states = a.states ∧
      (a.after (.addTransition c q)).inputs = a.inputs ∧
      (a.after (.addTransition c q)).initial = a.initial ∧
      (a.after (.addTransition c q)).finals = a.finals := by
  change (a.addTransition c q).automaton.states = _ ∧ (a.addTransition c q).automaton.inputs = _ ∧
    (a.addTransition c q).automaton.initial = _ ∧ (a.addTransition c q).automaton.finals = _
  rcases a.addTransition_cases c q with ⟨_, same⟩ | same | ⟨_, _, same⟩ <;> simp [same]

theorem transitions_after_addTransition {d : DFA Q S} {p q : Q} {s : S}
    (declared : d.Declares (.labeled p s) q) (absent : d.table.destinations? (.labeled p s) = none) :
    (d.after (.addTransition (.labeled p s) q)).transitions =
      d.transitions ++ [⟨.labeled p s, q⟩] := by
  have accepted : (d.addTransition (.labeled p s) q).automaton =
      { d with table := (d.table.add (.labeled p s) q).1 } := by
    simp [addTransition, Condition.isSpontaneous, absent, declared]
  change (d.addTransition (.labeled p s) q).automaton.transitions = _
  rw [accepted]
  exact Table.transitions_add_of_absent rfl absent

end Automaton

namespace SubsetConstruction
variable {kind : Kind} [Ordered Q] [Ordered S] {n : Automaton kind Q S}
  {c next : SubsetConstruction Q S} {label l : SortedSet Q} {s : S} {symbols : List S}
  {past : List (SortedSet Q)} {linked : List (SortedSet Q × S)}

theorem step_eq_some_iff : n.construction.step c = some next ↔
    ∃ label rest, c.queue = label :: rest ∧ next = c.process n label rest :=
  Worklist.step_eq_some_iff

theorem step_eq_none_iff : n.construction.step c = none ↔ c.queue = [] :=
  Worklist.step_eq_none_iff

abbrev Stepped (n : Automaton kind Q S) :
    List (SortedSet Q) → SubsetConstruction Q S → Prop :=
  n.construction.Taken (start n)

theorem next_of_waiting {rest : List (SortedSet Q)} (waiting : c.queue = label :: rest)
    (advanced : n.construction.step c = some next) :
    next = (n.outgoing label).foldl (link n label) (c.dequeue n label rest) :=
  Option.some.inj (advanced.symm.trans (step_eq_some_iff.mpr ⟨label, rest, waiting, rfl⟩))

theorem found_discover (c : SubsetConstruction Q S) (label : SortedSet Q) :
    (c.discover label).found = putNew c.found label := by
  unfold discover putNew
  split <;> rfl

theorem found_links (n : Automaton kind Q S) (label : SortedSet Q) (symbols : List S)
    (c : SubsetConstruction Q S) : (symbols.foldl (link n label) c).found =
      (symbols.map (n.target label)).foldl putNew c.found := by
  induction symbols generalizing c with
  | nil => rfl
  | cons s rest ih =>
    have found : (c.link n label s).found = putNew c.found (n.target label s) :=
      found_discover c (n.target label s)
    rw [List.foldl_cons, ih, found, List.map_cons, List.foldl_cons]

theorem mem_found_discover : l ∈ (c.discover label).found ↔ l ∈ c.found ∨ l = label := by
  rw [found_discover]
  exact mem_putNew

/-- The labels found are the states of the DFA, each found once, those that wait after the others. -/
structure Tracked (past : List (SortedSet Q)) (c : SubsetConstruction Q S) : Prop where
  found_split : c.found = past ++ c.queue
  found_nodup : c.found.Nodup
  states_found : ∀ l, l ∈ c.dfa.states ↔ l ∈ c.found

theorem Tracked.discover (tracked : Tracked past c) (label : SortedSet Q) :
    Tracked past (c.discover label) := by
  unfold SubsetConstruction.discover
  split
  · exact tracked
  · rename_i new
    constructor
    · simp [tracked.found_split]
    · have apart : ∀ x ∈ c.found, ∀ y ∈ [label], x ≠ y := by
        intro x old y fresh same
        rw [List.mem_singleton.mp fresh] at same
        exact new (same ▸ old)
      exact List.nodup_append.mpr ⟨tracked.found_nodup, by simp, apart⟩
    · intro l
      have states := tracked.states_found l
      simp only [Automaton.addState, SortedSet.mem_insert, states, List.mem_append,
        List.mem_singleton]
      exact or_comm

theorem Tracked.link (tracked : Tracked past c) (n : Automaton kind Q S) (label : SortedSet Q)
    (s : S) : Tracked past (c.link n label s) := by
  have discovered := tracked.discover (n.target label s)
  have kept := (Automaton.after_addTransition (c.discover (n.target label s)).dfa
    (.labeled label s) (n.target label s)).1
  constructor
  · exact discovered.found_split
  · exact discovered.found_nodup
  · intro l
    unfold SubsetConstruction.link
    rw [kept]
    exact discovered.states_found l

theorem Tracked.links (tracked : Tracked past c) (n : Automaton kind Q S) (label : SortedSet Q)
    (symbols : List S) : Tracked past (symbols.foldl (SubsetConstruction.link n label) c) := by
  induction symbols generalizing c with
  | nil => exact tracked
  | cons s rest ih => exact ih (tracked.link n label s)

theorem Tracked.dequeue {rest : List (SortedSet Q)} (tracked : Tracked past c)
    (n : Automaton kind Q S) (waiting : c.queue = label :: rest) :
    Tracked (past ++ [label]) (c.dequeue n label rest) := by
  refine ⟨?_, tracked.found_nodup, tracked.states_found⟩
  simp [SubsetConstruction.dequeue, tracked.found_split, waiting]

theorem Tracked.unprocessed {rest : List (SortedSet Q)} (tracked : Tracked past c)
    (waiting : c.queue = label :: rest) : label ∉ past := by
  have nodup := tracked.found_nodup
  rw [tracked.found_split, waiting] at nodup
  exact fun member => (List.nodup_append.mp nodup).2.2 label member label (by simp) rfl

theorem Tracked.step {rest : List (SortedSet Q)} (tracked : Tracked past c)
    (waiting : c.queue = label :: rest) (advanced : n.construction.step c = some next) :
    Tracked (past ++ [label]) next := by
  rw [next_of_waiting waiting advanced]
  exact (tracked.dequeue n waiting).links n label _

theorem start_of_none (initial : n.firstLabel? = none) : start n = blank n := by
  unfold start
  rw [Option.map_eq_none_iff.mp initial]

theorem start_of_some (initial : n.firstLabel? = some label) :
    start n = ⟨[label], [label], { (Automaton.withInputs n.inputs.toList) with
      states := SortedSet.insert ∅ label, initial := some label }, []⟩ := by
  obtain ⟨q, at_first, rfl⟩ := Option.map_eq_some_iff.mp initial
  unfold start
  rw [at_first]
  simp [blank, discover, Automaton.addState, Automaton.setInitial, Automaton.withInputs]

theorem tracked_start (n : Automaton kind Q S) : Tracked [] (start n) := by
  cases initial : n.firstLabel? with
  | none =>
    rw [start_of_none initial]
    exact ⟨rfl, .nil, fun l => by simp [blank, Automaton.withInputs]⟩
  | some label =>
    rw [start_of_some initial]
    exact ⟨rfl, by simp, fun l => by simp⟩

theorem Stepped.tracked (stepped : Stepped n past c) : Tracked past c := by
  induction stepped with
  | begun => exact tracked_start n
  | further _ waiting advanced ih => exact ih.step waiting advanced

theorem trail_start (n : Automaton kind Q S) :
    n.construction.trail (start n) = (n.construction.run (start n)).found := by
  have stepped : Stepped n _ _ := n.construction.taken_run (start n)
  have split := stepped.tracked.found_split
  rw [step_eq_none_iff.mp (n.construction.step_run _), List.append_nil] at split
  exact split.symm

theorem stepped_run (n : Automaton kind Q S) :
    Stepped n (n.construction.run (start n)).found (n.construction.run (start n)) := by
  rw [← trail_start]
  exact n.construction.taken_run (start n)

theorem tracked_run (n : Automaton kind Q S) :
    Tracked (n.construction.run (start n)).found (n.construction.run (start n)) :=
  (stepped_run n).tracked

/-- The transitions of the DFA so far, and where its labels come from. -/
structure Traced (n : Automaton kind Q S) (past : List (SortedSet Q))
    (linked : List (SortedSet Q × S)) (c : SubsetConstruction Q S) : Prop
    extends Tracked past c where
  inputs_same : c.dfa.inputs = n.inputs
  initial_same : c.dfa.initial = n.firstLabel?
  finals_none : c.dfa.finals = ∅
  initial_found : ∀ l ∈ n.firstLabel?, l ∈ c.found
  found_arise : ∀ l ∈ c.found, n.Label l
  linked_past : ∀ link ∈ linked, link.1 ∈ past
  targets_found : ∀ link ∈ linked, n.target link.1 link.2 ∈ c.found
  transitions_linked : c.dfa.transitions = linked.map n.edge

theorem dfa_discover (c : SubsetConstruction Q S) (label : SortedSet Q) :
    (c.discover label).dfa.inputs = c.dfa.inputs ∧
      (c.discover label).dfa.initial = c.dfa.initial ∧
      (c.discover label).dfa.finals = c.dfa.finals ∧
      (c.discover label).dfa.transitions = c.dfa.transitions := by
  unfold discover
  split
  · exact ⟨rfl, rfl, rfl, rfl⟩
  · exact ⟨rfl, rfl, rfl, rfl⟩

theorem Traced.discover (traced : Traced n past linked c) (arises : n.Label label) :
    Traced n past linked (c.discover label) := by
  have older : ∀ l ∈ c.found, l ∈ (c.discover label).found :=
    fun l old => mem_found_discover.mpr (.inl old)
  obtain ⟨inputs, initial, finals, transitions⟩ := dfa_discover c label
  refine ⟨traced.toTracked.discover label, inputs.trans traced.inputs_same,
    initial.trans traced.initial_same, finals.trans traced.finals_none, ?_, ?_,
    traced.linked_past, ?_, transitions.trans traced.transitions_linked⟩
  · intro l first
    exact older l (traced.initial_found l first)
  · intro l member
    rcases mem_found_discover.mp member with old | rfl
    · exact traced.found_arise l old
    · exact arises
  · intro link member
    exact older _ (traced.targets_found link member)

theorem Traced.declares (traced : Traced n past linked c) (consistent : n.Consistent)
    (found : label ∈ c.found) (reads : s ∈ n.outgoing label) (target : l ∈ c.found) :
    c.dfa.Declares (.labeled label s) l := by
  have symbol : ∀ x, some s = some x → x ∈ c.dfa.inputs := by
    intro x same
    cases same
    rw [traced.inputs_same]
    exact Automaton.outgoing_declared consistent reads
  exact ⟨(traced.states_found label).mpr found, symbol, (traced.states_found l).mpr target⟩

theorem Traced.absent (traced : Traced n past linked c) (fresh : (label, s) ∉ linked) :
    c.dfa.table.destinations? (.labeled label s) = none := by
  apply Table.destinations?_eq_none_iff.mpr
  intro q stored
  have listed : ⟨.labeled label s, q⟩ ∈ c.dfa.transitions := stored
  rw [traced.transitions_linked] at listed
  obtain ⟨link, member, same⟩ := List.mem_map.mp listed
  cases same
  exact fresh member

theorem Traced.discover_target (traced : Traced n past linked c) (processed : label ∈ past)
    (reads : s ∈ n.outgoing label) : label ∈ (c.discover (n.target label s)).found ∧
      Traced n past linked (c.discover (n.target label s)) := by
  have label_found : label ∈ c.found := by
    rw [traced.found_split]
    exact List.mem_append_left _ processed
  exact ⟨mem_found_discover.mpr (.inl label_found),
    traced.discover (.next (traced.found_arise label label_found) reads)⟩

theorem Traced.insertable (traced : Traced n past linked c) (consistent : n.Consistent)
    (processed : label ∈ past) (reads : s ∈ n.outgoing label) (fresh : (label, s) ∉ linked) :
    (c.discover (n.target label s)).dfa.Declares (.labeled label s) (n.target label s) ∧
      (c.discover (n.target label s)).dfa.table.destinations? (.labeled label s) = none := by
  obtain ⟨label_found, discovered⟩ := traced.discover_target processed reads
  exact ⟨discovered.declares consistent label_found reads (mem_found_discover.mpr (.inr rfl)),
    discovered.absent fresh⟩

theorem Traced.link (traced : Traced n past linked c) (consistent : n.Consistent)
    (processed : label ∈ past) (reads : s ∈ n.outgoing label) (fresh : (label, s) ∉ linked) :
    Traced n past (linked ++ [(label, s)]) (c.link n label s) := by
  obtain ⟨_, discovered⟩ := traced.discover_target processed reads
  obtain ⟨declared, absent⟩ := traced.insertable consistent processed reads fresh
  have target_found : n.target label s ∈ (c.discover (n.target label s)).found :=
    mem_found_discover.mpr (.inr rfl)
  obtain ⟨states, inputs, initial, finals⟩ := Automaton.after_addTransition
    (c.discover (n.target label s)).dfa (.labeled label s) (n.target label s)
  have transitions := Automaton.transitions_after_addTransition declared absent
  refine ⟨traced.toTracked.link n label s, inputs.trans discovered.inputs_same,
    initial.trans discovered.initial_same, finals.trans discovered.finals_none,
    discovered.initial_found, discovered.found_arise, ?_, ?_, ?_⟩
  · intro link member
    rcases List.mem_append.mp member with old | new
    · exact traced.linked_past link old
    · rw [List.mem_singleton.mp new]
      exact processed
  · intro link member
    rcases List.mem_append.mp member with old | new
    · exact discovered.targets_found link old
    · rw [List.mem_singleton.mp new]
      exact target_found
  · rw [List.map_append, ← discovered.transitions_linked]
    exact transitions

theorem Traced.links (traced : Traced n past linked c) (consistent : n.Consistent)
    (processed : label ∈ past) (reads : ∀ s ∈ symbols, s ∈ n.outgoing label)
    (distinct : symbols.Nodup) (fresh : ∀ s ∈ symbols, (label, s) ∉ linked) :
    Traced n past (linked ++ symbols.map (label, ·))
      (symbols.foldl (SubsetConstruction.link n label) c) := by
  induction symbols generalizing c linked with
  | nil => simpa using traced
  | cons s rest ih =>
    obtain ⟨new, distinct⟩ := List.nodup_cons.mp distinct
    have first := traced.link consistent processed (reads s (.head _)) (fresh s (.head _))
    have later : ∀ x ∈ rest, (label, x) ∉ linked ++ [(label, s)] := by
      intro x member again
      rcases List.mem_append.mp again with old | same
      · exact fresh x (.tail _ member) old
      · cases List.mem_singleton.mp same
        exact new member
    have all := ih first (fun x member => reads x (.tail _ member)) distinct later
    rw [List.append_assoc] at all
    exact all

theorem Traced.dequeue {rest : List (SortedSet Q)} (traced : Traced n past linked c)
    (waiting : c.queue = label :: rest) :
    Traced n (past ++ [label]) linked (c.dequeue n label rest) :=
  { traced with
    toTracked := traced.toTracked.dequeue n waiting
    linked_past := fun link member => List.mem_append_left _ (traced.linked_past link member) }

theorem Traced.midway {rest : List (SortedSet Q)} {before after : List S}
    (traced : Traced n past (past.flatMap n.links) c) (consistent : n.Consistent)
    (waiting : c.queue = label :: rest) (split : n.outgoing label = before ++ after) :
    Traced n (past ++ [label]) (past.flatMap n.links ++ before.map (label, ·))
      (before.foldl (SubsetConstruction.link n label) (c.dequeue n label rest)) := by
  have distinct := n.outgoing_nodup label
  rw [split] at distinct
  refine (traced.dequeue waiting).links consistent (by simp) ?_ (List.nodup_append.mp distinct).1 ?_
  · intro s among
    rw [split]
    exact List.mem_append_left _ among
  · intro s _ member
    exact traced.unprocessed waiting (Automaton.mem_flatMap_links.mp member).1

theorem Traced.step {rest : List (SortedSet Q)}
    (traced : Traced n past (past.flatMap n.links) c) (consistent : n.Consistent)
    (waiting : c.queue = label :: rest) (advanced : n.construction.step c = some next) :
    Traced n (past ++ [label]) ((past ++ [label]).flatMap n.links) next := by
  rw [next_of_waiting waiting advanced, List.flatMap_append, List.flatMap_singleton]
  exact traced.midway consistent waiting (List.append_nil _).symm

theorem traced_start (n : Automaton kind Q S) : Traced n [] [] (start n) := by
  have tracked := tracked_start n
  cases initial : n.firstLabel? with
  | none =>
    rw [start_of_none initial] at tracked ⊢
    refine ⟨tracked, ?_, initial.symm, rfl, ?_, nofun, nofun, nofun, rfl⟩
    · exact SortedSet.ofList_toList n.inputs
    · rw [initial]
      nofun
  | some label =>
    rw [start_of_some initial] at tracked ⊢
    refine ⟨tracked, ?_, initial.symm, rfl, ?_, ?_, nofun, nofun, rfl⟩
    · exact SortedSet.ofList_toList n.inputs
    · intro l first
      rw [initial] at first
      cases first
      exact .head _
    · intro l member
      rw [List.mem_singleton.mp member]
      exact .first initial

theorem Stepped.traced (stepped : Stepped n past c) (consistent : n.Consistent) :
    Traced n past (past.flatMap n.links) c := by
  induction stepped with
  | begun => exact traced_start n
  | further _ waiting advanced ih => exact ih.step consistent waiting advanced

theorem traced_run (consistent : n.Consistent) :
    Traced n (n.construction.run (start n)).found
      ((n.construction.run (start n)).found.flatMap n.links) (n.construction.run (start n)) :=
  (stepped_run n).traced consistent

end SubsetConstruction
end FiniteAutomata
