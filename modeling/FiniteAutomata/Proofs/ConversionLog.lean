import FiniteAutomata.Proofs.BreadthFirst
import FiniteAutomata.Proofs.StoppedConversion
import FiniteAutomata.Proofs.TableHistory
import Mathlib.Algebra.GroupWithZero.Nat

/-!
What the log of a conversion tells of its result. An event is reported before its step finds or puts
in anything, but a label is processed only once: what it reads at that time are its transitions in
the end, and what is found by then are the first label and the destinations of the labels processed
earlier. So each number in the log can be read off the finished DFA.
-/
namespace FiniteAutomata

def Event.outgoing : Event L → Nat
  | .processing _ symbols _ => symbols
  | .initialRemoved .. | .converted .. | .stopped _ => 0

namespace SubsetConstruction
variable {kind : Kind} [Ordered Q] [Ordered S] {n : Automaton kind Q S}
  {c : SubsetConstruction Q S} {label l : SortedSet Q} {past : List (SortedSet Q)} {i : Nat}

theorem Stepped.reported (stepped : Stepped n past c) (stands : past[i]? = some label) :
    ∃ before rest, Stepped n (past.take i) before ∧ before.queue = label :: rest ∧
      c.events[i]? = some (.processing label (n.outgoing label).length rest.length) := by
  induction stepped with
  | begun => simp at stands
  | @further past rest newest c next before waiting advanced ih =>
    have length := Stepped.length_events before
    rw [events_of_waiting waiting advanced]
    by_cases earlier : i < past.length
    · rw [List.getElem?_append_left earlier] at stands
      rw [List.getElem?_append_left (length ▸ earlier),
        List.take_append_of_le_length (Nat.le_of_lt earlier)]
      exact ih stands
    · obtain ⟨short, _⟩ := List.getElem?_eq_some_iff.mp stands
      have last : i = past.length := by
        rw [List.length_append, List.length_singleton] at short
        omega
      subst last
      rw [List.getElem?_concat_length] at stands
      cases stands
      refine ⟨c, rest, ?_, waiting, ?_⟩
      · rw [List.take_left]
        exact before
      · rw [← length, List.getElem?_concat_length]

theorem Stepped.mem_found (stepped : Stepped n past c) (consistent : n.Consistent) :
    l ∈ c.found ↔ n.firstLabel? = some l ∨ ∃ source ∈ past, l ∈ n.targets source := by
  have traced := stepped.traced consistent
  constructor
  · intro member
    rcases (Automaton.scanned_of_stepped stepped).origin member with first | origin
    · exact .inl first
    · obtain ⟨i, earlier, source, stands, leads⟩ := origin
      rw [traced.found_split, List.getElem?_append_left earlier] at stands
      exact .inr ⟨source, List.mem_of_getElem? stands, leads⟩
  · intro arises
    rcases arises with first | ⟨source, processed, leads⟩
    · exact traced.initial_found l first
    · obtain ⟨s, reads, rfl⟩ := List.mem_map.mp leads
      exact traced.targets_found (source, s)
        (Automaton.mem_flatMap_links.mpr ⟨processed, reads⟩)

theorem Stepped.outgoing_events (stepped : Stepped n past c) :
    c.events.map Event.outgoing = past.map fun label => (n.outgoing label).length := by
  induction stepped with
  | begun => rw [events_start]; rfl
  | further _ waiting advanced ih =>
    rw [events_of_waiting waiting advanced, List.map_append, ih, List.map_append]
    rfl

end SubsetConstruction

namespace Automaton
open SubsetConstruction
variable {kind : Kind} [Ordered Q] [Ordered S] {n : Automaton kind Q S} {l : SortedSet Q}
  {past : List (SortedSet Q)}

def exits (d : DFA Q S) (q : Q) : List (Transition Q S) :=
  d.transitions.filter (·.condition.state = q)

/-- The initial state, and the states that transitions from `past` lead to. -/
def knownFrom (d : DFA Q S) (past : List Q) : SortedSet Q :=
  SortedSet.ofList
    (d.initial.toList ++ past.flatMap fun q => (d.exits q).map Transition.destination)

theorem exits_determinize (consistent : n.Consistent) (found : l ∈ n.labels) :
    n.determinize.exits l = (n.outgoing l).map fun s => ⟨.labeled l s, n.target l s⟩ := by
  have kept : ∀ k, ((n.outgoing k).map fun s => (⟨.labeled k s, n.target k s⟩ :
      Transition (SortedSet Q) S)).filter (·.condition.state = l) =
        if k = l then (n.outgoing k).map fun s => ⟨.labeled k s, n.target k s⟩ else [] := by
    intro k
    by_cases same : k = l <;> simp [List.filter_map, Function.comp_def, Condition.state, same]
  rw [exits, transitions_determinize_flatMap consistent, List.filter_flatMap,
    flatMap_of_single n.labels_nodup found]
  · rw [kept, if_pos rfl]
  · intro k _ differs
    rw [kept, if_neg differs]

theorem destinations_exits_determinize (consistent : n.Consistent) (found : l ∈ n.labels) :
    (n.determinize.exits l).map Transition.destination = n.targets l := by
  rw [exits_determinize consistent found, List.map_map]
  rfl

theorem mem_knownFrom_determinize (consistent : n.Consistent) (processed : past ⊆ n.labels) :
    l ∈ n.determinize.knownFrom past ↔
      n.firstLabel? = some l ∨ ∃ source ∈ past, l ∈ n.targets source := by
  have targets : (past.flatMap fun q => (n.determinize.exits q).map Transition.destination) =
      past.flatMap n.targets :=
    List.flatMap_congr fun q among => destinations_exits_determinize consistent (processed among)
  rw [knownFrom, targets, SortedSet.mem_ofList, List.mem_append, Option.mem_toList,
    initial_determinize consistent, List.mem_flatMap]

/-- What it is for a log to tell the truth about a DFA whose states were processed in this order. -/
structure TruthfulLog (d : DFA Q S) (order : List Q) (log : List (Event Q)) : Prop where
  states : ∀ q, q ∈ order ↔ q ∈ d.states
  once : order.Nodup
  initial_first : order.head? = d.initial
  processed : (Event.processings log).map Event.processed? = order.map some
  reports : ∀ i q, order[i]? = some q → ∃ queued,
    log[i]? = some (.processing q (d.exits q).length queued) ∧
      queued + (i + 1) = (d.knownFrom (order.take i)).size
  closing : log = Event.processings log ++ [.converted d.stateCount d.transitions.length]
  total : (log.map Event.outgoing).sum = d.transitions.length

theorem head?_labels (n : Automaton kind Q S) : n.labels.head? = n.firstLabel? := by
  rw [List.head?_eq_getElem?]
  cases first : n.firstLabel? with
  | none => simp [n.labels_eq_nil_iff.mpr (Option.map_eq_none_iff.mp first)]
  | some l => exact first_label_stands first

theorem length_transitions_determinize (consistent : n.Consistent) :
    n.determinize.transitions.length = (n.labels.map fun l => (n.outgoing l).length).sum := by
  simp [transitions_determinize_flatMap consistent, List.length_flatMap]

theorem size_knownFrom_determinize {c : SubsetConstruction Q S} (stepped : Stepped n past c)
    (consistent : n.Consistent) : (n.determinize.knownFrom past).size = c.found.length := by
  apply SortedSet.size_eq_length_of_nodup stepped.tracked.found_nodup
  intro l
  rw [mem_knownFrom_determinize consistent stepped.prefix_labels.subset,
    stepped.mem_found consistent]

theorem convert_truthfulLog (built : n.Built) :
    ∃ order, n.determinize.TruthfulLog order n.convert.2 := by
  have consistent := built.wellFormed.toConsistent
  have stepped : Stepped n n.labels _ := stepped_run n
  have log : n.convert.2 = (n.construction.run (.start n)).events ++
      [.converted n.determinize.stateCount n.determinize.transitions.length] := by
    rw [transitions, ← Table.size_eq_length]
    rfl
  refine ⟨n.labels, ?_, n.labels_nodup, ?_, ?_, ?_, ?_, ?_⟩
  · intro l
    exact n.mem_states_determinize.symm
  · rw [head?_labels, initial_determinize consistent]
  · rw [processings_convert]
    exact stepped.processed
  · intro i l stands
    obtain ⟨before, rest, earlier, waiting, reported⟩ := stepped.reported stands
    obtain ⟨short, _⟩ := List.getElem?_eq_some_iff.mp reported
    refine ⟨rest.length, ?_, ?_⟩
    · rw [log, List.getElem?_append_left short, reported,
        exits_determinize consistent (List.mem_of_getElem? stands), List.length_map]
    · obtain ⟨within, _⟩ := List.getElem?_eq_some_iff.mp stands
      rw [size_knownFrom_determinize earlier consistent, earlier.tracked.found_split, waiting,
        List.length_append, List.length_take, List.length_cons]
      omega
  · rw [processings_convert]
    exact log
  · rw [log, List.map_append, List.sum_append, stepped.outgoing_events,
      length_transitions_determinize consistent]
    rfl

open Demonstration in
/-- The second label is processed before anything is known of `{3}`, to which it leads. -/
theorem exampleNfa_truthfulLog : exampleNfa.Built ∧
    (∃ order, exampleNfa.determinize.TruthfulLog order exampleNfa.convert.2) ∧
    exampleNfa.convert.2[1]? = some (.processing (.ofList [1, 2]) 4 1) ∧
    exampleNfa.convert.2[4]? = some (.converted 4 10) :=
  ⟨exampleNfa_built, convert_truthfulLog exampleNfa_built, by decide +kernel, by decide +kernel⟩

end Automaton
end FiniteAutomata
