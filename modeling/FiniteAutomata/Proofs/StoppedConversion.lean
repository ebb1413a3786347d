import FiniteAutomata.Proofs.ConversionSteps

/-!
What a conversion within a limit reports. A step reports the label it takes and nothing else, and the
limit only tells when to stop, so what was reported until then is what the whole conversion reports
first. The labels are counted between the steps, and one step can find as many new ones as there are
symbols: that is how far the count goes past the limit, the first label apart, which is never refused
before it is found.
-/
namespace FiniteAutomata

theorem length_foldl_putNew_le [DecidableEq α] (l new : List α) :
    (new.foldl putNew l).length ≤ l.length + new.length := by
  induction new generalizing l with
  | nil => exact Nat.le_refl _
  | cons x rest ih =>
    have one : (putNew l x).length ≤ l.length + 1 := by
      unfold putNew
      split <;> simp
    have others := ih (putNew l x)
    rw [List.foldl_cons, List.length_cons]
    omega

namespace Event

def processed? : Event L → Option L
  | .processing label _ _ => some label
  | .initialRemoved .. | .converted .. | .stopped _ => none

def processings (log : List (Event L)) : List (Event L) := log.filter (·.processed?.isSome)

theorem level_of_processed {event : Event L} (about : event.processed?.isSome = true) :
    event.level = .debug := by
  cases event with
  | processing => rfl
  | _ => cases about

theorem processings_append_last {log : List (Event L)} {last : Event L}
    (all : ∀ event ∈ log, event.processed?.isSome = true) (none : last.processed? = none) :
    processings (log ++ [last]) = log := by
  rw [processings, List.filter_append, List.filter_eq_self.mpr all]
  simp [none]

end Event

theorem Automaton.length_outgoing_le {kind : Kind} [Ordered Q] [Ordered S] {n : Automaton kind Q S}
    (consistent : n.Consistent) (label : SortedSet Q) :
    (n.outgoing label).length ≤ n.inputs.size := by
  apply (n.outgoing_nodup label).length_le_of_subset
  intro s reads
  exact outgoing_declared consistent reads

namespace SubsetConstruction
variable {kind : Kind} [Ordered Q] [Ordered S] {n : Automaton kind Q S}
  {c next stopped : SubsetConstruction Q S} {label : SortedSet Q} {past rest : List (SortedSet Q)}
  {limit : Option Nat} {k : Nat}

theorem events_links (n : Automaton kind Q S) (label : SortedSet Q) (symbols : List S)
    (c : SubsetConstruction Q S) : (symbols.foldl (link n label) c).events = c.events := by
  induction symbols generalizing c with
  | nil => rfl
  | cons s rest ih =>
    have discovered : (c.discover (n.target label s)).events = c.events := by
      unfold discover
      split <;> rfl
    rw [List.foldl_cons, ih]
    exact discovered

theorem events_of_waiting (waiting : c.queue = label :: rest)
    (advanced : n.construction.step c = some next) :
    next.events = c.events ++ [.processing label (n.outgoing label).length rest.length] := by
  rw [next_of_waiting waiting advanced, events_links]
  rfl

theorem length_found_step (consistent : n.Consistent)
    (advanced : n.construction.step c = some next) :
    next.found.length ≤ c.found.length + n.inputs.size := by
  obtain ⟨label, rest, _, rfl⟩ := step_eq_some_iff.mp advanced
  have links := length_foldl_putNew_le c.found ((n.outgoing label).map (n.target label))
  have symbols := Automaton.length_outgoing_le consistent label
  rw [List.length_map] at links
  rw [process, found_links]
  exact Nat.le_trans links (Nat.add_le_add_left symbols _)

theorem events_start (n : Automaton kind Q S) : (start n).events = [] := by
  cases begins : n.firstLabel? with
  | none =>
    rw [start_of_none begins]
    rfl
  | some label => rw [start_of_some begins]

theorem length_found_start (n : Automaton kind Q S) : (start n).found.length ≤ 1 := by
  cases begins : n.firstLabel? with
  | none => simp [start_of_none begins, blank]
  | some label => simp [start_of_some begins]

theorem Stepped.processed (stepped : Stepped n past c) :
    c.events.map Event.processed? = past.map some := by
  induction stepped with
  | begun => rw [events_start]; rfl
  | further _ waiting advanced ih =>
    rw [events_of_waiting waiting advanced, List.map_append, ih, List.map_append]
    rfl

theorem Stepped.processing (stepped : Stepped n past c) :
    ∀ event ∈ c.events, event.processed?.isSome = true := by
  intro event reported
  have listed : event.processed? ∈ past.map some :=
    stepped.processed ▸ List.mem_map_of_mem reported
  obtain ⟨label, _, about⟩ := List.mem_map.mp listed
  rw [← about, Option.isSome_some]

theorem Stepped.length_events (stepped : Stepped n past c) : c.events.length = past.length := by
  simpa using congrArg List.length stepped.processed

theorem events_prefix_run (n : Automaton kind Q S) (c : SubsetConstruction Q S) :
    c.events <+: (n.construction.run c).events := by
  have reported : ∀ d next : SubsetConstruction Q S, c.events <+: d.events →
      n.construction.step d = some next → c.events <+: next.events := by
    intro d next before advanced
    obtain ⟨label, rest, waiting, _⟩ := step_eq_some_iff.mp advanced
    rw [events_of_waiting waiting advanced]
    exact before.trans (List.prefix_append _ _)
  exact Worklist.run_induction reported List.prefix_rfl

theorem Stepped.events_prefix (stepped : Stepped n past c) :
    c.events <+: (n.construction.run (start n)).events := by
  have reported := events_prefix_run n c
  rwa [stepped.run_eq] at reported

/-- A construction that was given up, after as many steps as it reported. -/
structure GivenUp (n : Automaton kind Q S) (limit : Nat) (stopped : SubsetConstruction Q S) :
    Prop where
  stepped : ∃ past, Stepped n past stopped
  within : stopped.events.length ≤ limit
  beyond : limit < stopped.found.length
  overshoot : stopped.found.length ≤ max 1 (limit + n.inputs.size)

theorem givenUp_of_runUntil (consistent : n.Consistent)
    (given_up : n.construction.runUntil (exceeded? limit) (start n) = .error (k, stopped)) :
    GivenUp n k stopped := by
  obtain ⟨exceeded, rfl | later⟩ := Worklist.Taken.begun.of_stopped given_up
  · have found := length_found_start n
    refine ⟨⟨[], .begun⟩, ?_, (exceeded?_eq_some_iff.mp exceeded).2,
      Nat.le_trans found (Nat.le_max_left _ _)⟩
    rw [events_start]
    exact Nat.zero_le k
  · obtain ⟨past, before, stepped, within, advanced⟩ := later
    obtain ⟨allowed, beyond⟩ := exceeded?_eq_some_iff.mp exceeded
    have small := exceeded?_eq_none_iff.mp within k allowed
    obtain ⟨label, rest, waiting, _⟩ := step_eq_some_iff.mp advanced
    have further : Stepped n (past ++ [label]) stopped := stepped.further waiting advanced
    have grown := length_found_step consistent advanced
    -- what the last step took was found before it
    have taken : past.length + 1 ≤ before.found.length := by
      rw [(Stepped.tracked stepped).found_split, waiting, List.length_append, List.length_cons]
      omega
    refine ⟨⟨_, further⟩, ?_, beyond, ?_⟩
    · rw [further.length_events, List.length_append, List.length_singleton]
      exact Nat.le_trans taken small
    · have bounded := Nat.le_trans grown (Nat.add_le_add_right small _)
      exact Nat.le_trans bounded (Nat.le_max_right _ _)

end SubsetConstruction

namespace Automaton
open SubsetConstruction
variable {kind : Kind} [Ordered Q] [Ordered S] {n : Automaton kind Q S}

theorem processings_convert (n : Automaton kind Q S) :
    Event.processings n.convert.2 = (n.construction.run (.start n)).events :=
  Event.processings_append_last (stepped_run n).processing rfl

structure LimitedLog (n : Automaton kind Q S) (limit : Option Nat) : Prop where
  same_steps : Event.processings (n.convertWithin limit).2 <+: Event.processings n.convert.2
  completed : ∀ d, (n.convertWithin limit).1 = .ok d → (n.convertWithin limit).2 = n.convert.2
  stopped : ∀ failure, (n.convertWithin limit).1 = .error failure → ∃ k ∈ limit, ∃ found,
    (n.convertWithin limit).2 = Event.processings (n.convertWithin limit).2 ++ [.stopped found] ∧
      (n.convertWithin limit).2.filter (·.level = .warn) = [.stopped found] ∧
      (Event.processings (n.convertWithin limit).2).length ≤ k ∧
      k < found ∧ found ≤ max 1 (k + n.inputs.size)

/-- A limit changes none of the steps before the conversion is stopped, and the last of them finds at
most one new label for each symbol. -/
theorem convertWithin_limitedLog (built : n.Built) (limit : Option Nat) : n.LimitedLog limit := by
  rcases n.convertWithin_cases limit with
    ⟨_, whole⟩ | ⟨k, allowed, _, stopped, given_up, partly⟩
  · have log : (n.convertWithin limit).2 = n.convert.2 := congrArg Prod.snd whole
    constructor
    · exact log ▸ List.prefix_rfl
    · exact fun _ _ => log
    · intro failure failed
      rw [whole] at failed
      cases failed
  · have ended := givenUp_of_runUntil built.wellFormed.toConsistent given_up
    obtain ⟨past, stepped⟩ := ended.stepped
    have steps : Event.processings (n.convertWithin limit).2 = stopped.events := by
      rw [partly]
      exact Event.processings_append_last stepped.processing rfl
    constructor
    · rw [steps, processings_convert]
      exact stepped.events_prefix
    · intro d made
      rw [partly] at made
      cases made
    · intro failure _
      have quiet : stopped.events.filter (·.level = .warn) = [] := by
        apply List.filter_eq_nil_iff.mpr
        intro event reported
        simp [Event.level_of_processed (stepped.processing event reported)]
      rw [steps]
      refine ⟨k, allowed, stopped.found.length, by rw [partly], ?_, ended.within, ended.beyond,
        ended.overshoot⟩
      rw [partly, List.filter_append, quiet]
      rfl

open Demonstration in
/-- The second step finds a fourth label where three are allowed; without a limit there are two more
steps. -/
theorem exampleNfa_stopped :
    let first : List (Event (SortedSet Nat)) :=
      [.processing (.ofList [0, 3]) 2 0, .processing (.ofList [1, 2]) 4 1]
    exampleNfa.Built ∧ exampleNfa.LimitedLog (some 3) ∧
      (exampleNfa.convertWithin (some 3)).2 = first ++ [.stopped 4] ∧
      Event.processings exampleNfa.convert.2 =
        first ++ [.processing {2} 3 1, .processing {3} 1 0] := by
  intro first
  exact ⟨exampleNfa_built, convertWithin_limitedLog exampleNfa_built (some 3), by decide +kernel,
    by decide +kernel⟩

end Automaton
end FiniteAutomata
