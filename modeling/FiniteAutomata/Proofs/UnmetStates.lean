import FiniteAutomata.Proofs.CascadingRemovals
import FiniteAutomata.Proofs.ConversionSteps
import FiniteAutomata.Proofs.Renaming

/-!
States that a conversion never meets. Two automata with the same labels, which read the same and lead
to the same, are converted in the same steps, reports included, with a limit and without
(`Mirrors.convert_eq`, `Mirrors.convertWithin_eq`). A transition that touches a state in no label
leaves no label, so the conversion does not notice whether it is there (`Trimmed.mirrors`).
-/
namespace FiniteAutomata

namespace SubsetConstruction
variable {kind other : Kind} [Ordered Q] [Ordered S] {n : Automaton kind Q S}
  {m : Automaton other Q S} {c : SubsetConstruction Q S} {past : List (SortedSet Q)}

theorem start_of_mirrors (mirrors : Automaton.Mirrors id n m) : start m = start n := by
  have first : m.firstLabel? = n.firstLabel? := by
    rw [mirrors.first, Option.map_id]
    rfl
  cases begins : n.firstLabel? with
  | none => rw [start_of_none begins, start_of_none (first.trans begins), blank, blank, mirrors.inputs]
  | some label => rw [start_of_some begins, start_of_some (first.trans begins), mirrors.inputs]

theorem Stepped.step_of_mirrors (stepped : Stepped n past c)
    (mirrors : Automaton.Mirrors id n m) : m.construction.step c = n.construction.step c := by
  cases waiting : c.queue with
  | nil => rw [step_eq_none_iff.mpr waiting, step_eq_none_iff.mpr waiting]
  | cons label rest =>
    have found : label ∈ n.labels := stepped.label_of_waiting (by simp [waiting])
    have outgoing : m.outgoing label = n.outgoing label := mirrors.outgoing label found
    have linked : ∀ d : SubsetConstruction Q S, ∀ s ∈ n.outgoing label,
        link m label d s = link n label d s := by
      intro d s reads
      have target : m.target label s = n.target label s := mirrors.target label found s reads
      rw [link, link, target]
    rw [step_eq_some_iff.mpr ⟨label, rest, waiting, rfl⟩,
      step_eq_some_iff.mpr ⟨label, rest, waiting, rfl⟩, process, process, dequeue, dequeue,
      outgoing, List.foldl_ext _ _ _ linked]

theorem Stepped.finish_of_mirrors (stepped : Stepped n past c) (mirrors : Automaton.Mirrors id n m) :
    c.finish m = c.finish n := by
  have finals : c.dfa.states.filter (·.meets m.finals) = c.dfa.states.filter (·.meets n.finals) := by
    apply SortedSet.ext
    intro l
    rw [SortedSet.mem_filter, SortedSet.mem_filter, SortedSet.meets_iff, SortedSet.meets_iff]
    refine and_congr_right fun declared => ?_
    have found := (stepped.tracked.states_found l).mp declared
    exact mirrors.finals l (stepped.found_prefix_labels.subset found)
  rw [finish, finish, finals]

end SubsetConstruction

namespace Automaton
open SubsetConstruction
variable {kind other : Kind} [Ordered Q] [Ordered S] {n b : Automaton kind Q S}
  {m : Automaton other Q S} {l : SortedSet Q} {p q : Q} {s : S} {keep : Transition Q S → Bool}

theorem Mirrors.convertWithin_eq (mirrors : Mirrors id n m) (limit : Option Nat) :
    m.convertWithin limit = n.convertWithin limit := by
  have ran : m.construction.runUntil (exceeded? limit) (.start n) =
      n.construction.runUntil (exceeded? limit) (.start n) :=
    Worklist.Taken.begun.runUntil_congr fun _ _ stepped => Stepped.step_of_mirrors stepped mirrors
  rw [convertWithin, convertWithin, start_of_mirrors mirrors, ran]
  cases outcome : n.construction.runUntil (exceeded? limit) (.start n) with
  | error stopped => rfl
  | ok last =>
    obtain ⟨rfl, _⟩ := Worklist.run_of_runUntil outcome
    simp only [(stepped_run n).finish_of_mirrors mirrors]

theorem Mirrors.convert_eq (mirrors : Mirrors id n m) : m.convert = n.convert := by
  have whole := mirrors.convertWithin_eq none
  rw [convertWithin_none, convertWithin_none, Prod.mk.injEq, Except.ok.injEq] at whole
  exact Prod.ext whole.1 whole.2

/-- `b` is `n` without some transitions, none of which leaves a label; what a label holds is final in
both or in neither. -/
structure Trimmed (n b : Automaton kind Q S) (keep : Transition Q S → Bool) : Prop where
  inputs : b.inputs = n.inputs
  initial : b.initial = n.initial
  transitions : b.transitions = n.transitions.filter keep
  kept : ∀ l ∈ n.labels, ∀ t ∈ n.transitions, t.condition.state ∈ l → keep t = true
  finals : ∀ l ∈ n.labels, ∀ q ∈ l, q ∈ b.finals ↔ q ∈ n.finals

theorem Trimmed.listed_iff (trimmed : Trimmed n b keep) (found : l ∈ n.labels)
    (t : Transition Q S) (leaves : t.condition.state ∈ l) : t ∈ b.transitions ↔ t ∈ n.transitions := by
  rw [trimmed.transitions, List.mem_filter]
  exact and_iff_left_of_imp fun listed => trimmed.kept l found t listed leaves

theorem Trimmed.drifts_iff (trimmed : Trimmed n b keep) (consistent : n.Consistent)
    (found : l ∈ n.labels) (inside : p ∈ l) : b.Drifts p q ↔ n.Drifts p q := by
  have arises := (mem_labels consistent).mp found
  constructor
  · have fewer : b.transitions ⊆ n.transitions := by
      rw [trimmed.transitions]
      exact List.filter_subset_self _
    exact Drifts.mono fewer
  · intro drifts
    induction drifts with
    | refl => exact .refl
    | @tail x y before move ih =>
      have leaves : x ∈ l := arises.drifts inside before
      exact ih.tail ((trimmed.listed_iff found ⟨.spontaneous x, y⟩ leaves).mpr move)

theorem Trimmed.firstLabel? (trimmed : Trimmed n b keep) (consistent : n.Consistent) :
    b.firstLabel? = n.firstLabel? := by
  cases initial : n.initial with
  | none => rw [Automaton.firstLabel?, Automaton.firstLabel?, trimmed.initial, initial]; rfl
  | some q₀ =>
    have begins := firstLabel?_of_initial initial
    have found := (mem_labels consistent).mpr (.first begins)
    have inside : q₀ ∈ n.moves.closure [q₀] := (mem_firstLabel? initial begins).mpr .refl
    rw [begins, firstLabel?_of_initial (trimmed.initial.trans initial), Option.some.injEq]
    apply SortedSet.ext
    intro q
    simp only [SpontaneousMoves.mem_closure, reaches_moves, List.mem_singleton, exists_eq_left]
    exact trimmed.drifts_iff consistent found inside

theorem Trimmed.outgoing (trimmed : Trimmed n b keep) (found : l ∈ n.labels) :
    b.outgoing l = n.outgoing l := by
  rw [outgoing_eq, outgoing_eq, trimmed.transitions, List.filterMap_filter]
  congr 1
  apply List.filterMap_congr
  intro t listed
  obtain ⟨c, r⟩ := t
  cases c with
  | spontaneous p => simp [readFrom]
  | labeled p s =>
    by_cases leaves : p ∈ l
    · simp [trimmed.kept l found _ listed leaves]
    · simp [readFrom, leaves]

theorem Trimmed.target (trimmed : Trimmed n b keep) (consistent : n.Consistent)
    (found : l ∈ n.labels) (reads : s ∈ n.outgoing l) : b.target l s = n.target l s := by
  have arises := (mem_labels consistent).mp found
  have next_found := (mem_labels consistent).mpr (arises.next reads)
  apply SortedSet.ext
  intro q
  rw [mem_target, mem_target]
  refine exists_congr fun p => and_congr_right fun inside => exists_congr fun r => ?_
  rw [trimmed.listed_iff found ⟨.labeled p s, r⟩ inside]
  refine and_congr_right fun listed => trimmed.drifts_iff consistent next_found ?_
  exact mem_target.mpr ⟨p, inside, r, listed, .refl⟩

theorem Trimmed.mirrors (trimmed : Trimmed n b keep) (consistent : n.Consistent) :
    Mirrors id n b where
  injective := fun _ _ _ _ same => same
  inputs := trimmed.inputs
  first := by
    rw [trimmed.firstLabel? consistent, Option.map_id]
    rfl
  outgoing := fun _ found => trimmed.outgoing found
  target := fun _ found _ reads => trimmed.target consistent found reads
  finals := fun l found => exists_congr fun q => and_congr_right fun inside =>
    trimmed.finals l found q inside

theorem trimmed_removeState (consistent : n.Consistent) (unmet : ∀ l ∈ n.labels, q ∉ l) :
    Trimmed n (n.removeState q).automaton fun t => t.condition.state ≠ q ∧ t.destination ≠ q := by
  have elsewhere : ∀ l ∈ n.labels, ∀ p ∈ l, p ≠ q := fun l found p inside same =>
    unmet l found (same ▸ inside)
  have left := n.withoutState_removeState q
  refine ⟨left.inputs, left.initial.kept ?_, left.transitions, ?_, ?_⟩
  · intro initial
    have begins := firstLabel?_of_initial initial
    exact unmet _ ((mem_labels consistent).mpr (.first begins))
      ((mem_firstLabel? initial begins).mpr .refl)
  · intro l found t listed leaves
    have arises := (mem_labels consistent).mp found
    rw [decide_eq_true_eq]
    refine ⟨elsewhere l found _ leaves, ?_⟩
    -- the destination is in the label the transition leads to
    obtain ⟨c, r⟩ := t
    cases c with
    | spontaneous p => exact elsewhere l found r (arises.closed leaves listed)
    | labeled p s =>
      have reads : s ∈ n.outgoing l := mem_outgoing.mpr ⟨p, leaves, r, listed⟩
      have next_found := (mem_labels consistent).mpr (arises.next reads)
      exact elsewhere _ next_found r (mem_target.mpr ⟨p, leaves, r, listed, .refl⟩)
  · intro l found p inside
    rw [left.finals]
    exact and_iff_left (elsewhere l found p inside)

/-- A state that is in no label can be removed: the conversion stays what it was, in its result and in
its reports, and so does the conversion within any limit. -/
theorem determinize_removeState_of_unmet (built : n.Built) (q : Q)
    (unmet : ∀ l ∈ n.determinize.states, q ∉ l) :
    let b := n.after (.removeState q)
    b.determinize = n.determinize ∧ b.convert.2 = n.convert.2 ∧
      ∀ limit, b.convertWithin limit = n.convertWithin limit := by
  intro b
  have consistent := built.wellFormed.toConsistent
  have trimmed := trimmed_removeState (q := q) consistent fun l found =>
    unmet l (n.mem_states_determinize.mpr found)
  have mirrors : Mirrors id n b := trimmed.mirrors consistent
  exact ⟨congrArg Prod.fst mirrors.convert_eq, congrArg Prod.snd mirrors.convert_eq,
    mirrors.convertWithin_eq⟩

open Demonstration in
/-- The example with a state that is final, reads two of its letters and has a loop, but that nothing
leads to. -/
def exampleUnmet : EpsilonNFA Nat Char :=
  exampleNfa.afterAll [.addState 4, .addFinal 4, .addTransition (.labeled 4 'n') 0,
    .addTransition (.labeled 4 'a') 4, .addTransition (.spontaneous 4) 2]

open Demonstration in
theorem exampleUnmet_converted_without :
    exampleUnmet.Built ∧ 4 ∈ exampleUnmet.states ∧ (∀ l ∈ exampleUnmet.determinize.states, 4 ∉ l) ∧
      exampleUnmet.after (.removeState 4) = exampleNfa ∧
      exampleNfa.determinize = exampleUnmet.determinize ∧
      exampleNfa.convertWithin (some 3) = exampleUnmet.convertWithin (some 3) := by
  have built : exampleUnmet.Built := exampleNfa_built.afterAll _
  have unmet : ∀ l ∈ exampleUnmet.determinize.states, 4 ∉ l := by decide +kernel
  have removed : exampleUnmet.after (.removeState 4) = exampleNfa := by decide +kernel
  obtain ⟨converted, _, limited⟩ := determinize_removeState_of_unmet built 4 unmet
  rw [removed] at converted limited
  exact ⟨built, by decide +kernel, unmet, removed, converted, limited (some 3)⟩

end Automaton
end FiniteAutomata
