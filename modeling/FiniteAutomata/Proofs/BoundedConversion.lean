import FiniteAutomata.Proofs.ConvertedParts

/-!
A limited conversion against the unlimited one. Labels are never forgotten, so a run that found too
many never comes back below the limit, and one that ends within it was never stopped.
-/
namespace FiniteAutomata

namespace SubsetConstruction
variable {kind : Kind} [Ordered Q] [Ordered S] {n : Automaton kind Q S}
  {c next : SubsetConstruction Q S} {limit : Option Nat} {k : Nat}

theorem found_prefix_links (n : Automaton kind Q S) (label : SortedSet Q) (symbols : List S)
    (c : SubsetConstruction Q S) : c.found <+: (symbols.foldl (link n label) c).found := by
  rw [found_links]
  exact prefix_foldl_putNew c.found _

theorem found_prefix_step (stepped : n.construction.step c = some next) :
    c.found <+: next.found := by
  obtain ⟨label, rest, _, rfl⟩ := step_eq_some_iff.mp stepped
  exact found_prefix_links n label _ (c.dequeue n label rest)

theorem found_prefix_run (n : Automaton kind Q S) (c : SubsetConstruction Q S) :
    c.found <+: (n.construction.run c).found := by
  have stepped : ∀ d next : SubsetConstruction Q S, c.found <+: d.found →
      n.construction.step d = some next → c.found <+: next.found := by
    intro d next before taken
    exact before.trans (found_prefix_step taken)
  exact Worklist.run_induction stepped List.prefix_rfl

theorem exceeded?_eq_none_iff : exceeded? limit c = none ↔ ∀ k ∈ limit, c.found.length ≤ k := by
  simp [exceeded?, Option.filter_eq_none_iff]

theorem exceeded?_eq_some_iff : exceeded? limit c = some k ↔ k ∈ limit ∧ k < c.found.length := by
  simp [exceeded?, Option.filter_eq_some_iff]

theorem exceeded?_lasting (limit : Option Nat) (c next : SubsetConstruction Q S)
    (exceeded : exceeded? limit c ≠ none) (stepped : n.construction.step c = some next) :
    exceeded? limit next ≠ none := by
  have grown := (found_prefix_step stepped).length_le
  rw [ne_eq, exceeded?_eq_none_iff] at exceeded ⊢
  exact fun small => exceeded fun k allowed => Nat.le_trans grown (small k allowed)

end SubsetConstruction

namespace Automaton
open SubsetConstruction
variable {kind : Kind} [Ordered Q] [Ordered S]

theorem convertWithin_cases (n : Automaton kind Q S) (limit : Option Nat) :
    ((∀ k ∈ limit, n.determinize.stateCount ≤ k) ∧
        n.convertWithin limit = (.ok n.determinize, n.convert.2)) ∨
      ∃ k ∈ limit, k < n.determinize.stateCount ∧ ∃ stopped,
        n.construction.runUntil (exceeded? limit) (.start n) = .error (k, stopped) ∧
          n.convertWithin limit =
            (.error (.stateLimitExceeded k), stopped.events ++ [.stopped stopped.found.length]) := by
  cases reason : exceeded? limit (n.construction.run (.start n)) with
  | none =>
    have completed := (Worklist.runUntil_eq_ok_iff (exceeded?_lasting limit)).mpr ⟨rfl, reason⟩
    left
    constructor
    · rw [stateCount_determinize]
      exact exceeded?_eq_none_iff.mp reason
    · rw [convertWithin, completed]
      rfl
  | some k =>
    obtain ⟨allowed, large⟩ := exceeded?_eq_some_iff.mp reason
    cases outcome : n.construction.runUntil (exceeded? limit) (.start n) with
    | ok last =>
      obtain ⟨rfl, quiet⟩ := Worklist.run_of_runUntil outcome
      rw [reason] at quiet
      cases quiet
    | error given_up =>
      obtain ⟨exceeded, stopped⟩ := given_up
      obtain ⟨found, _⟩ := Worklist.Taken.begun.of_stopped outcome
      obtain rfl := Option.mem_unique (exceeded?_eq_some_iff.mp found).1 allowed
      refine .inr ⟨exceeded, allowed, ?_, stopped, rfl, ?_⟩
      · rw [stateCount_determinize]
        exact large
      · rw [convertWithin, outcome]

theorem convertWithin_none (n : Automaton kind Q S) :
    n.convertWithin none = (.ok n.determinize, n.convert.2) := by
  rcases n.convertWithin_cases none with ⟨_, whole⟩ | ⟨k, allowed, _⟩
  · exact whole
  · cases allowed

theorem convertWithin_eq_ok_iff {limit : Option Nat} {n : Automaton kind Q S}
    {d : DFA (SortedSet Q) S} : (n.convertWithin limit).1 = .ok d ↔
      d = n.determinize ∧ ∀ k ∈ limit, n.determinize.stateCount ≤ k := by
  rcases n.convertWithin_cases limit with ⟨small, whole⟩ | ⟨k, allowed, large, stopped, _, partly⟩
  · rw [whole, Except.ok.injEq]
    constructor
    · intro same
      exact ⟨same.symm, small⟩
    · intro same
      exact same.1.symm
  · rw [partly]
    constructor
    · nofun
    · intro fits
      exact absurd large (Nat.not_lt_of_le (fits.2 k allowed))

theorem convertWithin_eq_error_iff {limit : Option Nat} {n : Automaton kind Q S}
    {failure : Failure} : (n.convertWithin limit).1 = .error failure ↔
      ∃ k ∈ limit, k < n.determinize.stateCount ∧ failure = .stateLimitExceeded k := by
  rcases n.convertWithin_cases limit with ⟨small, whole⟩ | ⟨k, allowed, large, stopped, _, partly⟩
  · rw [whole]
    constructor
    · nofun
    · intro exceeded
      obtain ⟨k, allowed, large, _⟩ := exceeded
      exact absurd large (Nat.not_lt_of_le (small k allowed))
  · rw [partly, Except.error.injEq]
    constructor
    · intro same
      exact ⟨k, allowed, large, same.symm⟩
    · intro exceeded
      obtain ⟨other, also, _, same⟩ := exceeded
      rw [same, Option.mem_unique also allowed]

theorem labels_eq_nil_iff (n : Automaton kind Q S) : n.labels = [] ↔ n.initial = none := by
  have grown : (SubsetConstruction.start n).found <+: n.labels := found_prefix_run n (.start n)
  cases first : n.firstLabel? with
  | none =>
    have ended : n.construction.step (.start n) = none := by
      rw [start_of_none first]
      rfl
    have nothing : n.labels = [] := by
      rw [labels, Worklist.run_of_ended ended, start_of_none first]
      rfl
    simp [nothing, Option.map_eq_none_iff.mp first]
  | some label =>
    obtain ⟨q, initial, _⟩ := Option.map_eq_some_iff.mp first
    rw [start_of_some first] at grown
    have found : label ∈ n.labels := grown.subset (.head _)
    simp [List.ne_nil_of_mem found, initial]

/-- A conversion within a limit gives the DFA of the unlimited one if that has no more states than
the limit allows, and is refused if it has more. -/
theorem convertWithin_iff (n : Automaton kind Q S) (limit : Option Nat) :
    (∀ d, (n.convertWithin limit).1 = .ok d ↔
        d = n.determinize ∧ ∀ k ∈ limit, n.determinize.stateCount ≤ k) ∧
      (∀ failure, (n.convertWithin limit).1 = .error failure ↔
        ∃ k ∈ limit, k < n.determinize.stateCount ∧ failure = .stateLimitExceeded k) ∧
      ((∃ d, (n.convertWithin (some 0)).1 = .ok d) ↔ n.initial = none) := by
  refine ⟨?_, ?_, ?_⟩
  · intro d
    exact convertWithin_eq_ok_iff
  · intro failure
    exact convertWithin_eq_error_iff
  · rw [← labels_eq_nil_iff, ← List.length_eq_zero_iff, ← stateCount_determinize]
    constructor
    · intro succeeds
      obtain ⟨d, made⟩ := succeeds
      exact Nat.le_zero.mp ((convertWithin_eq_ok_iff.mp made).2 0 rfl)
    · intro empty
      refine ⟨n.determinize, convertWithin_eq_ok_iff.mpr ⟨rfl, ?_⟩⟩
      rintro _ ⟨⟩
      exact Nat.le_of_eq empty

end Automaton
end FiniteAutomata
