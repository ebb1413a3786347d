/-!
Loops over a queue. A step takes the element that waits longest and works on it, which may queue
others; the loop ends when none waits. A weight that every step lowers makes it a total function.
-/
namespace FiniteAutomata

/-- `work` makes the next state from an element taken from the queue and those left behind it. -/
structure Worklist (σ α : Type) where
  queue : σ → List α
  work : σ → α → List α → σ
  weight : σ → Nat
  lighter : ∀ {s x rest}, queue s = x :: rest → weight (work s x rest) < weight s

namespace Worklist
variable {w : Worklist σ α} {s next : σ}

def step (w : Worklist σ α) (s : σ) : Option σ :=
  match w.queue s with
  | [] => none
  | x :: rest => some (w.work s x rest)

theorem step_eq_some_iff :
    w.step s = some next ↔ ∃ x rest, w.queue s = x :: rest ∧ next = w.work s x rest := by
  unfold step
  split
  · rename_i empty
    simp [empty]
  · rename_i x rest waiting
    simp only [waiting, Option.some.injEq, List.cons.injEq]
    constructor
    · intro same
      exact ⟨x, rest, ⟨rfl, rfl⟩, same.symm⟩
    · intro taken
      obtain ⟨_, _, ⟨rfl, rfl⟩, same⟩ := taken
      exact same.symm

theorem step_eq_none_iff : w.step s = none ↔ w.queue s = [] := by
  unfold step
  split <;> simp_all

theorem weight_step (stepped : w.step s = some next) : w.weight next < w.weight s := by
  obtain ⟨x, rest, waiting, rfl⟩ := step_eq_some_iff.mp stepped
  exact w.lighter waiting

def run (w : Worklist σ α) (s : σ) : σ :=
  match _ : w.step s with
  | none => s
  | some next => w.run next
termination_by w.weight s
decreasing_by exact weight_step ‹_›

/-- The same loop, given up with the state it is in as soon as there is a reason to stop. -/
def runUntil (w : Worklist σ α) (stop : σ → Option ε) (s : σ) : Except (ε × σ) σ :=
  match stop s with
  | some reason => .error (reason, s)
  | none =>
    match _ : w.step s with
    | none => .ok s
    | some next => w.runUntil stop next
termination_by w.weight s
decreasing_by exact weight_step ‹_›

theorem run_of_ended (ended : w.step s = none) : w.run s = s := by
  rw [run, ended]

theorem run_of_step (stepped : w.step s = some next) : w.run s = w.run next := by
  rw [run, stepped]

theorem step_run (w : Worklist σ α) (s : σ) : w.step (w.run s) = none := by
  fun_induction run w s with
  | case1 s ended => exact ended
  | case2 s next _ ih => exact ih

theorem run_induction {motive : σ → Prop}
    (stepped : ∀ s next, motive s → w.step s = some next → motive next) (began : motive s) :
    motive (w.run s) := by
  fun_induction run w s with
  | case1 s _ => exact began
  | case2 s next advanced ih => exact ih (stepped s next began advanced)

variable {stop : σ → Option ε} {last : σ}

theorem runUntil_of_ended (quiet : stop s = none) (ended : w.step s = none) :
    w.runUntil stop s = .ok s := by
  rw [runUntil, quiet, ended]

theorem runUntil_of_step (quiet : stop s = none) (stepped : w.step s = some next) :
    w.runUntil stop s = w.runUntil stop next := by
  rw [runUntil, quiet, stepped]

theorem run_of_runUntil (completed : w.runUntil stop s = .ok last) :
    last = w.run s ∧ stop last = none := by
  fun_induction runUntil w stop s with
  | case1 => cases completed
  | case2 s quiet ended =>
    cases completed
    exact ⟨(run_of_ended ended).symm, quiet⟩
  | case3 s _ next stepped ih =>
    rw [run_of_step stepped]
    exact ih completed

/-- Where a reason to stop never goes away, it is enough to look for one in the end. -/
theorem runUntil_eq_ok_iff
    (lasting : ∀ s next, stop s ≠ none → w.step s = some next → stop next ≠ none) :
    w.runUntil stop s = .ok last ↔ last = w.run s ∧ stop (w.run s) = none := by
  constructor
  · intro completed
    obtain ⟨rfl, quiet⟩ := run_of_runUntil completed
    exact ⟨rfl, quiet⟩
  · rintro ⟨rfl, quiet⟩
    fun_induction runUntil w stop s with
    | case1 s reason stopped =>
      have reasons : stop s ≠ none := by simp [stopped]
      exact absurd quiet (run_induction lasting reasons)
    | case2 s _ ended => rw [run_of_ended ended]
    | case3 s _ next stepped ih =>
      rw [run_of_step stepped] at quiet ⊢
      exact ih quiet

end Worklist
end FiniteAutomata
