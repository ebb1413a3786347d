import FiniteAutomata.Worklist

/-!
What a loop over a queue takes. `Taken` relates the elements that some steps took to the state they
lead to, and `trail` is the list of all that a run takes; whatever was taken is the beginning of it,
and a further step is possible just as long as some of it is left.
-/
namespace FiniteAutomata

namespace Worklist
variable {w v : Worklist σ α} {start s next last : σ} {past rest : List α} {x : α}
  {stop : σ → Option ε} {reason : ε}

/-- The state after steps that took these elements from the queue, one in each step. -/
inductive Taken (w : Worklist σ α) (start : σ) : List α → σ → Prop where
  | begun : Taken w start [] start
  | further {past rest : List α} {x : α} {s next : σ} (before : Taken w start past s)
      (waiting : w.queue s = x :: rest) (advanced : w.step s = some next) :
      Taken w start (past ++ [x]) next

theorem Taken.one_more (taken : w.Taken start past s) (advanced : w.step s = some next) :
    ∃ x, w.Taken start (past ++ [x]) next := by
  obtain ⟨x, rest, waiting, _⟩ := step_eq_some_iff.mp advanced
  exact ⟨x, taken.further waiting advanced⟩

theorem Taken.run_eq (taken : w.Taken start past s) : w.run s = w.run start := by
  induction taken with
  | begun => rfl
  | further _ _ advanced ih => rw [← ih, run_of_step advanced]

def trail (w : Worklist σ α) (s : σ) : List α :=
  match _ : w.queue s with
  | [] => []
  | x :: rest => x :: w.trail (w.work s x rest)
termination_by w.weight s
decreasing_by exact w.lighter ‹_›

theorem trail_eq_nil_iff : w.trail s = [] ↔ w.step s = none := by
  rw [step_eq_none_iff]
  cases waiting : w.queue s with
  | nil => rw [trail, waiting]
  | cons x rest =>
    rw [trail, waiting]
    simp

theorem trail_of_waiting (waiting : w.queue s = x :: rest) (advanced : w.step s = some next) :
    w.trail s = x :: w.trail next := by
  obtain ⟨_, _, also, rfl⟩ := step_eq_some_iff.mp advanced
  rw [waiting] at also
  cases also
  rw [trail, waiting]

theorem Taken.trail_eq (taken : w.Taken start past s) : w.trail start = past ++ w.trail s := by
  induction taken with
  | begun => rfl
  | further _ waiting advanced ih =>
    rw [ih, trail_of_waiting waiting advanced, List.append_assoc, List.singleton_append]

theorem Taken.prefix_trail (taken : w.Taken start past s) : past <+: w.trail start := by
  rw [taken.trail_eq]
  exact List.prefix_append past (w.trail s)

theorem Taken.advances_iff (taken : w.Taken start past s) :
    (∃ next, w.step s = some next) ↔ past.length < (w.trail start).length := by
  rw [taken.trail_eq, List.length_append, Nat.lt_add_right_iff_pos, List.length_pos_iff, ne_eq,
    trail_eq_nil_iff, ← ne_eq, Option.ne_none_iff_exists']

theorem Taken.completed (taken : w.Taken start past s) :
    w.Taken start (past ++ w.trail s) (w.run s) := by
  fun_induction run w s generalizing past with
  | case1 s ended =>
    rw [trail_eq_nil_iff.mpr ended, List.append_nil]
    exact taken
  | case2 s next advanced ih =>
    obtain ⟨x, rest, waiting, _⟩ := step_eq_some_iff.mp advanced
    have all := ih (taken.further waiting advanced)
    rwa [List.append_assoc, List.singleton_append, ← trail_of_waiting waiting advanced] at all

theorem taken_run (w : Worklist σ α) (start : σ) : w.Taken start (w.trail start) (w.run start) :=
  Taken.begun.completed

/-- A loop that is given up has made no step, or the last one led to the first reason to stop. -/
theorem Taken.of_stopped (taken : w.Taken start past s)
    (given_up : w.runUntil stop s = .error (reason, last)) : stop last = some reason ∧
      (last = s ∨ ∃ past before, w.Taken start past before ∧ stop before = none ∧
        w.step before = some last) := by
  fun_induction runUntil w stop s generalizing past with
  | case1 s found stopped =>
    cases given_up
    exact ⟨stopped, .inl rfl⟩
  | case2 s _ _ => cases given_up
  | case3 s quiet next advanced ih =>
    obtain ⟨x, further⟩ := taken.one_more advanced
    obtain ⟨stopped, rfl | later⟩ := ih further given_up
    · exact ⟨stopped, .inr ⟨past, s, taken, quiet, advanced⟩⟩
    · exact ⟨stopped, .inr later⟩

/-- Loops whose steps agree wherever the second gets to run alike. -/
theorem Taken.runUntil_congr (taken : w.Taken start past s)
    (same : ∀ past s, w.Taken start past s → v.step s = w.step s) :
    v.runUntil stop s = w.runUntil stop s := by
  have steps := same past s taken
  fun_induction runUntil w stop s generalizing past with
  | case1 s reason stopped => rw [runUntil, stopped]
  | case2 s quiet ended => exact runUntil_of_ended quiet (steps.trans ended)
  | case3 s quiet next advanced ih =>
    obtain ⟨x, further⟩ := taken.one_more advanced
    rw [runUntil_of_step quiet (steps.trans advanced)]
    exact ih further (same _ next further)

end Worklist
end FiniteAutomata
