import FiniteAutomata.Table
import FiniteAutomata.Worklist

/-!
Closing a set of states under spontaneous moves by a search: a state is queued when it is found and
expanded when it leaves the queue. The search ends because every destination is found at most once;
`weight_expand` says that each expansion brings the end nearer.
-/
namespace FiniteAutomata

structure SpontaneousMoves (Q : Type) where
  moves : List (Q × Q)

namespace SpontaneousMoves
variable [Ordered Q]

def ofTransitions (transitions : List (Transition Q S)) : SpontaneousMoves Q :=
  ⟨transitions.filterMap fun t => match t.condition with
    | .labeled .. => none
    | .spontaneous q => some (q, t.destination)⟩

def destinations (m : SpontaneousMoves Q) (q : Q) : List Q :=
  m.moves.filterMap fun (source, destination) => if source = q then some destination else none

/-- A running search: the states found, and those among them that wait to be expanded. -/
structure Search (Q : Type) [Ordered Q] where
  found : SortedSet Q
  queue : List Q

namespace Search

def visit (search : Search Q) (q : Q) : Search Q :=
  if q ∈ search.found then search else ⟨search.found.insert q, search.queue ++ [q]⟩

def start (states : List Q) : Search Q := states.foldl visit ⟨∅, []⟩

def expand (m : SpontaneousMoves Q) (search : Search Q) (q : Q) (rest : List Q) : Search Q :=
  (m.destinations q).foldl visit ⟨search.found, rest⟩

def pending (m : SpontaneousMoves Q) (search : Search Q) : List (Q × Q) :=
  m.moves.filter fun move => move.2 ∉ search.found

def weight (m : SpontaneousMoves Q) (search : Search Q) : Nat :=
  2 * (search.pending m).length + search.queue.length

theorem weight_visit (m : SpontaneousMoves Q) (search : Search Q) {source q : Q}
    (move : (source, q) ∈ m.moves) : (search.visit q).weight m ≤ search.weight m := by
  unfold visit
  split
  · exact Nat.le_refl _
  · rename_i new
    have fewer : (pending m ⟨search.found.insert q, search.queue ++ [q]⟩).length <
        (search.pending m).length := by
      have split : pending m ⟨search.found.insert q, search.queue ++ [q]⟩ =
          (search.pending m).filter (·.2 ≠ q) := by
        simp only [pending, List.filter_filter]
        congr 1
        funext found
        simp
      rw [split]
      exact List.length_filter_lt_length_iff_exists.mpr
        ⟨(source, q), by simp [pending, move, new], by simp⟩
    simp only [weight, List.length_append, List.length_singleton]
    omega

theorem weight_visits (m : SpontaneousMoves Q) {states : List Q}
    (moves : ∀ q ∈ states, ∃ source, (source, q) ∈ m.moves) (search : Search Q) :
    (states.foldl visit search).weight m ≤ search.weight m := by
  induction states generalizing search with
  | nil => exact Nat.le_refl _
  | cons q rest ih =>
    obtain ⟨source, move⟩ := moves q (.head _)
    exact Nat.le_trans (ih (fun r later => moves r (.tail _ later)) _)
      (search.weight_visit m move)

theorem weight_expand (m : SpontaneousMoves Q) {search : Search Q} {q : Q} {rest : List Q}
    (waiting : search.queue = q :: rest) :
    (search.expand m q rest).weight m < search.weight m := by
  refine Nat.lt_of_le_of_lt (weight_visits m (fun r member => ?_) _) ?_
  · simp only [destinations, List.mem_filterMap] at member
    obtain ⟨⟨source, destination⟩, move, leads⟩ := member
    split at leads
    · cases leads
      exact ⟨source, move⟩
    · cases leads
  · simp [weight, waiting, pending]

end Search

def search (m : SpontaneousMoves Q) : Worklist (Search Q) Q where
  queue := Search.queue
  work := Search.expand m
  weight := Search.weight m
  lighter := Search.weight_expand m

namespace Search

theorem step_eq_some_iff {m : SpontaneousMoves Q} {search next : Search Q} :
    m.search.step search = some next ↔
      ∃ q rest, search.queue = q :: rest ∧ next = search.expand m q rest :=
  Worklist.step_eq_some_iff

theorem step_eq_none_iff {m : SpontaneousMoves Q} {search : Search Q} :
    m.search.step search = none ↔ search.queue = [] :=
  Worklist.step_eq_none_iff

theorem visits_within {inside : Q → Prop} {states : List Q} (all : ∀ q ∈ states, inside q)
    {search : Search Q} (before : ∀ q ∈ search.found, inside q) :
    ∀ q ∈ (states.foldl visit search).found, inside q := by
  induction states generalizing search with
  | nil => exact before
  | cons r rest ih =>
    refine ih (fun q later => all q (.tail _ later)) fun q member => ?_
    unfold visit at member
    split at member
    · exact before q member
    · rcases SortedSet.mem_insert.mp member with rfl | old
      · exact all q (.head _)
      · exact before q old

theorem run_within {m : SpontaneousMoves Q} {inside : Q → Prop}
    (kept : ∀ move ∈ m.moves, inside move.2) (search : Search Q)
    (began : ∀ q ∈ search.found, inside q) : ∀ q ∈ (m.search.run search).found, inside q := by
  have stepped : ∀ search next : Search Q, (∀ q ∈ search.found, inside q) →
      m.search.step search = some next → ∀ q ∈ next.found, inside q := by
    intro search next before advanced
    obtain ⟨q, rest, _, rfl⟩ := step_eq_some_iff.mp advanced
    refine visits_within (fun r member => ?_) before
    simp only [destinations, List.mem_filterMap] at member
    obtain ⟨⟨source, destination⟩, move, leads⟩ := member
    split at leads
    · cases leads
      exact kept _ move
    · cases leads
  exact Worklist.run_induction stepped began

theorem start_within {inside : Q → Prop} {states : List Q} (all : ∀ q ∈ states, inside q) :
    ∀ q ∈ (start states).found, inside q :=
  visits_within all (by simp)

end Search

def closure (m : SpontaneousMoves Q) (states : List Q) : SortedSet Q :=
  (m.search.run (.start states)).found

end SpontaneousMoves

/-- The closure under the spontaneous moves among `transitions`; labeled ones play no part. -/
def spontaneousClosure [Ordered Q] (states : List Q) (transitions : List (Transition Q S)) :
    SortedSet Q :=
  (SpontaneousMoves.ofTransitions transitions).closure states

end FiniteAutomata
