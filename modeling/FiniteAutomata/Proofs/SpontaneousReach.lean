import FiniteAutomata.SpontaneousMoves
import Mathlib.Logic.Relation

/-!
The closure of a set of states is exactly what spontaneous moves reach from it, so it is the least
set that holds them and that no move leaves. `Search.Valid` is what holds of a running search:
whatever is found is reached, and it either waits or has all its destinations found.
-/
namespace FiniteAutomata

namespace SpontaneousMoves
variable [Ordered Q] {m : SpontaneousMoves Q} {p q : Q} {states : List Q}

def Move (m : SpontaneousMoves Q) (p q : Q) : Prop := (p, q) ∈ m.moves

def Reaches (m : SpontaneousMoves Q) : Q → Q → Prop := Relation.ReflTransGen m.Move

theorem mem_destinations : q ∈ m.destinations p ↔ m.Move p q := by
  simp only [destinations, List.mem_filterMap, Move]
  constructor
  · intro listed
    obtain ⟨⟨source, destination⟩, member, leads⟩ := listed
    split at leads
    · rename_i same
      cases leads
      exact same ▸ member
    · cases leads
  · intro member
    exact ⟨(p, q), member, by simp⟩

omit [Ordered Q] in
theorem move_ofTransitions {transitions : List (Transition Q S)} :
    (ofTransitions transitions).Move p q ↔ ⟨.spontaneous p, q⟩ ∈ transitions := by
  simp only [Move, ofTransitions, List.mem_filterMap]
  constructor
  · intro listed
    obtain ⟨⟨c, r⟩, member, leads⟩ := listed
    cases c with
    | labeled source s => cases leads
    | spontaneous source =>
      cases leads
      exact member
  · intro member
    exact ⟨_, member, rfl⟩

namespace Search
variable {search next : Search Q} {r : Q}

theorem mem_found_visits :
    r ∈ (states.foldl visit search).found ↔ r ∈ search.found ∨ r ∈ states := by
  induction states generalizing search with
  | nil => simp
  | cons q rest ih =>
    rw [List.foldl_cons, ih, visit]
    split
    · grind
    · simp only [SortedSet.mem_insert]
      grind

theorem mem_queue_visits : r ∈ (states.foldl visit search).queue ↔
    r ∈ search.queue ∨ r ∈ states ∧ r ∉ search.found := by
  induction states generalizing search with
  | nil => simp
  | cons q rest ih =>
    rw [List.foldl_cons, ih, visit]
    split
    · grind
    · simp only [SortedSet.mem_insert, List.mem_append]
      grind

/-- What holds of a search that began with `seeds`. -/
structure Valid (m : SpontaneousMoves Q) (seeds : List Q) (search : Search Q) : Prop where
  seeds_found : ∀ q ∈ seeds, q ∈ search.found
  reached : ∀ q ∈ search.found, ∃ p ∈ seeds, m.Reaches p q
  queue_found : ∀ q ∈ search.queue, q ∈ search.found
  expanded : ∀ p ∈ search.found, p ∈ search.queue ∨ ∀ q, m.Move p q → q ∈ search.found

theorem valid_start (m : SpontaneousMoves Q) (seeds : List Q) : Valid m seeds (start seeds) := by
  have found : ∀ q, q ∈ (start seeds).found ↔ q ∈ seeds := by
    intro q
    simp [start, mem_found_visits]
  have queue : ∀ q, q ∈ (start seeds).queue ↔ q ∈ seeds := by
    intro q
    simp [start, mem_queue_visits]
  constructor
  · intro q seed
    exact (found q).mpr seed
  · intro q member
    exact ⟨q, (found q).mp member, .refl⟩
  · intro q waits
    exact (found q).mpr ((queue q).mp waits)
  · intro p member
    exact .inl ((queue p).mpr ((found p).mp member))

theorem valid_step {seeds : List Q} (valid : Valid m seeds search)
    (stepped : m.search.step search = some next) : Valid m seeds next := by
  obtain ⟨q, rest, waiting, rfl⟩ := step_eq_some_iff.mp stepped
  have q_found : q ∈ search.found := valid.queue_found q (by simp [waiting])
  constructor
  · intro r seed
    exact mem_found_visits.mpr (.inl (valid.seeds_found r seed))
  · intro r member
    rcases mem_found_visits.mp member with old | new
    · exact valid.reached r old
    · obtain ⟨p, seed, reaches⟩ := valid.reached q q_found
      exact ⟨p, seed, reaches.tail (mem_destinations.mp new)⟩
  · intro r waits
    rcases mem_queue_visits.mp waits with old | ⟨new, _⟩
    · exact mem_found_visits.mpr (.inl (valid.queue_found r (by simp [waiting, old])))
    · exact mem_found_visits.mpr (.inr new)
  · intro r member
    -- a state found before may be the one expanded just now, a state found now still waits
    by_cases old : r ∈ search.found
    · rcases valid.expanded r old with waits | done
      · rw [waiting, List.mem_cons] at waits
        rcases waits with rfl | waits
        · exact .inr fun d move => mem_found_visits.mpr (.inr (mem_destinations.mpr move))
        · exact .inl (mem_queue_visits.mpr (.inl waits))
      · exact .inr fun d move => mem_found_visits.mpr (.inl (done d move))
    · have new := (mem_found_visits.mp member).resolve_left old
      exact .inl (mem_queue_visits.mpr (.inr ⟨new, old⟩))

theorem valid_run {seeds : List Q} (valid : Valid m seeds search) :
    Valid m seeds (m.search.run search) ∧ (m.search.run search).queue = [] := by
  have stepped : ∀ search next : Search Q, Valid m seeds search →
      m.search.step search = some next → Valid m seeds next :=
    fun _ _ before advanced => valid_step before advanced
  exact ⟨Worklist.run_induction stepped valid, step_eq_none_iff.mp (Worklist.step_run _ _)⟩

end Search

theorem mem_closure : q ∈ m.closure states ↔ ∃ p ∈ states, m.Reaches p q := by
  obtain ⟨valid, empty⟩ := Search.valid_run (Search.valid_start m states)
  constructor
  · exact valid.reached q
  · intro reached
    obtain ⟨p, seed, reaches⟩ := reached
    have closed : ∀ r ∈ m.closure states, ∀ d, m.Move r d → d ∈ m.closure states := by
      intro r member
      apply (valid.expanded r member).resolve_left
      simp [empty]
    induction reaches with
    | refl => exact valid.seeds_found p seed
    | tail _ move ih => exact closed _ ih _ move

theorem closure_eq_empty_iff : m.closure states = ∅ ↔ states = [] := by
  rw [SortedSet.eq_empty_iff]
  constructor
  · intro none
    cases states with
    | nil => rfl
    | cons p rest => exact absurd (mem_closure.mpr ⟨p, by simp, .refl⟩) (none p)
  · intro unseeded q member
    obtain ⟨p, seed, _⟩ := mem_closure.mp member
    rw [unseeded] at seed
    cases seed

end SpontaneousMoves

variable [Ordered Q] {states : List Q} {transitions : List (Transition Q S)} {p q : Q}

def SpontaneouslyReaches (transitions : List (Transition Q S)) : Q → Q → Prop :=
  Relation.ReflTransGen fun p q => ⟨.spontaneous p, q⟩ ∈ transitions

omit [Ordered Q] in
theorem reaches_ofTransitions (transitions : List (Transition Q S)) :
    (SpontaneousMoves.ofTransitions transitions).Reaches = SpontaneouslyReaches transitions := by
  have same : (SpontaneousMoves.ofTransitions transitions).Move =
      fun p q => ⟨.spontaneous p, q⟩ ∈ transitions := by
    funext p q
    exact propext SpontaneousMoves.move_ofTransitions
  unfold SpontaneousMoves.Reaches SpontaneouslyReaches
  rw [same]

theorem mem_spontaneousClosure : q ∈ spontaneousClosure states transitions ↔
    ∃ p ∈ states, SpontaneouslyReaches transitions p q := by
  rw [spontaneousClosure, SpontaneousMoves.mem_closure, reaches_ofTransitions]

omit [Ordered Q] in
theorem SpontaneouslyReaches.inside {inside : Q → Prop}
    (kept : ∀ p q, inside p → ⟨.spontaneous p, q⟩ ∈ transitions → inside q)
    (reaches : SpontaneouslyReaches transitions p q) (start : inside p) : inside q := by
  induction reaches with
  | refl => exact start
  | tail _ move ih => exact kept _ _ ih move

/-- The closure depends on which states and transitions there are, not on how they are listed. -/
theorem spontaneousClosure_congr {others : List Q} {moved : List (Transition Q S)}
    (same : ∀ p, p ∈ others ↔ p ∈ states) (also : ∀ t, t ∈ moved ↔ t ∈ transitions) :
    spontaneousClosure others moved = spontaneousClosure states transitions := by
  apply SortedSet.ext
  intro q
  simp only [mem_spontaneousClosure, SpontaneouslyReaches, same, also]

structure LeastClosed (states : List Q) (transitions : List (Transition Q S))
    (closure : SortedSet Q) : Prop where
  reachable : ∀ q, q ∈ closure ↔ ∃ p ∈ states, SpontaneouslyReaches transitions p q
  holds_states : ∀ p ∈ states, p ∈ closure
  closed : ∀ p q, p ∈ closure → ⟨.spontaneous p, q⟩ ∈ transitions → q ∈ closure
  least : ∀ inside : Q → Prop, (∀ p ∈ states, inside p) →
    (∀ p q, inside p → ⟨.spontaneous p, q⟩ ∈ transitions → inside q) → ∀ q ∈ closure, inside q
  unordered : ∀ others moved, (∀ p, p ∈ others ↔ p ∈ states) → (∀ t, t ∈ moved ↔ t ∈ transitions) →
    spontaneousClosure others moved = closure

/-- One index of the transitions answers every query with the closure, as a search that begins with
the transitions does. -/
theorem spontaneousClosure_leastClosed (transitions : List (Transition Q S)) :
    let index := SpontaneousMoves.ofTransitions transitions
    ∀ states, spontaneousClosure states transitions = index.closure states ∧
      LeastClosed states transitions (index.closure states) := by
  intro index states
  refine ⟨rfl, ?_⟩
  change LeastClosed states transitions (spontaneousClosure states transitions)
  constructor
  · intro q
    exact mem_spontaneousClosure
  · intro p start
    exact mem_spontaneousClosure.mpr ⟨p, start, .refl⟩
  · intro p q member move
    obtain ⟨r, start, reaches⟩ := mem_spontaneousClosure.mp member
    exact mem_spontaneousClosure.mpr ⟨r, start, reaches.tail move⟩
  · intro inside starts kept q member
    obtain ⟨p, start, reaches⟩ := mem_spontaneousClosure.mp member
    exact reaches.inside kept (starts p start)
  · intro others moved same also
    exact spontaneousClosure_congr same also

/-- A cycle, a loop and a repeated move; nothing is reached by the labeled transition. -/
example : (spontaneousClosure [2, 0, 2] [⟨.spontaneous 0, 1⟩, ⟨.labeled 3 'a', 4⟩,
    ⟨.spontaneous 1, 0⟩, ⟨.spontaneous 1, 1⟩, ⟨.spontaneous 0, 1⟩, ⟨.spontaneous 1, 9⟩]).toList =
      [0, 1, 2, 9] := by
  decide +kernel

end FiniteAutomata
