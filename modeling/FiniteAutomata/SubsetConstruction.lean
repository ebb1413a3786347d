import FiniteAutomata.Automaton.Edit
import FiniteAutomata.Automaton.Evaluation
import FiniteAutomata.Sublists

/-!
Converting an NFA into a DFA whose labels are the sets of states the NFA can be in at one time.
Labels are processed in the order in which they are found, so only labels that some word reaches
are created, and a missing transition rejects. The construction ends because there are finitely
many sets of states; `weight_process` says that each step brings the end nearer.
-/
namespace FiniteAutomata

namespace Automaton
variable {kind : Kind} [Ordered Q] [Ordered S]

/-- What a state of the label can read, with the destination, in the order of the transitions. -/
def leaving (n : Automaton kind Q S) (label : SortedSet Q) : List (S × Q) :=
  n.transitions.filterMap fun t => match t.condition with
    | .labeled q s => if q ∈ label then some (s, t.destination) else none
    | .spontaneous _ => none

/-- The symbols a label can read, in the order in which they first appear. -/
def outgoing (n : Automaton kind Q S) (label : SortedSet Q) : List S :=
  ((n.leaving label).map Prod.fst).eraseDups

def target (n : Automaton kind Q S) (label : SortedSet Q) (s : S) : SortedSet Q :=
  n.moves.closure (((n.leaving label).filter (·.1 = s)).map Prod.snd)

def reachable (n : Automaton kind Q S) : SortedSet Q :=
  SortedSet.ofList (n.transitions.map Transition.destination)

theorem target_subset (n : Automaton kind Q S) (label : SortedSet Q) (s : S) :
    n.target label s ⊆ n.reachable := by
  refine SpontaneousMoves.Search.run_within (fun move member => ?_) _
    (SpontaneousMoves.Search.start_within fun q member => ?_)
  · simp only [moves, SpontaneousMoves.ofTransitions, List.mem_filterMap] at member
    obtain ⟨t, among, leads⟩ := member
    split at leads
    · cases leads
    · cases leads
      exact SortedSet.mem_ofList.mpr (List.mem_map.mpr ⟨t, among, rfl⟩)
  · simp only [leaving, List.mem_map, List.mem_filter, List.mem_filterMap] at member
    obtain ⟨pair, ⟨⟨t, among, leads⟩, _⟩, rfl⟩ := member
    refine SortedSet.mem_ofList.mpr (List.mem_map.mpr ⟨t, among, ?_⟩)
    split at leads
    · split at leads
      · cases leads
        rfl
      · cases leads
    · cases leads

end Automaton

/-- A running construction: the labels found, in the order in which they were, those of them that
are not processed yet, the DFA so far and what was reported. -/
structure SubsetConstruction (Q S : Type) [Ordered Q] [Ordered S] where
  found : List (SortedSet Q)
  queue : List (SortedSet Q)
  dfa : DFA (SortedSet Q) S
  events : List (Event (SortedSet Q))

namespace SubsetConstruction
variable {kind : Kind} [Ordered Q] [Ordered S]

def discover (c : SubsetConstruction Q S) (label : SortedSet Q) : SubsetConstruction Q S :=
  if label ∈ c.found then c
  else { c with
    found := c.found ++ [label]
    queue := c.queue ++ [label]
    dfa := (c.dfa.addState label).automaton }

def blank (n : Automaton kind Q S) : SubsetConstruction Q S :=
  ⟨[], [], .withInputs n.inputs.toList, []⟩

/-- The first label is the closure of the initial state; without one there is no label at all. -/
def start (n : Automaton kind Q S) : SubsetConstruction Q S :=
  match n.initial with
  | none => blank n
  | some q =>
    let label := n.moves.closure [q]
    let c := (blank n).discover label
    { c with dfa := (c.dfa.setInitial label).automaton }

def link (n : Automaton kind Q S) (label : SortedSet Q) (c : SubsetConstruction Q S) (s : S) :
    SubsetConstruction Q S :=
  let target := n.target label s
  let c := c.discover target
  { c with dfa := c.dfa.after (.addTransition (.labeled label s) target) }

def dequeue (n : Automaton kind Q S) (c : SubsetConstruction Q S) (label : SortedSet Q)
    (rest : List (SortedSet Q)) : SubsetConstruction Q S :=
  { c with
    queue := rest
    events := c.events ++ [.processing label (n.outgoing label).length rest.length] }

def process (n : Automaton kind Q S) (c : SubsetConstruction Q S) (label : SortedSet Q)
    (rest : List (SortedSet Q)) : SubsetConstruction Q S :=
  (n.outgoing label).foldl (link n label) (c.dequeue n label rest)

def pending (n : Automaton kind Q S) (c : SubsetConstruction Q S) : List (List Q) :=
  (SortedSet.sublists n.reachable.toList).filter fun l => ∀ label ∈ c.found, label.toList ≠ l

def weight (n : Automaton kind Q S) (c : SubsetConstruction Q S) : Nat :=
  2 * (c.pending n).length + c.queue.length

theorem weight_discover (n : Automaton kind Q S) (c : SubsetConstruction Q S)
    {label : SortedSet Q} (inside : label ⊆ n.reachable) :
    (c.discover label).weight n ≤ c.weight n := by
  unfold discover
  split
  · exact Nat.le_refl _
  · rename_i new
    have unlisted : ∀ other ∈ c.found, other.toList ≠ label.toList := fun other old same =>
      new (SortedSet.toList_inj.mp same ▸ old)
    have fewer : ((c.pending n).filter (label.toList ≠ ·)).length < (c.pending n).length :=
      List.length_filter_lt_length_iff_exists.mpr
        ⟨label.toList, List.mem_filter.mpr
          ⟨SortedSet.mem_sublists_of_subset inside, by simpa using unlisted⟩, by simp⟩
    have split : pending n { c with
        found := c.found ++ [label]
        queue := c.queue ++ [label]
        dfa := (c.dfa.addState label).automaton } =
        (c.pending n).filter (label.toList ≠ ·) := by
      simp only [pending, List.filter_filter]
      congr 1
      funext l
      simp [or_imp, forall_and, and_comm]
    simp only [weight, split, List.length_append, List.length_singleton]
    omega

theorem weight_links (n : Automaton kind Q S) (label : SortedSet Q) (symbols : List S)
    (c : SubsetConstruction Q S) : (symbols.foldl (link n label) c).weight n ≤ c.weight n := by
  induction symbols generalizing c with
  | nil => exact Nat.le_refl _
  | cons s rest ih =>
    exact Nat.le_trans (ih _) (weight_discover n c (n.target_subset label s))

theorem weight_process (n : Automaton kind Q S) {c : SubsetConstruction Q S} {label : SortedSet Q}
    {rest : List (SortedSet Q)} (waiting : c.queue = label :: rest) :
    (c.process n label rest).weight n < c.weight n := by
  have shorter : (c.dequeue n label rest).weight n < c.weight n := by
    have same : (c.dequeue n label rest).pending n = c.pending n := rfl
    have left : (c.dequeue n label rest).queue = rest := rfl
    rw [weight, weight, same, left, waiting, List.length_cons]
    omega
  exact Nat.lt_of_le_of_lt (weight_links n label _ _) shorter

def exceeded? (limit : Option Nat) (c : SubsetConstruction Q S) : Option Nat :=
  limit.filter (· < c.found.length)

def finish (n : Automaton kind Q S) (c : SubsetConstruction Q S) :
    DFA (SortedSet Q) S × List (Event (SortedSet Q)) :=
  let dfa := { c.dfa with finals := c.dfa.states.filter (·.meets n.finals) }
  (dfa, c.events ++ [.converted dfa.stateCount dfa.table.size])

end SubsetConstruction

namespace Automaton
variable {kind : Kind} [Ordered Q] [Ordered S]

def construction (n : Automaton kind Q S) :
    Worklist (SubsetConstruction Q S) (SortedSet Q) where
  queue := SubsetConstruction.queue
  work := SubsetConstruction.process n
  weight := SubsetConstruction.weight n
  lighter := SubsetConstruction.weight_process n

def convert (n : Automaton kind Q S) : DFA (SortedSet Q) S × List (Event (SortedSet Q)) :=
  (n.construction.run (.start n)).finish n

def determinize (n : Automaton kind Q S) : DFA (SortedSet Q) S := n.convert.1

/-- The same conversion, given up once more labels are found than a limit allows. -/
def convertWithin (n : Automaton kind Q S) (limit : Option Nat) :
    Except Failure (DFA (SortedSet Q) S) × List (Event (SortedSet Q)) :=
  match n.construction.runUntil (SubsetConstruction.exceeded? limit) (.start n) with
  | .ok c => let (dfa, events) := c.finish n; (.ok dfa, events)
  | .error (k, c) => (.error (.stateLimitExceeded k), c.events ++ [.stopped c.found.length])

end Automaton
end FiniteAutomata
