import FiniteAutomata.Automaton.Basic
import FiniteAutomata.SpontaneousMoves

/-!
Running words. An automaton is followed as the set of states it can be in, the frontier. Plain
evaluation takes labeled transitions only; closed evaluation also takes spontaneous moves, before
the first symbol and after every one.
-/
namespace FiniteAutomata

/-- The frontier after a word. Reading ends early once the frontier is empty. -/
def follow [Ordered Q] (advance : SortedSet Q → S → SortedSet Q) (frontier : SortedSet Q) :
    List S → SortedSet Q
  | [] => frontier
  | s :: word => if frontier.isEmpty then frontier else follow advance (advance frontier s) word

namespace Automaton
variable {kind : Kind} [Ordered Q] [Ordered S]

def start (a : Automaton kind Q S) : SortedSet Q := SortedSet.ofList a.initial.toList

def advance (a : Automaton kind Q S) (frontier : SortedSet Q) (s : S) : SortedSet Q :=
  (SortedSet.ofList (frontier.toList.flatMap fun q => (a.table.successors q s).toList)).filter
    (· ∈ a.states)

def accepted (a : Automaton kind Q S) (frontier : SortedSet Q) : SortedSet Q :=
  frontier.filter (· ∈ a.finals)

def frontier (a : Automaton kind Q S) (word : List S) : SortedSet Q := follow a.advance a.start word

/-- The final states in which the word can end; none means that it is rejected. -/
def evaluate (a : Automaton kind Q S) (word : List S) : SortedSet Q := a.accepted (a.frontier word)

def accepts (a : Automaton kind Q S) (word : List S) : Bool := !(a.evaluate word).isEmpty

def moves (a : Automaton kind Q S) : SpontaneousMoves Q := .ofTransitions a.transitions

def close (a : Automaton kind Q S) (frontier : SortedSet Q) : SortedSet Q :=
  (a.moves.closure frontier.toList).filter (· ∈ a.states)

def closedFrontier (a : Automaton kind Q S) (word : List S) : SortedSet Q :=
  follow (fun frontier s => a.close (a.advance frontier s)) (a.close a.start) word

def evaluateClosed (a : Automaton kind Q S) (word : List S) : SortedSet Q :=
  a.accepted (a.closedFrontier word)

def acceptsClosed (a : Automaton kind Q S) (word : List S) : Bool :=
  !(a.evaluateClosed word).isEmpty

def successor? (a : DFA Q S) (q : Q) (s : S) : Option Q :=
  (a.table.destinations? (.labeled q s)).bind SortedSet.min?

end Automaton
end FiniteAutomata
