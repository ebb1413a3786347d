import FiniteAutomata.LogLevel
import FiniteAutomata.Written

/-!
What automata report while they work: the loss of an initial state, and the course of a conversion,
whose labels are sets of states. An event is part of the result of the work; writing it to a log is
left to the caller.
-/
namespace FiniteAutomata

inductive Event (L : Type) where
  /-- The initial state was removed, and another one, if any was left, took its place. -/
  | initialRemoved (removed : L) (now : Option L)
  /-- A label with its number of outgoing symbols, and the number of labels still queued. -/
  | processing (label : L) (symbols queued : Nat)
  | converted (states transitions : Nat)
  | stopped (states : Nat)
deriving DecidableEq, Repr

namespace Event

def level : Event L → LogLevel
  | .initialRemoved .. => .warn
  | .processing .. => .debug
  | .converted .. => .debug
  | .stopped _ => .warn

open Written in
def message [Written L] : Event L → String
  | .initialRemoved removed now =>
    "removed the initial state " ++ literal removed ++ ", initial state is now "
      ++ literalOption now
  | .processing label symbols queued =>
    "processing " ++ literal label ++ " with " ++ toString symbols ++ " outgoing symbols, "
      ++ toString queued ++ " states queued"
  | .converted states transitions =>
    "subset construction produced " ++ toString states ++ " states and " ++ toString transitions
      ++ " transitions"
  | .stopped states =>
    "subset construction stopped after discovering " ++ toString states ++ " states"

end Event
end FiniteAutomata
