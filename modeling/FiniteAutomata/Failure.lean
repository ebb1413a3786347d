/-!
What an automaton refuses with an error. That something is not declared, or already there, is no
error: it is reported by the edit's truth value.
-/
namespace FiniteAutomata

inductive Failure where
  /-- A DFA was given a spontaneous condition. -/
  | spontaneousMove
  | duplicateCondition
  /-- The symbol of a spontaneous condition was asked for. -/
  | noSymbol
  /-- A conversion found more composite states than it may. -/
  | stateLimitExceeded (limit : Nat)
deriving DecidableEq, Repr

def Failure.message : Failure → String
  | .spontaneousMove => "DFAs do not allow spontaneous moves; build an NFA and convert it instead"
  | .duplicateCondition =>
    "DFAs do not allow two destinations for one condition; build an NFA and convert it instead"
  | .noSymbol => "operation not supported: a spontaneous condition has no symbol"
  | .stateLimitExceeded limit =>
    "subset construction exceeded the limit of " ++ toString limit ++ " states"

end FiniteAutomata
