import FiniteAutomata.Automaton.Basic
import FiniteAutomata.Event

/-!
Edits of automata. An edit answers whether it took effect: it does not if it refers to something
undeclared, adds what is there or removes what is not. Removing a state or a symbol takes the
transitions that touch it along. Only a DFA refuses an edit, and what it is then is part of the
attempt (`Attempt`), not presupposed.
-/
namespace FiniteAutomata

/-- What an edit leaves: the automaton, whether the edit took effect, and what it reported. -/
structure Edited (kind : Kind) (Q S : Type) [Ordered Q] [Ordered S] where
  automaton : Automaton kind Q S
  done : Bool
  events : List (Event Q) := []

/-- What trying an edit leaves that may be refused; there is an automaton then too. -/
structure Attempt (kind : Kind) (Q S : Type) [Ordered Q] [Ordered S] where
  automaton : Automaton kind Q S
  answer : Except Failure Bool
  events : List (Event Q) := []

def Edited.attempt [Ordered Q] [Ordered S] (edited : Edited kind Q S) : Attempt kind Q S :=
  ⟨edited.automaton, .ok edited.done, edited.events⟩

def Attempt.result [Ordered Q] [Ordered S] (attempt : Attempt kind Q S) :
    Except Failure (Edited kind Q S) :=
  attempt.answer.map fun done => ⟨attempt.automaton, done, attempt.events⟩

@[simp] theorem Edited.result_attempt [Ordered Q] [Ordered S] (edited : Edited kind Q S) :
    edited.attempt.result = .ok edited := rfl

namespace Automaton
variable {kind : Kind} [Ordered Q] [Ordered S]

def addState (a : Automaton kind Q S) (q : Q) : Edited kind Q S :=
  ⟨{ a with states := a.states.insert q }, q ∉ a.states, []⟩

def addInput (a : Automaton kind Q S) (s : S) : Edited kind Q S :=
  ⟨{ a with inputs := a.inputs.insert s }, s ∉ a.inputs, []⟩

def touching (a : Automaton kind Q S) (q : Q) : List (Transition Q S) :=
  a.transitions.filter fun t => t.condition.state = q ∨ t.destination = q

def reading (a : Automaton kind Q S) (s : S) : List (Transition Q S) :=
  a.transitions.filter fun t => t.condition.label? = some s

/-- Removes the state and all that touches it. The least state that is left takes the place of a
removed initial state. -/
def removeState (a : Automaton kind Q S) (q : Q) : Edited kind Q S :=
  let (table, removed) := a.table.removeAll (a.touching q)
  let isInitial : Bool := a.initial = some q
  let initial := if isInitial then (a.states.erase q).min? else a.initial
  let states := if removed then a.states.erase q else a.states
  { automaton := { a with states, table, initial, finals := a.finals.erase q }
    done := removed && q ∈ a.states
    events := if isInitial then [.initialRemoved q initial] else [] }

def removeInput (a : Automaton kind Q S) (s : S) : Edited kind Q S :=
  let (table, removed) := a.table.removeAll (a.reading s)
  let inputs := if removed then a.inputs.erase s else a.inputs
  { automaton := { a with inputs, table }
    done := removed && s ∈ a.inputs }

/-- Adds a transition whose ends and symbol are declared. A DFA takes no spontaneous condition and
no condition that already leads somewhere. -/
def addTransition (a : Automaton kind Q S) (c : Condition Q S) (q : Q) : Attempt kind Q S :=
  if kind = .dfa ∧ c.isSpontaneous then ⟨a, .error .spontaneousMove, []⟩
  else if kind = .dfa ∧ (a.table.destinations? c).isSome then ⟨a, .error .duplicateCondition, []⟩
  else if a.Declares c q then
    let (table, added) := a.table.add c q
    ⟨{ a with table }, .ok added, []⟩
  else ⟨a, .ok false, []⟩

def removeTransition (a : Automaton kind Q S) (c : Condition Q S) (q : Q) : Edited kind Q S :=
  let (table, removed) := a.table.remove c q
  ⟨{ a with table }, removed, []⟩

/-- Succeeds on every declared state, also on the one that is initial already. -/
def setInitial (a : Automaton kind Q S) (q : Q) : Edited kind Q S :=
  if q ∈ a.states then ⟨{ a with initial := some q }, true, []⟩ else ⟨a, false, []⟩

def addFinal (a : Automaton kind Q S) (q : Q) : Edited kind Q S :=
  if q ∈ a.states then ⟨{ a with finals := a.finals.insert q }, q ∉ a.finals, []⟩
  else ⟨a, false, []⟩

def removeFinal (a : Automaton kind Q S) (q : Q) : Edited kind Q S :=
  ⟨{ a with finals := a.finals.erase q }, q ∈ a.finals, []⟩

end Automaton

inductive Edit (Q S : Type) where
  | addState (q : Q)
  | removeState (q : Q)
  | addInput (s : S)
  | removeInput (s : S)
  | addTransition (c : Condition Q S) (q : Q)
  | removeTransition (c : Condition Q S) (q : Q)
  | setInitial (q : Q)
  | addFinal (q : Q)
  | removeFinal (q : Q)
deriving DecidableEq, Repr

namespace Automaton
variable {kind : Kind} [Ordered Q] [Ordered S]

def attempt (a : Automaton kind Q S) : Edit Q S → Attempt kind Q S
  | .addState q => (a.addState q).attempt
  | .removeState q => (a.removeState q).attempt
  | .addInput s => (a.addInput s).attempt
  | .removeInput s => (a.removeInput s).attempt
  | .addTransition c q => a.addTransition c q
  | .removeTransition c q => (a.removeTransition c q).attempt
  | .setInitial q => (a.setInitial q).attempt
  | .addFinal q => (a.addFinal q).attempt
  | .removeFinal q => (a.removeFinal q).attempt

def edit (a : Automaton kind Q S) (e : Edit Q S) : Except Failure (Edited kind Q S) :=
  (a.attempt e).result

/-- The automaton after an edit, also after a refused one. -/
def after (a : Automaton kind Q S) (e : Edit Q S) : Automaton kind Q S := (a.attempt e).automaton

def afterAll (a : Automaton kind Q S) (edits : List (Edit Q S)) : Automaton kind Q S :=
  edits.foldl after a

end Automaton
end FiniteAutomata
