import FiniteAutomata.Failure
import FiniteAutomata.Written

/-!
What triggers a transition: being in a state and reading a symbol, or being in a state alone.
Every labeled condition comes before every spontaneous one.
-/
namespace FiniteAutomata

inductive Condition (Q S : Type) where
  /-- Fires in `state` when `symbol` is read. -/
  | labeled (state : Q) (symbol : S)
  /-- Fires in `state` without reading. -/
  | spontaneous (state : Q)
deriving DecidableEq, Repr

namespace Condition

def ofPair (pair : Q × S) : Condition Q S := .labeled pair.1 pair.2

def state : Condition Q S → Q
  | .labeled q _ => q
  | .spontaneous q => q

def label? : Condition Q S → Option S
  | .labeled _ s => some s
  | .spontaneous _ => none

def symbol : Condition Q S → Except Failure S
  | .labeled _ s => .ok s
  | .spontaneous _ => .error .noSymbol

def isSpontaneous : Condition Q S → Bool
  | .labeled .. => false
  | .spontaneous _ => true

def fires [DecidableEq Q] [DecidableEq S] (c : Condition Q S) (q : Q) (s : S) : Bool :=
  c = .labeled q s

variable [Ordered Q] [Ordered S]

/-- Labeled conditions come before spontaneous ones; then the state decides, then the symbol. -/
instance : Ord (Condition Q S) :=
  ⟨compareLex (compareOn isSpontaneous) (compareLex (compareOn state) (compareOn label?))⟩

instance : Std.TransOrd (Condition Q S) :=
  inferInstanceAs (Std.TransCmp
    (compareLex (compareOn isSpontaneous) (compareLex (compareOn state) (compareOn label?))))

theorem compare_def {c d : Condition Q S} :
    compare c d = (compare c.isSpontaneous d.isSpontaneous).then
      ((compare c.state d.state).then (compare c.label? d.label?)) := rfl

instance : Std.LawfulEqOrd (Condition Q S) where
  eq_of_compare {c d} same := by
    rw [compare_def, Ordering.then_eq_eq, Ordering.then_eq_eq, Std.compare_eq_iff_eq,
      Std.compare_eq_iff_eq, Std.compare_eq_iff_eq] at same
    cases c <;> cases d <;> simp_all [state, label?, isSpontaneous]

instance instOrdered : Ordered (Condition Q S) where
  decEq := inferInstance

def plain [Written Q] [Written S] : Condition Q S → String
  | .labeled q s => "(" ++ Written.plain q ++ ", " ++ Written.plain s ++ ")"
  | .spontaneous q => "(" ++ Written.plain q ++ ", ε)"

end Condition
end FiniteAutomata
