import FiniteAutomata.Declaration.Reader

/-!
What a reader of types and expressions learns about what it has read. A grammar can read whatever is
nested less deeply than some bound; the rules in the other modules build from it one that can read a
level more.
-/
namespace FiniteAutomata.Declaration

inductive ArgumentKind where
  | lifetime
  | type
  | other
deriving DecidableEq, Repr

inductive Arguments where
  | none
  | angle (kinds : List ArgumentKind)
  | round
deriving DecidableEq, Repr

def Arguments.isEmpty : Arguments → Bool
  | .none => true
  | .angle kinds => kinds.isEmpty
  | .round => false

structure PathShape where
  isQualified : Bool
  isGlobal : Bool
  segments : List (String × Arguments)
deriving Repr

def PathShape.isPlain (p : PathShape) : Bool := p.segments.all (·.2 = .none)

inductive TypeShape where
  | path (p : PathShape)
  /-- Bounds without a word in front; `isSingle` if there is one and no plus behind it. -/
  | bounds (isSingle : Bool)
  | other
deriving Repr

/-- Whether the type is an option: a path whose last segment is named so and has one type. -/
def TypeShape.isOption : TypeShape → Bool
  | .path p => p.segments.getLast? = some ("Option", .angle [.type])
  | _ => false

inductive ExpressionShape where
  | range
  | comparison
  /-- Ends with a block, so that nothing need separate it from what follows. -/
  | block
  | invocation (bracket : Bracket)
  | other
deriving DecidableEq, Repr

inductive Precedence where
  | least
  | assign
  | range
  | or
  | and
  | letBinding
  | compare
  | bitOr
  | bitXor
  | bitAnd
  | shift
  | sum
  | product
  | cast
deriving DecidableEq, Repr

def Precedence.rank : Precedence → Nat
  | .least => 0
  | .assign => 1
  | .range => 2
  | .or => 3
  | .and => 4
  | .letBinding => 5
  | .compare => 6
  | .bitOr => 7
  | .bitXor => 8
  | .bitAnd => 9
  | .shift => 10
  | .sum => 11
  | .product => 12
  | .cast => 13

structure Grammar where
  /-- A type; `allowPlus` says whether it may be a sum of bounds. -/
  type : (allowPlus : Bool) → Reader TypeShape
  /-- An expression; `allowStruct` says whether a path may be followed by fields in braces. -/
  expression : (allowStruct : Bool) → Reader ExpressionShape
  operand : (allowStruct : Bool) → Reader ExpressionShape
  /-- What follows an operand that has been read, as far as it binds at least as strongly. -/
  operation : ExpressionShape → (allowStruct : Bool) → Precedence → Reader ExpressionShape
  /-- An expression as a statement or as an arm of a match; one that ends with a block ends there. -/
  bounded : Reader ExpressionShape
  pattern : Reader Unit
  statements : Reader Unit

def Grammar.exhausted : Grammar :=
  let fault : SyntaxFault := .rule "nested too deeply" false
  { type := fun _ => throw fault
    expression := fun _ => throw fault
    operand := fun _ => throw fault
    operation := fun _ _ _ => throw fault
    bounded := throw fault
    pattern := throw fault
    statements := throw fault }

end FiniteAutomata.Declaration
