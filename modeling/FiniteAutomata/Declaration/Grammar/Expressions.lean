import FiniteAutomata.Declaration.Grammar.Patterns

/-!
Expressions. An operand is an atom with calls, fields and indices behind it and signs in front;
operators join operands, the stronger ones first.
-/
namespace FiniteAutomata.Declaration.Grammar
open Reader

/-! Operators -/

/-- The binary operators with what they bind like; a longer one comes before its beginnings. -/
def operators : List (String × Precedence) :=
  [("+=", .assign), ("-=", .assign), ("*=", .assign), ("/=", .assign), ("%=", .assign),
   ("^=", .assign), ("&=", .assign), ("|=", .assign), ("<<=", .assign), (">>=", .assign),
   ("&&", .and), ("||", .or), ("<<", .shift), (">>", .shift), ("==", .compare), ("<=", .compare),
   ("!=", .compare), (">=", .compare), ("+", .sum), ("-", .sum), ("*", .product), ("/", .product),
   ("%", .product), ("^", .bitXor), ("&", .bitAnd), ("|", .bitOr), ("<", .compare), (">", .compare)]

def operatorAhead (ts : List Token) : Option (String × Precedence) :=
  operators.find? fun operator => isMarkAhead operator.1 ts

def precedenceAhead (ts : List Token) : Precedence :=
  match operatorAhead ts with
  | some (_, precedence) => precedence
  | none =>
    if isMarkBut "=" ["=>"] ts then .assign
    else if isMarkAhead ".." ts then .range
    else if isWord "as" ts then .cast
    else .least

/-- What stands on the right of an operator: an operand, and what binds to it more strongly than the
operator does. Assignments group to the right. -/
def rightSide (g : Grammar) (allowStruct : Bool) (precedence : Precedence) : Reader Unit := do
  let first ← g.operand allowStruct
  let rec extend (fuel : Nat) (shape : ExpressionShape) : Reader Unit :=
    match fuel with
    | 0 => return
    | fuel + 1 => do
      let before ← ahead
      let next := precedenceAhead before
      if precedence.rank < next.rank || (next = precedence && precedence = .assign) then
        let shape ← g.operation shape allowStruct next
        if (← ahead).length < before.length then extend fuel shape
  extend ((← ahead).length + 1) first

def endsRange (allowStruct : Bool) (ts : List Token) : Bool :=
  ts.isEmpty
    || [",", ";", "?", "=>", "=", "+", "/", "%", "^", ">", "<=", "!=", "-=", "*=", "&=", "|=",
        "<<="].any (isMarkAhead · ts)
    || isMarkBut "." [".."] ts || (!allowStruct && isGroup .curly ts) || isWord "as" ts

def rangeEnd (g : Grammar) (allowStruct : Bool) : Reader Unit := do
  if ← sees (isMarkAhead "..=") then
    takeMarks "..="
    rightSide g allowStruct .range
  else if ← sees (isMarkAhead "...") then noneOf ["`..`", "`..=`"]
  else
    takeMarks ".."
    if !(← sees (endsRange allowStruct)) then rightSide g allowStruct .range

def castFault (ts : List Token) : Option String :=
  let next := ts.drop 1
  if isMarkBut "." [".."] ts then
    if isWord "await" next then some "`.await`"
    else if isIdentifier next && (isGroup .round (ts.drop 2) || isMarkAhead "::" (ts.drop 2)) then
      some "a method call"
    else some "a field access"
  else if isMarkAhead "?" ts then some "`?`"
  else if isGroup .square ts then some "indexing"
  else if isGroup .round ts then some "a function call"
  else none

def operationStep (g : Grammar) (allowStruct : Bool) (base : Precedence) (shape : ExpressionShape) :
    Reader (Option ExpressionShape) := do
  if shape = .range then return none
  let ts ← ahead
  match operatorAhead ts with
  | some (marks, precedence) =>
    if precedence.rank < base.rank then return none
    if precedence = .compare && shape = .comparison then
      throw (.rule "comparison operators cannot be chained" false)
    takeMarks marks
    rightSide g allowStruct precedence
    return some (if precedence = .compare then .comparison else .other)
  | none =>
    if base.rank ≤ Precedence.assign.rank && isMarkBut "=" ["=>"] ts then
      takeMarks "="
      rightSide g allowStruct .assign
      return some .other
    if base.rank ≤ Precedence.range.rank && isMarkAhead ".." ts then
      rangeEnd g allowStruct
      return some .range
    if base.rank ≤ Precedence.cast.rank && isWord "as" ts then
      take
      let _ ← g.type false
      if let some name := castFault (← ahead) then
        throw (.rule ("casts cannot be followed by " ++ name) false)
      return some .other
    return none

def operationRule (g : Grammar) (shape : ExpressionShape) (allowStruct : Bool) (base : Precedence) :
    Reader ExpressionShape := do
  let rec extend (fuel : Nat) (shape : ExpressionShape) : Reader ExpressionShape :=
    match fuel with
    | 0 => return shape
    | fuel + 1 => do
      match ← operationStep g allowStruct base shape with
      | some shape => extend fuel shape
      | none => return shape
  extend ((← ahead).length + 1) shape

/-! Closures -/

def closureParameter (g : Grammar) : Reader Unit := do
  outerAttributes g
  g.pattern
  if ← takeMarksIf ":" then
    let _ ← g.type true

def closure (g : Grammar) (allowStruct : Bool) : Reader Unit := do
  let _ ← binder g (anyBound g)
  for name in ["const", "static", "async", "move"] do
    let _ ← takeIf (isWord name)
  takeMarks "|"
  whileTaking do
    if ← sees (isMarkAhead "|") then return false
    closureParameter g
    if ← sees (isMarkAhead "|") then return false
    takeMarks ","
    return true
  takeMarks "|"
  if ← takeMarksIf "->" then
    let _ ← g.type true
    block g
  else
    let _ ← g.expression allowStruct

def startsClosure (ts : List Token) : Bool :=
  let next := ts.drop 1
  isMarkAhead "|" ts || isWord "move" ts || isWord "static" ts
    || (isWord "for" ts && isMarkAhead "<" next
        && (isLifetime (ts.drop 2) || isMarkAhead ">" (ts.drop 2)))
    || (isWord "const" ts && !isGroup .curly next)
    || (isWord "async" ts && (isMarkAhead "|" next || isWord "move" next))

/-! Control -/

def startsExpression (ts : List Token) : Bool :=
  (isAnyWord ts && !isWord "as" ts) || isGroup .round ts || isGroup .square ts || isGroup .curly ts
    || isLiteral ts || isMarkBut "!" ["!="] ts || isMarkBut "-" ["-=", "->"] ts
    || isMarkBut "*" ["*="] ts || isMarkBut "|" ["|="] ts || isMarkBut "&" ["&="] ts
    || isMarkAhead ".." ts || isMarkBut "<" ["<=", "<<="] ts || isMarkAhead "::" ts
    || isLifetime ts || isMarkAhead "#" ts

/-- A condition or a subject, behind which a brace opens a block. -/
def subject (g : Grammar) : Reader Unit := do
  let _ ← g.expression false

def ifExpression (g : Grammar) : Reader Unit := do
  takeWord "if"
  subject g
  block g
  whileTaking do
    if !(← takeIf (isWord "else")) then return false
    if ← takeIf (isWord "if") then
      subject g
      block g
      return true
    if ← sees (isGroup .curly) then block g
    else noneOf ["`if`", "curly braces"]
    return false

def whileLoop (g : Grammar) : Reader Unit := do
  takeWord "while"
  subject g
  block g

def forLoop (g : Grammar) : Reader Unit := do
  takeWord "for"
  alternatives g
  takeWord "in"
  subject g
  block g

def labeled (g : Grammar) : Reader Unit := do
  take
  takeMarks ":"
  let ts ← ahead
  if isWord "while" ts then whileLoop g
  else if isWord "for" ts then forLoop g
  else if isWord "loop" ts then
    take
    block g
  else if isGroup .curly ts then block g
  else throw (.rule "expected loop or block expression" ts.isEmpty)

def matchArms (g : Grammar) : Reader Unit := do
  innerAttributes g
  whileTaking do
    if ← atEnd then return false
    outerAttributes g
    alternatives g
    if ← takeIf (isWord "if") then
      let _ ← g.expression true
    takeMarks "=>"
    let shape ← g.bounded
    if shape ≠ .block && !(← atEnd) then
      takeMarks ","
    else
      let _ ← takeMarksIf ","
    return true

def startsBlock (ts : List Token) : Bool :=
  isOneOf ["if", "while", "loop", "match", "unsafe"] ts || (isWord "for" ts && !startsClosure ts)
    || (isOneOf ["try", "const"] ts && isGroup .curly (ts.drop 1)) || isGroup .curly ts
    || isLifetime ts

def blockExpression (g : Grammar) : Reader Unit := do
  let ts ← ahead
  if isWord "if" ts then ifExpression g
  else if isWord "while" ts then whileLoop g
  else if isWord "for" ts then forLoop g
  else if isWord "match" ts then
    take
    subject g
    inGroup .curly (matchArms g)
  else if isLifetime ts then labeled g
  else
    if !isGroup .curly ts then take
    block g

/-! Atoms -/

def structField (g : Grammar) : Reader Unit := do
  outerAttributes g
  let isNamed ← member
  if !isNamed || (← sees (isMarkAhead ":")) then
    takeMarks ":"
    let _ ← g.expression true

def structFields (g : Grammar) : Reader Unit :=
  whileTaking do
    if ← atEnd then return false
    if ← takeMarksIf ".." then
      if !(← atEnd) then
        let _ ← g.expression true
      return false
    structField g
    if ← atEnd then return false
    takeMarks ","
    return true

def pathExpression (g : Grammar) (allowStruct : Bool) : Reader ExpressionShape := do
  let p ← qualifiedPath g (anyBound g) .expression
  if !p.isQualified && p.isPlain && (← sees (isMarkBut "!" ["!="])) then
    takeMarks "!"
    return .invocation (← takeGroup)
  if allowStruct && (← sees (isGroup .curly)) then inGroup .curly (structFields g)
  return .other

def squareItems (g : Grammar) : Reader Unit := do
  if ← atEnd then return
  let _ ← g.expression true
  if ← atEnd then return
  if ← sees (isMarkAhead ",") then
    takeMarks ","
    commaSeparated do let _ ← g.expression true
  else if ← takeMarksIf ";" then
    let _ ← g.expression true
  else throw (.rule "expected `,` or `;`" false)

def jumpValue (g : Grammar) (allowStruct : Bool) : Reader Unit := do
  if ← sees fun ts => startsExpression ts && (allowStruct || !isGroup .curly ts) then
    let _ ← g.expression allowStruct

def atom (g : Grammar) (allowStruct : Bool) : Reader ExpressionShape := do
  let ts ← ahead
  let next := ts.drop 1
  if isLiteral ts then
    takeLiteral
    return .other
  else if isWord "async" ts
      && (isGroup .curly next || (isWord "move" next && isGroup .curly (ts.drop 2))) then
    take
    let _ ← takeIf (isWord "move")
    block g
    return .other
  else if startsClosure ts then
    closure g allowStruct
    return .other
  else if isIdentifier ts || isMarkAhead "::" ts || isMarkAhead "<" ts
      || isOneOf ["self", "Self", "super", "crate"] ts
      || (isWord "try" ts && (isMarkAhead "!" next || isMarkAhead "::" next)) then
    pathExpression g allowStruct
  else if isGroup .round ts then
    inGroup .round (commaSeparated do let _ ← g.expression true)
    return .other
  else if isWord "break" ts then
    take
    if ← sees fun ts => isLifetime ts && isMarkBut ":" ["::"] (ts.drop 1) then
      throw (.rule "parentheses required" false)
    let _ ← takeIf isLifetime
    jumpValue g allowStruct
    return .other
  else if isWord "continue" ts then
    take
    let _ ← takeIf isLifetime
    return .other
  else if isOneOf ["return", "become", "yield"] ts then
    take
    jumpValue g true
    return .other
  else if isGroup .square ts then
    inGroup .square (squareItems g)
    return .other
  else if isWord "let" ts then
    take
    alternatives g
    takeMarks "="
    let first ← g.operand allowStruct
    let _ ← g.operation first allowStruct .compare
    return .other
  else if isMarkAhead ".." ts then
    rangeEnd g allowStruct
    return .range
  else if isWord "_" ts then
    take
    return .other
  else if startsBlock ts then
    blockExpression g
    return .block
  else throw (.expression ts.isEmpty)

/-! Operands -/

def fieldNumber (text : String) : List Token :=
  let digits := (text.toList.filter Char.isDigit).dropWhile (· = '0')
  [.literal (if digits.isEmpty then "0" else String.ofList digits)]

/-- Fields by their numbers, which together may look like a number with a dot in it. Answers whether
the last dot still waits for a name. -/
def numberedFields (text : String) : Reader Bool := do
  drop 1
  let numbers := text.splitOn "."
  let isOpen := text.endsWith "."
  let numbers := if isOpen then numbers.dropLast else numbers
  let dot : Token := .mark '.' false
  keep (numbers.flatMap fun n => dot :: fieldNumber n)
  if isOpen then keep [dot]
  return isOpen

def memberAccess (g : Grammar) : Reader Unit := do
  if ← takeIf (isWord "await") then return
  let isNamed ← member
  if isNamed then
    let hasArguments ← sees (isMarkAhead "::")
    if hasArguments then
      takeMarks "::"
      let _ ← angleArguments g (anyBound g)
    if hasArguments || (← sees (isGroup .round)) then
      inGroup .round (commaSeparated do let _ ← g.expression true)

def trailers (g : Grammar) (shape : ExpressionShape) : Reader ExpressionShape := do
  let rec extend (fuel : Nat) (shape : ExpressionShape) : Reader ExpressionShape :=
    match fuel with
    | 0 => return shape
    | fuel + 1 => do
      let ts ← ahead
      if isGroup .round ts then
        inGroup .round (commaSeparated do let _ ← g.expression true)
        extend fuel .other
      else if isMarkBut "." [".."] ts && shape ≠ .range then
        match ts with
        | _ :: .literal text :: _ =>
          if isNumber text then
            drop 1
            if ← numberedFields text then memberAccess g
            extend fuel .other
          else
            take
            memberAccess g
            extend fuel .other
        | _ =>
          take
          memberAccess g
          extend fuel .other
      else if isGroup .square ts then
        inGroup .square do let _ ← g.expression true
        extend fuel .other
      else if isMarkAhead "?" ts && shape ≠ .range then
        take
        extend fuel .other
      else return shape
  extend ((← ahead).length + 1) shape

def operandRule (g : Grammar) (allowStruct : Bool) : Reader ExpressionShape := do
  outerAttributes g
  let ts ← ahead
  if isMarkAhead "&" ts then
    take
    let next := ts.drop 2
    let isRaw ← takeIf fun ts => isWord "raw" ts && isOneOf ["mut", "const"] next
    let isMutable ← takeIf (isWord "mut")
    if isRaw && !isMutable then takeWord "const"
    let _ ← g.operand allowStruct
    return .other
  else if ["*", "!", "-"].any (isMarkAhead · ts) then
    take
    let _ ← g.operand allowStruct
    return .other
  else trailers g (← atom g allowStruct)

def expressionRule (g : Grammar) (allowStruct : Bool) : Reader ExpressionShape := do
  let first ← g.operand allowStruct
  g.operation first allowStruct .least

/-- An expression that ends with its block, unless a dot or a question mark follows. -/
def boundedRule (g : Grammar) : Reader ExpressionShape := do
  outerAttributes g
  if ← sees startsBlock then
    blockExpression g
    if ← sees fun ts => isMarkBut "." [".."] ts || isMarkAhead "?" ts then
      let shape ← trailers g .block
      g.operation shape true .least
    else return .block
  else
    let first ← g.operand true
    g.operation first true .least

end FiniteAutomata.Declaration.Grammar
