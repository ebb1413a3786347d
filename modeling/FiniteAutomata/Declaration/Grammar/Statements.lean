import FiniteAutomata.Declaration.Grammar.Expressions

/-!
Blocks of statements, and the grammar that reads everything to a given depth. Of a definition inside
a block only the end is found; what it says is not examined.
-/
namespace FiniteAutomata.Declaration.Grammar
open Reader

def isPathToken : Token → Bool
  | .word name => !keywords.contains name || ["super", "self", "Self", "crate"].contains name
  | .mark c _ => c = ':'
  | _ => false

def isBracedInvocation (ts : List Token) : Bool :=
  let path := ts.takeWhile isPathToken
  let next := ts.drop path.length
  let behind := next.drop 2
  path.any (isAnyWord [·]) && isMarkAhead "!" next && isGroup .curly (next.drop 1)
    && !isMarkBut "." [".."] behind && !isMarkAhead "?" behind

def letStatement (g : Grammar) : Reader Unit := do
  takeWord "let"
  g.pattern
  if ← takeMarksIf ":" then
    let _ ← g.type true
  if ← takeMarksIf "=" then
    let shape ← g.expression true
    if shape ≠ .block && shape ≠ .invocation .curly && (← takeIf (isWord "else")) then block g
  takeMarks ";"

def startsConstant (ts : List Token) : Bool :=
  let next := ts.drop 1
  isOneOf ["use", "type"] ts || (isWord "static" ts && (isWord "mut" next || isIdentifier next))
    || (isWord "const" ts && (isIdentifier next || isWord "_" next || isWord "mut" next))

def startsDefinition (ts : List Token) : Bool :=
  let next := ts.drop 1
  startsConstant ts || isOneOf ["pub", "extern", "fn", "mod", "struct", "enum", "trait", "impl"] ts
    || (isWord "crate" ts && !isMarkAhead "::" next)
    || (isOneOf ["unsafe", "async"] ts && isOneOf ["fn", "extern", "unsafe", "impl", "trait"] next)
    || (isWord "const" ts && isOneOf ["fn", "extern", "unsafe", "async"] next)
    || (isWord "union" ts && isIdentifier next)

/-- Takes tokens up to a semicolon or, unless the definition is a constant, a block. -/
def definition : Reader Unit := do
  if ← takeIf (isWord "pub") then
    let _ ← takeIf (isGroup .round)
  let isConstant ← sees startsConstant
  whileTaking do
    let ts ← ahead
    take
    return !(ts.isEmpty || isMarkAhead ";" ts || (!isConstant && isGroup .curly ts))

def statement (g : Grammar) : Reader Bool := do
  let start ← get
  outerAttributes g
  let ts ← ahead
  if isBracedInvocation ts then
    plainPath
    takeMarks "!"
    let _ ← takeGroup
    return false
  if isWord "let" ts then
    letStatement g
    return false
  if startsDefinition ts then
    definition
    return false
  set start
  let shape ← g.bounded
  if ← takeMarksIf ";" then return false
  return shape ≠ .block && shape ≠ .invocation .curly

def statementsRule (g : Grammar) : Reader Unit :=
  whileTaking do
    if ← takeMarksIf ";" then return true
    if ← atEnd then return false
    let isOpen ← statement g
    if ← atEnd then return false
    if isOpen then throw (.rule "unexpected token, expected `;`" false)
    return true

def next (g : Grammar) : Grammar :=
  { type := typeRule g
    expression := expressionRule g
    operand := operandRule g
    operation := operationRule g
    bounded := boundedRule g
    pattern := patternRule g
    statements := statementsRule g }

def ofDepth : Nat → Grammar
  | 0 => exhausted
  | depth + 1 => (ofDepth depth).next

/-- Between two levels of brackets or operators lie only a few levels of the grammar, so this depth
is enough for whatever the tokens hold. -/
def deepEnough (tokens : List Token) : Grammar := ofDepth (8 * (Token.countAll tokens + 2))

end FiniteAutomata.Declaration.Grammar
