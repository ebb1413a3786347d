import FiniteAutomata.Declaration.Grammar.Types

/-!
Patterns, as they stand in closures, in the arms of a match and behind `let` and `for`.
-/
namespace FiniteAutomata.Declaration.Grammar
open Reader

def rangeBound (g : Grammar) : Reader Bool := do
  let ts ← ahead
  if ts.isEmpty || ["|", "=", ",", ";"].any (isMarkAhead · ts) || isMarkBut ":" ["::"] ts
      || isWord "if" ts then
    return false
  if isLiteral ts then takeLiteral
  else if isIdentifier ts || isMarkAhead "::" ts || isMarkAhead "<" ts
      || isOneOf ["self", "Self", "super", "crate"] ts then
    let _ ← qualifiedPath g (anyBound g) .expression
  else if isWord "const" ts then
    take
    block g
  else noneOf ["literal", "identifier", "`::`", "`<`", "`self`", "`Self`", "`super`", "`crate`",
    "`const`"]
  return true

def patternRange (g : Grammar) : Reader Unit := do
  let isClosed ← sees fun ts => isMarkAhead "..=" ts || isMarkAhead "..." ts
  if isClosed then
    if ← sees (isMarkAhead "..=") then takeMarks "..=" else takeMarks "..."
  else takeMarks ".."
  let hasEnd ← rangeBound g
  if isClosed && !hasEnd then throw (.rule "expected range upper bound" (← atEnd))

def alternatives (g : Grammar) : Reader Unit := do
  let isStroke := isMarkBut "|" ["||", "|="]
  let _ ← takeIf (isMarkAhead "|")
  g.pattern
  whileTaking do
    if ← sees isStroke then
      takeMarks "|"
      g.pattern
      return true
    return false

def member : Reader Bool := do
  let ts ← ahead
  if isIdentifier ts then
    take
    return true
  match ts with
  | .literal text :: _ =>
    if isNumber text then
      take
      return false
    throw (.rule "expected identifier or integer" false)
  | _ => throw (.rule "expected identifier or integer" ts.isEmpty)

def patternField (g : Grammar) : Reader Unit := do
  outerAttributes g
  if ← takeMarksIf ".." then return
  let isBoxed ← takeIf (isWord "box")
  let isReference ← takeIf (isWord "ref")
  let isMutable ← takeIf (isWord "mut")
  let isBinding := isBoxed || isReference || isMutable
  if isBinding then
    let _ ← takeIdentifier
  else
    let isNamed ← member
    if !isNamed || (← sees (isMarkAhead ":")) then
      takeMarks ":"
      alternatives g

def pathPattern (g : Grammar) : Reader Unit := do
  let p ← qualifiedPath g (anyBound g) .expression
  let ts ← ahead
  if !p.isQualified && p.isPlain && isMarkBut "!" ["!="] ts then
    take
    let _ ← takeGroup
  else if isGroup .curly ts then inGroup .curly (commaSeparated (patternField g))
  else if isGroup .round ts then inGroup .round (commaSeparated (alternatives g))
  else if isMarkAhead ".." ts then patternRange g

def startsPathPattern (ts : List Token) : Bool :=
  let next := ts.drop 1
  (isIdentifier ts && (["::", "!", ".."].any (isMarkAhead · next)
      || isGroup .curly next || isGroup .round next))
    || (isWord "self" ts && isMarkAhead "::" next)
    || isMarkAhead "::" ts || isMarkAhead "<" ts || isOneOf ["Self", "super", "crate"] ts

def patternRule (g : Grammar) : Reader Unit := do
  let ts ← ahead
  if startsPathPattern ts then pathPattern g
  else if isWord "_" ts then take
  else if isWord "box" ts then
    take
    g.pattern
  else if isLiteral ts || isMarkAhead "-" ts || isWord "const" ts then
    let _ ← rangeBound g
    if ← sees (isMarkAhead "..") then patternRange g
  else if isOneOf ["ref", "mut", "self"] ts || isIdentifier ts then
    let _ ← takeIf (isWord "ref")
    let _ ← takeIf (isWord "mut")
    if ← sees (isWord "self") then take else
      let _ ← takeIdentifier
    if ← takeMarksIf "@" then g.pattern
  else if isMarkAhead "&" ts then
    take
    let _ ← takeIf (isWord "mut")
    g.pattern
  else if isGroup .round ts then inGroup .round (commaSeparated (alternatives g))
  else if isGroup .square ts then inGroup .square (commaSeparated (alternatives g))
  else if isMarkBut ".." ["..."] ts then patternRange g
  else noneOf ["identifier", "`::`", "`<`", "`_`", "literal", "`const`", "`ref`", "`mut`", "`&`",
    "parentheses", "square brackets", "`..`"]

end FiniteAutomata.Declaration.Grammar
