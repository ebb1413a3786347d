import FiniteAutomata.Declaration.Grammar.Basic

/-!
Attributes: a hash and a path in square brackets, with a value or a group behind the path.
-/
namespace FiniteAutomata.Declaration.Grammar
open Reader

/-- Names with double colons between them and no arguments. Any word can be a name here. -/
def plainPath : Reader Unit := do
  let _ ← takeMarksIf "::"
  let _ ← takeAnyWord
  whileTaking do
    if ← sees (isMarkAhead "::") then
      takeMarks "::"
      let _ ← takeAnyWord
      return true
    return false

def attributeContent (g : Grammar) : Reader Unit := do
  plainPath
  if ← sees fun ts => isGroup .round ts || isGroup .square ts || isGroup .curly ts then take
  else if ← sees (isMarkAhead "=") then
    takeMarks "="
    let _ ← g.expression true

def outerAttributes (g : Grammar) : Reader Unit :=
  whileTaking do
    if ← sees (isMarkAhead "#") then
      takeMarks "#"
      inGroup .square (attributeContent g)
      return true
    return false

def innerAttributes (g : Grammar) : Reader Unit :=
  whileTaking do
    if ← sees fun ts => isMarkAhead "#" ts && isMarkAhead "!" (ts.drop 1) then
      takeMarks "#"
      takeMarks "!"
      inGroup .square (attributeContent g)
      return true
    return false

def block (g : Grammar) : Reader Unit :=
  inGroup .curly do
    innerAttributes g
    g.statements

end FiniteAutomata.Declaration.Grammar
