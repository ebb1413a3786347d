import FiniteAutomata.Declaration.Basic
import FiniteAutomata.Declaration.Grammar.Statements
import FiniteAutomata.Declaration.Scan

/-!
Reading a declaration. The first fault from the left is reported; tokens left over at the end of a
bracket count only if nothing else is wrong.
-/
namespace FiniteAutomata.Declaration
open Reader

def isRestriction : List Token → Bool
  | .group .round [.word name] :: _ => ["crate", "self", "super"].contains name
  | _ => false

def isPathRestriction : List Token → Bool
  | .group .round (.word "in" :: _) :: _ => true
  | _ => false

def readVisibility : Reader Unit := do
  if ← takeIf (isWord "pub") then
    if ← sees isRestriction then take
    else if ← sees isPathRestriction then
      inGroup .round do
        take
        Grammar.plainPath

def readType (g : Grammar) : Reader FieldType := do
  let (shape, tokens) ← captured (g.type true)
  return ⟨tokens, shape.isOption⟩

def readValue (g : Grammar) : Reader (List Token) := do
  return (← captured (g.expression true)).2

def readField (g : Grammar) : Reader Field := do
  let name ← takeIdentifier
  takeMarks ":"
  let type ← readType g
  if ← sees (isGroup .round) then
    inGroup .round do
      let sectionType ← readType g
      takeMarks "="
      return { name, type, sectionType := some sectionType, value := ← readValue g }
  else
    takeMarks "="
    return { name, type, value := ← readValue g }

def readFields (g : Grammar) (fuel : Nat) : Reader (List Field) :=
  match fuel with
  | 0 => return []
  | fuel + 1 => do
    if ← atEnd then return []
    let first ← readField g
    if ← atEnd then return [first]
    takeMarks ","
    return first :: (← readFields g fuel)

def readDeclaration (g : Grammar) : Reader Declaration := do
  let (_, visibility) ← captured readVisibility
  takeWord "struct"
  let name ← takeIdentifier
  let fields ← inGroup .curly do readFields g ((← ahead).length + 1)
  return { visibility, name, fields }

def ofTokens (tokens : List Token) : Except SyntaxFault Declaration := do
  let (declaration, cursor) ← (readDeclaration (Grammar.deepEnough tokens)).run { rest := tokens }
  if let some bracket := cursor.surplus then throw (.surplus (some bracket))
  if !cursor.rest.isEmpty then throw (.surplus none)
  return declaration

/-- Reads a declaration. A text with a token that cannot be, or with brackets that do not match, has
no answer. -/
def read? (text : String) : Option (Except SyntaxFault Declaration) := (scan text).map ofTokens

end FiniteAutomata.Declaration
