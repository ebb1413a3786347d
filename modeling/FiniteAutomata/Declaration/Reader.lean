import FiniteAutomata.Declaration.SyntaxFault

/-!
Reading tokens from the left. A reader takes tokens from what is left of the current group and keeps
those it has taken, so that what it has read can be written out again. Tokens that are left over at
the end of a group are noted and become a fault only when everything else has been read.
-/
namespace FiniteAutomata.Declaration

structure Cursor where
  rest : List Token
  /-- What was taken from the current group, the last first. -/
  taken : List Token := []
  /-- The first group that was not read to its end. -/
  surplus : Option Bracket := none

abbrev Reader := StateT Cursor (Except SyntaxFault)

def keywords : List String :=
  ["_", "abstract", "as", "async", "await", "become", "box", "break", "const", "continue", "crate",
   "do", "dyn", "else", "enum", "extern", "false", "final", "fn", "for", "if", "impl", "in", "let",
   "loop", "macro", "match", "mod", "move", "mut", "override", "priv", "pub", "ref", "return",
   "Self", "self", "static", "struct", "super", "trait", "true", "try", "type", "typeof", "unsafe",
   "unsized", "use", "virtual", "where", "while", "yield"]

/-! Looking at the tokens ahead -/

/-- Whether the marks come next, all but the last joint to the one that follows. -/
def aheadMarks : List Char → List Token → Bool
  | [], _ => true
  | [c], .mark d _ :: _ => c = d
  | c :: more, .mark d true :: rest => c = d && aheadMarks more rest
  | _, _ => false

def isMarkAhead (marks : String) (ts : List Token) : Bool := aheadMarks marks.toList ts

def isWord (name : String) : List Token → Bool
  | .word found :: _ => found = name
  | _ => false

def isAnyWord : List Token → Bool
  | .word _ :: _ => true
  | _ => false

def isIdentifier : List Token → Bool
  | .word found :: _ => !keywords.contains found
  | _ => false

def isGroup (bracket : Bracket) : List Token → Bool
  | .group found _ :: _ => found = bracket
  | _ => false

def isLifetime : List Token → Bool
  | .lifetime _ :: _ => true
  | _ => false

def isNumber (text : String) : Bool := text.toList.head?.any Char.isDigit

def isLiteral : List Token → Bool
  | .literal _ :: _ => true
  | .word name :: _ => name = "true" || name = "false"
  | .mark '-' _ :: .literal text :: _ => isNumber text
  | _ => false

def isOneOf (names : List String) (ts : List Token) : Bool := names.any (isWord · ts)

def isMarkBut (marks : String) (but : List String) (ts : List Token) : Bool :=
  isMarkAhead marks ts && !but.any (isMarkAhead · ts)

namespace Reader

def ahead : Reader (List Token) := return (← get).rest

def sees (form : List Token → Bool) : Reader Bool := return form (← ahead)

def atEnd : Reader Bool := sees List.isEmpty

def take : Reader Unit :=
  modify fun c => match c.rest with
    | token :: rest => { c with rest, taken := token :: c.taken }
    | [] => c

def drop (count : Nat) : Reader Unit := modify fun c => { c with rest := c.rest.drop count }

def keep (tokens : List Token) : Reader Unit :=
  modify fun c => { c with taken := tokens.reverse ++ c.taken }

def takeMarks (marks : String) : Reader Unit := do
  if ← sees (isMarkAhead marks) then marks.toList.forM fun _ => take
  else throw (.mark marks)

def takeWord (name : String) : Reader Unit := do
  if ← sees (isWord name) then take else throw (.keyword name (← atEnd))

def takeIdentifier : Reader String := do
  match ← ahead with
  | .word name :: _ =>
    if keywords.contains name then throw (.reserved name)
    take
    return name
  | ts => throw (.identifier ts.isEmpty)

def takeAnyWord : Reader String := do
  match ← ahead with
  | .word name :: _ =>
    take
    return name
  | ts => throw (.identifier ts.isEmpty)

def takeLiteral : Reader Unit := do
  if ← sees (isMarkAhead "-") then take
  take

def takeIf (form : List Token → Bool) : Reader Bool := do
  let found ← sees form
  if found then take
  return found

def takeMarksIf (marks : String) : Reader Bool := do
  let found ← sees (isMarkAhead marks)
  if found then takeMarks marks
  return found

def noneOf (expected : List String) : Reader α := do throw (.alternatives expected (← atEnd))

def captured (read : Reader α) : Reader (α × List Token) := do
  let before := (← get).taken
  modify ({ · with taken := [] })
  let a ← read
  let tokens := (← get).taken.reverse
  modify ({ · with taken := before })
  return (a, tokens)

def inGroup (bracket : Bracket) (read : Reader α) : Reader α := do
  match ← ahead with
  | .group found inside :: rest =>
    if found ≠ bracket then throw (.group bracket false)
    let before := (← get).taken
    modify ({ · with rest := inside, taken := [] })
    let a ← read
    modify fun c =>
      { rest
        taken := .group bracket c.taken.reverse :: before
        surplus := c.surplus.or (if c.rest.isEmpty then none else some bracket) }
    return a
  | ts => throw (.group bracket ts.isEmpty)

def takeGroup : Reader Bracket := do
  match ← ahead with
  | .group bracket _ :: _ =>
    take
    return bracket
  | ts => throw (.rule "expected delimiter" ts.isEmpty)

def repeatWhile (again : Reader Bool) (fuel : Nat) : Reader Unit :=
  match fuel with
  | 0 => return
  | fuel + 1 => do if ← again then repeatWhile again fuel

/-- Repeats a reader that takes a token each time it asks for another turn. -/
def whileTaking (again : Reader Bool) : Reader Unit := do
  repeatWhile again ((← ahead).length + 1)

def commaSeparated (item : Reader Unit) : Reader Unit :=
  whileTaking do
    if ← atEnd then return false
    item
    if ← atEnd then return false
    takeMarks ","
    return true

end Reader
end FiniteAutomata.Declaration
