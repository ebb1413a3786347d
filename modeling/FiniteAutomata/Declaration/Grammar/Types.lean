import FiniteAutomata.Declaration.Grammar.Attributes

/-!
Paths and types. In a type the double colon in front of a path's arguments is superfluous and not
kept; in an expression it is needed. Lifetimes are moved to the front of the arguments.
-/
namespace FiniteAutomata.Declaration.Grammar
open Reader

/-! Arguments in angle brackets -/

structure Argument where
  kind : ArgumentKind
  tokens : List Token
  hasComma : Bool

def comma : Token := .mark ',' false

/-- The arguments in the order in which they are written: lifetimes first. Where the next argument
needs a comma in front of it, one is put there. -/
def arrange (args : List Argument) : List Token :=
  let (lifetimes, others) := args.partition (·.kind = .lifetime)
  let add (acc : List Token × Bool) (arg : Argument) : List Token × Bool :=
    (acc.1 ++ (if acc.2 then [comma] else []) ++ arg.tokens
      ++ (if arg.hasComma then [comma] else []), !arg.hasComma)
  let addLifetime (acc : List Token × Bool) (arg : Argument) : List Token × Bool :=
    add (acc.1, false) arg
  (others.foldl add (lifetimes.foldl addLifetime ([], false))).1

def constant (g : Grammar) : Reader Unit := do
  if ← sees isLiteral then takeLiteral else block g

def parameter (g : Grammar) (bound : Reader Bool) : Reader Unit := do
  outerAttributes g
  if ← sees isLifetime then take else
    let _ ← takeIdentifier
  if ← takeMarksIf ":" then
    whileTaking do
      if ← sees fun ts => isMarkAhead "," ts || isMarkAhead ">" ts then return false
      let _ ← bound
      takeMarksIf "+"

def binder (g : Grammar) (bound : Reader Bool) : Reader Bool := do
  if ← takeIf (isWord "for") then
    takeMarks "<"
    whileTaking do
      if ← sees (isMarkAhead ">") then return false
      parameter g bound
      if ← sees (isMarkAhead ">") then return false
      takeMarks ","
      return true
    takeMarks ">"
    return true
  return false

def returnType (g : Grammar) (allowPlus : Bool) : Reader Unit := do
  if ← takeMarksIf "->" then
    let _ ← g.type allowPlus

def roundArguments (g : Grammar) : Reader Unit := do
  inGroup .round (commaSeparated do let _ ← g.type true)
  returnType g false

def argument (g : Grammar) (bound : Reader Bool) : Reader ArgumentKind := do
  if ← sees fun ts => isLifetime ts && !isMarkAhead "+" (ts.drop 1) then
    take
    return .lifetime
  if ← sees fun ts => isLiteral ts || isGroup .curly ts then
    constant g
    return .other
  let shape ← g.type true
  let isName := match shape with
    | .path p => !p.isQualified && !p.isGlobal && p.segments.length = 1 &&
        p.segments.all (·.2 ≠ .round)
    | _ => false
  if !isName then return .type
  if ← takeMarksIf "=" then
    if ← sees fun ts => isLiteral ts || isGroup .curly ts then constant g
    else
      let _ ← g.type true
    return .other
  if ← takeMarksIf ":" then
    whileTaking do
      if ← sees fun ts => isMarkAhead "," ts || isMarkAhead ">" ts then return false
      let _ ← bound
      takeMarksIf "+"
    return .other
  return .type

def arguments (g : Grammar) (bound : Reader Bool) (fuel : Nat) : Reader (List Argument) :=
  match fuel with
  | 0 => return []
  | fuel + 1 => do
    if ← sees (isMarkAhead ">") then return []
    let (kind, tokens) ← captured (argument g bound)
    if ← sees (isMarkAhead ">") then return [⟨kind, tokens, false⟩]
    if !(← sees (isMarkAhead ",")) then throw (.mark ",")
    drop 1
    return ⟨kind, tokens, true⟩ :: (← arguments g bound fuel)

def angleArguments (g : Grammar) (bound : Reader Bool) : Reader (List ArgumentKind) := do
  takeMarks "<"
  let args ← arguments g bound ((← ahead).length + 1)
  keep (arrange args)
  takeMarks ">"
  return args.map Argument.kind

/-! Paths -/

inductive PathStyle where
  | type
  | expression
deriving DecidableEq, Repr

def segment (g : Grammar) (bound : Reader Bool) (style : PathStyle) :
    Reader (String × Arguments) := do
  if ← sees (isOneOf ["super", "self", "crate", "try"]) then return (← takeAnyWord, .none)
  let name ← if ← sees (isWord "Self") then takeAnyWord else takeIdentifier
  let ts ← ahead
  let hasColons := isMarkAhead "::" ts
  if (style = .type && isMarkBut "<" ["<="] ts) || (hasColons && isMarkAhead "<" (ts.drop 2)) then
    if hasColons then
      if style = .type then drop 2 else takeMarks "::"
    return (name, .angle (← angleArguments g bound))
  return (name, .none)

def segments (g : Grammar) (bound : Reader Bool) (style : PathStyle) (fuel : Nat) :
    Reader (List (String × Arguments)) :=
  match fuel with
  | 0 => return []
  | fuel + 1 => do
    if ← sees fun ts => isMarkAhead "::" ts && !isGroup .round (ts.drop 2) then
      takeMarks "::"
      let first ← segment g bound style
      return first :: (← segments g bound style fuel)
    return []

def path (g : Grammar) (bound : Reader Bool) (style : PathStyle) : Reader PathShape := do
  let isGlobal ← takeMarksIf "::"
  let first ← segment g bound style
  let others ← segments g bound style ((← ahead).length + 1)
  return ⟨false, isGlobal, first :: others⟩

/-- A path that may begin with a type, as a trait's member, in angle brackets. -/
def qualifiedPath (g : Grammar) (bound : Reader Bool) (style : PathStyle) : Reader PathShape := do
  if ← takeMarksIf "<" then
    let _ ← g.type true
    if ← takeIf (isWord "as") then
      let _ ← path g bound .type
    takeMarks ">"
    takeMarks "::"
    let first ← segment g bound style
    let others ← segments g bound style ((← ahead).length + 1)
    return ⟨true, false, first :: others⟩
  path g bound style

/-! Bounds -/

def traitBound (g : Grammar) (bound : Reader Bool) : Reader Unit := do
  let isBound ← binder g bound
  if ← sees (isGroup .square) then inGroup .square (takeWord "const")
  else
    let _ ← takeIf (isWord "const")
  let isRelaxed ← takeMarksIf "?"
  let isBound ← if isRelaxed && !isBound then binder g bound else pure isBound
  let p ← path g bound .type
  let isOpen := p.segments.getLast?.all (·.2.isEmpty)
  if isOpen then
    if ← sees fun ts =>
        isGroup .round ts || isMarkAhead "::" ts && isGroup .round (ts.drop 2) then
      if ← sees (isMarkAhead "::") then drop 2
      roundArguments g
  if isBound && isRelaxed then
    throw (.rule "`for<...>` binder not allowed with `?` trait polarity modifier" false)

/-- One bound; answers whether it is a trait. Bounds nest in arguments, at most `fuel` deep. -/
def bound (g : Grammar) (fuel : Nat) : Reader Bool :=
  match fuel with
  | 0 => throw (.rule "nested too deeply" false)
  | fuel + 1 => do
    if ← takeIf isLifetime then return false
    if ← takeIf (isWord "use") then
      let _ ← angleArguments g (bound g fuel)
      return false
    let trait := traitBound g (bound g fuel)
    if ← sees (isGroup .round) then inGroup .round trait else trait
    return true

def anyBound (g : Grammar) : Reader Bool := do bound g ((← ahead).length + 1)

def startsBound (ts : List Token) : Bool :=
  isAnyWord ts || isMarkAhead "::" ts || isMarkAhead "?" ts || isLifetime ts || isGroup .round ts

/-- More bounds with plus signs between them; answers how many bounds were read, whether one of them
is a trait, and whether a plus sign stands at the end. -/
def moreBounds (g : Grammar) (fuel : Nat) : Reader (Nat × Bool × Bool) :=
  match fuel with
  | 0 => return (0, false, false)
  | fuel + 1 => do
    if ← takeMarksIf "+" then
      if !(← sees startsBound) then return (0, false, true)
      let isTrait ← anyBound g
      let (count, hasTrait, isOpen) ← moreBounds g fuel
      return (count + 1, isTrait || hasTrait, isOpen)
    return (0, false, false)

def boundsWithTrait (g : Grammar) (allowPlus : Bool) (fault : String) : Reader TypeShape := do
  let isTrait ← anyBound g
  let (count, hasTrait, isOpen) ←
    if allowPlus then moreBounds g ((← ahead).length + 1) else pure (0, false, false)
  if !isTrait && !hasTrait then throw (.rule fault false)
  return .bounds (count = 0 && !isOpen)

def objectFault : String := "at least one trait is required for an object type"

/-! Types -/

inductive Enclosed where
  | tuple
  | single (shape : TypeShape)
  | relaxedBound

def enclosed (g : Grammar) : Reader Enclosed := do
  if ← atEnd then return .tuple
  if ← sees isLifetime then
    let _ ← boundsWithTrait g true objectFault
    return .tuple
  if ← sees (isMarkAhead "?") then
    traitBound g (anyBound g)
    return .relaxedBound
  let shape ← g.type true
  if ← sees (isMarkAhead ",") then
    takeMarks ","
    commaSeparated do let _ ← g.type true
    return .tuple
  return .single shape

def enclosedType (g : Grammar) (allowPlus : Bool) : Reader TypeShape := do
  let more := do
    let _ ← moreBounds g ((← ahead).length + 1)
    return .bounds false
  match ← inGroup .round (enclosed g) with
  | .tuple => return .other
  | .relaxedBound => more
  | .single shape =>
    let isBound := match shape with
      | .path p => !p.isQualified
      | .bounds isSingle => isSingle
      | .other => false
    if allowPlus && isBound && (← sees (isMarkAhead "+")) then more else return .other

def functionArgument (g : Grammar) : Reader Unit := do
  outerAttributes g
  if ← takeMarksIf "..." then return
  if ← sees fun ts => isWord "mut" ts && isWord "self" (ts.drop 1) then take
  let isName (ts : List Token) := isIdentifier ts || isWord "_" ts || isWord "self" ts
  if ← sees fun ts => isName ts && isMarkBut ":" ["::"] (ts.drop 1) then
    take
    takeMarks ":"
  if ← takeMarksIf "..." then return
  let _ ← g.type true

def functionType (g : Grammar) : Reader TypeShape := do
  let _ ← takeIf (isWord "unsafe")
  if ← takeIf (isWord "extern") then
    let _ ← takeIf fun ts => match ts with
      | .literal _ :: _ => true
      | _ => false
  takeWord "fn"
  inGroup .round (commaSeparated (functionArgument g))
  returnType g false
  return .other

def pathType (g : Grammar) (allowPlus isBound : Bool) : Reader TypeShape := do
  let p ← qualifiedPath g (anyBound g) .type
  if p.isQualified then return .path p
  if p.isPlain && (← sees (isMarkBut "!" ["!="])) then
    takeMarks "!"
    let _ ← takeGroup
    return .other
  if isBound || allowPlus && (← sees (isMarkAhead "+")) then
    if !allowPlus then return .bounds true
    let (count, _, isOpen) ← moreBounds g ((← ahead).length + 1)
    return .bounds (count = 0 && !isOpen)
  return .path p

def typeBehind (g : Grammar) (isBound allowPlus : Bool) : Reader TypeShape := do
  let ts ← ahead
  if isGroup .round ts then enclosedType g allowPlus
  else if isOneOf ["fn", "unsafe", "extern"] ts then functionType g
  else if isIdentifier ts || isOneOf ["super", "self", "Self", "crate"] ts
      || isMarkAhead "::" ts || isMarkAhead "<" ts then
    pathType g allowPlus isBound
  else if isWord "dyn" ts then
    take
    let _ ← takeMarksIf "*"
    let _ ← boundsWithTrait g allowPlus objectFault
    return .other
  else if isGroup .square ts then
    inGroup .square do
      let _ ← g.type true
      if ← takeMarksIf ";" then
        let _ ← g.expression true
    return .other
  else if isMarkAhead "*" ts then
    take
    if !(← takeIf (isOneOf ["const", "mut"])) then noneOf ["`const`", "`mut`"]
    let _ ← g.type false
    return .other
  else if isMarkAhead "&" ts then
    take
    let _ ← takeIf isLifetime
    let _ ← takeIf (isWord "mut")
    let _ ← g.type false
    return .other
  else if isMarkAhead "!" ts then
    take
    return .other
  else if isWord "impl" ts then
    take
    let _ ← boundsWithTrait g allowPlus "at least one trait must be specified"
    return .other
  else if isWord "_" ts then
    take
    return .other
  else if isLifetime ts then boundsWithTrait g true objectFault
  else noneOf ["`for`", "parentheses", "`fn`", "`unsafe`", "`extern`", "identifier", "`::`", "`<`",
    "`dyn`", "square brackets", "`*`", "`&`", "`!`", "`impl`", "`_`", "lifetime"]

def typeRule (g : Grammar) (allowPlus : Bool) : Reader TypeShape := do
  let isBound ← binder g (anyBound g)
  let canFollow (ts : List Token) := isIdentifier ts
    || isOneOf ["fn", "unsafe", "extern", "super", "self", "Self", "crate", "dyn"] ts
  if isBound && !(← sees canFollow) then
    noneOf ["identifier", "`fn`", "`unsafe`", "`extern`", "`super`", "`self`", "`Self`", "`crate`"]
  typeBehind g isBound allowPlus

end FiniteAutomata.Declaration.Grammar
