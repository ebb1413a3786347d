import FiniteAutomata.Declaration.Token
import FiniteAutomata.Written

/-!
Splitting the text of a declaration into tokens. Comments and blanks are skipped; a documentation
comment stands for an attribute with its text.
-/
namespace FiniteAutomata.Declaration

/-- Blanks of any script, and the two marks of writing direction. -/
def isBlank (c : Char) : Bool :=
  let n := c.toNat
  (0x9 ≤ n && n ≤ 0xd) || n = 0x20 || n = 0x85 || n = 0xa0 || n = 0x1680
    || (0x2000 ≤ n && n ≤ 0x200a) || n = 0x200e || n = 0x200f || n = 0x2028 || n = 0x2029
    || n = 0x202f || n = 0x205f || n = 0x3000

/-- Beyond ASCII, whatever is no blank can only belong to a word. -/
def startsWord (c : Char) : Bool := c.isAlpha || c = '_' || (0x7f < c.toNat && !isBlank c)

def continuesWord (c : Char) : Bool := startsWord c || c.isDigit

def isMark (c : Char) : Bool := "~!@#$%^&*-=+|;:,<.>/?'".toList.contains c

def opensComment : List Char → Bool
  | '/' :: '/' :: _ => true
  | '/' :: '*' :: _ => true
  | _ => false

def startsMark (cs : List Char) : Bool := !opensComment cs && cs.head?.any isMark

inductive Lexeme where
  | leaf (token : Token)
  | opening (bracket : Bracket)
  | closing (bracket : Bracket)

def documentation (inner : Bool) (text : List Char) : List Lexeme :=
  let quoted := Written.literalText (String.ofList text)
  (Token.mark '#' false :: ((if inner then [.mark '!' false] else [])
    ++ [.group .square [.word "doc", .mark '=' false, .literal quoted]])).map .leaf

def bracketAt : Char → Option Lexeme
  | '(' => some (.opening .round)
  | '[' => some (.opening .square)
  | '\x7b' => some (.opening .curly)
  | ')' => some (.closing .round)
  | ']' => some (.closing .square)
  | '\x7d' => some (.closing .curly)
  | _ => none

/-- The text of a block comment up to its end, and what follows. Block comments nest. -/
def blockComment : (depth : Nat) → List Char → List Char × List Char
  | _, [] => ([], [])
  | 0, '*' :: '/' :: rest => ([], rest)
  | depth + 1, '*' :: '/' :: rest =>
    let (text, rest) := blockComment depth rest
    ('*' :: '/' :: text, rest)
  | depth, '/' :: '*' :: rest =>
    let (text, rest) := blockComment (depth + 1) rest
    ('/' :: '*' :: text, rest)
  | depth, c :: rest =>
    let (text, rest) := blockComment depth rest
    (c :: text, rest)

def lineText (cs : List Char) : List Char × List Char :=
  let (text, rest) := cs.span (· != '\n')
  (if text.getLast? = some '\r' then text.dropLast else text, rest)

/-- A comment, with what it stands for. Three strokes or two stars open documentation, four or three
do not. -/
def comment (cs : List Char) : List Lexeme × List Char :=
  match cs with
  | '/' :: '/' :: rest =>
    let (text, after) := lineText rest
    match text with
    | '/' :: '/' :: _ => ([], after)
    | '/' :: text => (documentation false text, after)
    | '!' :: text => (documentation true text, after)
    | _ => ([], after)
  | '/' :: '*' :: rest =>
    let (text, after) := blockComment 0 rest
    match text with
    | '*' :: '*' :: _ => ([], after)
    | ['*'] => ([], after)
    | '*' :: text => if text.isEmpty then ([], after) else (documentation false text, after)
    | '!' :: text => (documentation true text, after)
    | _ => ([], after)
  | _ => ([], cs)

def cooked (quote : Char) : List Char → Option (List Char × List Char)
  | [] => none
  | '\\' :: c :: rest => (cooked quote rest).map fun (text, rest) => ('\\' :: c :: text, rest)
  | c :: rest =>
    if c = quote then some ([c], rest)
    else (cooked quote rest).map fun (text, rest) => (c :: text, rest)

def raw (hashes : Nat) : List Char → Option (List Char × List Char)
  | [] => none
  | '"' :: rest =>
    if rest.take hashes = List.replicate hashes '#' then
      some ('"' :: List.replicate hashes '#', rest.drop hashes)
    else (raw hashes rest).map fun (text, rest) => ('"' :: text, rest)
  | c :: rest => (raw hashes rest).map fun (text, rest) => (c :: text, rest)

def rawLiteral (cs : List Char) : Option (List Char × List Char) :=
  let (hashes, rest) := cs.span (· = '#')
  match rest with
  | '"' :: rest => (raw hashes.length rest).map fun (text, rest) => (hashes ++ '"' :: text, rest)
  | _ => none

def character (cs : List Char) : Option (List Char × List Char) :=
  match cs with
  | '\\' :: _ => cooked '\'' cs
  | '\'' :: _ => none
  | c :: '\'' :: rest => some ([c, '\''], rest)
  | _ => none

def quotedLiteral (cs : List Char) : Option (List Char × List Char) :=
  let after (front : List Char) (read : Option (List Char × List Char)) :=
    read.map fun (text, rest) => (front ++ text, rest)
  match cs with
  | '"' :: rest => after ['"'] (cooked '"' rest)
  | '\'' :: rest => after ['\''] (character rest)
  | 'b' :: '"' :: rest => after ['b', '"'] (cooked '"' rest)
  | 'b' :: '\'' :: rest => after ['b', '\''] (character rest)
  | 'c' :: '"' :: rest => after ['c', '"'] (cooked '"' rest)
  | 'r' :: rest => after ['r'] (rawLiteral rest)
  | 'b' :: 'r' :: rest => after ['b', 'r'] (rawLiteral rest)
  | 'c' :: 'r' :: rest => after ['c', 'r'] (rawLiteral rest)
  | _ => none

def exponentDigits (cs : List Char) : Option (List Char × List Char) :=
  let (sign, rest) := match cs with
    | '+' :: rest => (['+'], rest)
    | '-' :: rest => (['-'], rest)
    | _ => ([], cs)
  let (digits, rest) := rest.span fun c => c.isDigit || c = '_'
  if digits.any Char.isDigit then some (sign ++ digits, rest) else none

/-- A number without its suffix. A dot belongs to it unless a second dot or a word follows. -/
def unsuffixed (cs : List Char) : List Char × List Char :=
  let isDigit (c : Char) := c.isDigit || c = '_'
  match cs with
  | '0' :: 'x' :: rest =>
    let (digits, rest) := rest.span fun c => isDigit c || ('a' ≤ c.toLower && c.toLower ≤ 'f')
    ('0' :: 'x' :: digits, rest)
  | '0' :: 'o' :: rest =>
    let (digits, rest) := rest.span isDigit
    ('0' :: 'o' :: digits, rest)
  | '0' :: 'b' :: rest =>
    let (digits, rest) := rest.span isDigit
    ('0' :: 'b' :: digits, rest)
  | _ =>
    let (whole, rest) := cs.span isDigit
    let withExponent (mantissa rest : List Char) : List Char × List Char :=
      match rest with
      | 'e' :: more | 'E' :: more =>
        match exponentDigits more with
        | some (digits, after) => (mantissa ++ rest.take 1 ++ digits, after)
        | none => (mantissa, rest)
      | _ => (mantissa, rest)
    match rest with
    | '.' :: more =>
      if more.head?.any fun c => c = '.' || startsWord c then (whole, rest)
      else
        let (fraction, after) := more.span isDigit
        withExponent (whole ++ '.' :: fraction) after
    | _ => withExponent whole rest

def literal (cs : List Char) : Option (List Char × List Char) := do
  let (text, rest) ← if cs.head?.any Char.isDigit then some (unsuffixed cs) else quotedLiteral cs
  if rest.head?.any startsWord then
    let (suffix, rest) := rest.span continuesWord
    some (text ++ suffix, rest)
  else some (text, rest)

def word (cs : List Char) : Option (List Char × List Char) :=
  let (front, rest) := match cs with
    | 'r' :: '#' :: rest => (['r', '#'], rest)
    | _ => ([], cs)
  if rest.head?.any startsWord then
    let (name, rest) := rest.span continuesWord
    some (front ++ name, rest)
  else none

def lexeme (cs : List Char) : Option (List Lexeme × List Char) :=
  match cs with
  | [] => none
  | c :: rest =>
    if isBlank c then some ([], rest)
    else if opensComment cs then some (comment cs)
    else if let some bracket := bracketAt c then some ([bracket], rest)
    else if let some (text, rest) := literal cs then
      some ([.leaf (.literal (String.ofList text))], rest)
    else if c = '\'' then
      (word rest).map fun (name, rest) => ([.leaf (.lifetime (String.ofList name))], rest)
    else if isMark c then some ([.leaf (.mark c (startsMark rest))], rest)
    else (word cs).map fun (name, rest) => ([.leaf (.word (String.ofList name))], rest)

/-- Every lexeme takes a character, so `fuel` is enough if it is more than the length of `cs`. -/
def lexemes (fuel : Nat) (cs : List Char) : Option (List Lexeme) :=
  match fuel, cs with
  | _, [] => some []
  | 0, _ => none
  | fuel + 1, _ => do
    let (found, rest) ← lexeme cs
    some (found ++ (← lexemes fuel rest))

/-- Puts lexemes into groups. `outer` holds the open brackets with what came before them, the
innermost first, and `done` the tokens of the current group, the last first. -/
def groups (outer : List (Bracket × List Token)) (done : List Token) :
    List Lexeme → Option (List Token)
  | [] => if outer.isEmpty then some done.reverse else none
  | .leaf token :: rest => groups outer (token :: done) rest
  | .opening bracket :: rest => groups ((bracket, done) :: outer) [] rest
  | .closing bracket :: rest =>
    match outer with
    | (opened, before) :: outer =>
      if opened = bracket then groups outer (.group bracket done.reverse :: before) rest else none
    | [] => none

def scan (text : String) : Option (List Token) :=
  let cs := text.toList
  (lexemes (cs.length + 1) cs).bind (groups [] [])

end FiniteAutomata.Declaration
