import FiniteAutomata.Toml.Quoted
import FiniteAutomata.Toml.Tables

/-!
Reading a TOML document as a table of values. A document with any fault in it is none.
-/
namespace FiniteAutomata.Toml
open Settings

def isBare (c : Char) : Bool := c.isAlphanum || c = '_' || c = '-'

def skipComment : List Char → List Char
  | '#' :: rest => rest.dropWhile isPrintable
  | cs => cs

/-- What follows the end of the line, if nothing but blanks and a comment comes before it. -/
def endLine (cs : List Char) : Option (List Char) :=
  let rest := skipComment (skipBlanks cs)
  if rest.isEmpty then some [] else newline? rest

def name? (cs : List Char) : Option (String × List Char) :=
  let text (read : Option (List Char × List Char)) := read.map fun (name, rest) =>
    (String.ofList name, rest)
  match cs with
  | '"' :: rest => text (basic rest)
  | '\'' :: rest => text (literal rest)
  | _ =>
    let (name, rest) := cs.span isBare
    if name.isEmpty then none else some (String.ofList name, rest)

/-- The names of a key, with dots between them and blanks around the dots. Each name takes at least
one character, so `fuel` is enough if it is the length of `cs`. -/
def key? (fuel : Nat) (cs : List Char) : Option (Path × List Char) :=
  match fuel with
  | 0 => none
  | fuel + 1 => do
    let (name, rest) ← name? (skipBlanks cs)
    match skipBlanks rest with
    | '.' :: rest =>
      let (names, rest) ← key? fuel rest
      some (name :: names, rest)
    | rest => some ([name], rest)

def skipFiller (fuel : Nat) (cs : List Char) : Option (List Char) :=
  match fuel with
  | 0 => none
  | fuel + 1 =>
    let rest := skipComment (skipBlanks cs)
    match newline? rest with
    | some rest => skipFiller fuel rest
    | none => some rest

def isScalar (c : Char) : Bool := isBare c || c = '+' || c = '.' || c = ':'

/-- An unquoted value with what follows it. A date may have a time behind a blank. -/
def unquoted (cs : List Char) : Option (Value × List Char) :=
  let (word, rest) := cs.span isScalar
  match date? word, rest with
  | some [], ' ' :: d :: _ =>
    if d.isDigit then
      let (time, rest) := rest.tail.span isScalar
      (scalar? (word ++ ' ' :: time)).map (·, rest)
    else (scalar? word).map (·, rest)
  | _, _ => (scalar? word).map (·, rest)

def depthLimit : Nat := 80

mutual

/-- A value and what follows it. Each call has read a character since the last one, so `fuel` is
enough if it is more than twice the length of `cs`. -/
def value? (fuel depth : Nat) (cs : List Char) : Option (Value × List Char) :=
  match fuel with
  | 0 => none
  | fuel + 1 =>
    match cs with
    | '"' :: _ | '\'' :: _ =>
      (quoted? cs).map fun (text, rest) => (.text (String.ofList text), rest)
    | '[' :: rest =>
      if depthLimit ≤ depth then none
      else (items? fuel (depth + 1) rest).map fun (items, rest) => (.list items, rest)
    | '\x7b' :: rest =>
      if depthLimit ≤ depth then none
      else (entries? fuel (depth + 1) [] rest).map fun (entries, rest) =>
        (.table .whole entries, rest)
    | _ => unquoted cs

def items? (fuel depth : Nat) (cs : List Char) : Option (List Value × List Char) :=
  match fuel with
  | 0 => none
  | fuel + 1 => do
    match ← skipFiller (cs.length + 1) cs with
    | ']' :: rest => some ([], rest)
    | cs =>
      let (item, rest) ← value? fuel depth cs
      match ← skipFiller (rest.length + 1) rest with
      | ',' :: rest =>
        let (items, rest) ← items? fuel depth rest
        some (item :: items, rest)
      | ']' :: rest => some ([item], rest)
      | _ => none

def entries? (fuel depth : Nat) (entries : Entries) (cs : List Char) :
    Option (Entries × List Char) :=
  match fuel with
  | 0 => none
  | fuel + 1 => do
    match ← skipFiller (cs.length + 1) cs with
    | '\x7d' :: rest => some (entries, rest)
    | cs =>
      let (path, rest) ← key? (cs.length + 1) cs
      let '=' :: rest := rest | none
      let (value, rest) ← value? fuel depth (skipBlanks rest)
      let entries ← defineKey path value entries
      match ← skipFiller (rest.length + 1) rest with
      | ',' :: rest => entries? fuel depth entries rest
      | '\x7d' :: rest => some (entries, rest)
      | _ => none

end

structure Draft where
  path : Path
  root : Entries

/-- A header opens a table, or with two brackets an item of a list of tables. -/
def header (draft : Draft) (cs : List Char) : Option (Draft × List Char) := do
  let (isItem, rest) := match cs with
    | '[' :: rest => (true, rest)
    | _ => (false, cs)
  let (path, rest) ← key? (rest.length + 1) rest
  let last ← path.getLast?
  let rest ← match isItem, rest with
    | true, ']' :: ']' :: rest => some rest
    | false, ']' :: rest => some rest
    | _, _ => none
  let opening := if isItem then openItem last else openTable last
  let root ← within opening draft.root path.dropLast
  some (⟨path, root⟩, ← endLine rest)

def assignment (draft : Draft) (cs : List Char) : Option (Draft × List Char) := do
  let (path, rest) ← key? (cs.length + 1) cs
  let '=' :: rest := rest | none
  let rest := skipBlanks rest
  let (value, rest) ← value? (2 * rest.length + 1) 0 rest
  let root ← within (defineKey path value) draft.root draft.path
  some ({ draft with root }, ← endLine rest)

/-- Each line has at least one character or is the last, so `fuel` is enough if it is more than the
length of `cs`. -/
def lines (fuel : Nat) (draft : Draft) (cs : List Char) : Option Entries :=
  match fuel with
  | 0 => none
  | fuel + 1 =>
    match skipBlanks cs with
    | [] => some draft.root
    | '[' :: rest => do
      let (draft, rest) ← header draft rest
      lines fuel draft rest
    | cs =>
      match endLine cs with
      | some rest => lines fuel draft rest
      | none => do
        let (draft, rest) ← assignment draft cs
        lines fuel draft rest

/-- The table that a document describes. A byte order mark at its beginning means nothing. -/
def read (document : String) : Option Value :=
  let cs := match document.toList with
    | '\ufeff' :: rest => rest
    | cs => cs
  (lines (cs.length + 1) ⟨[], []⟩ cs).map (.table .header ·)

end FiniteAutomata.Toml
