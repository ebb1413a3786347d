import FiniteAutomata.Settings.Value

/-!
How the lines of a TOML document build its tables. Nothing is defined twice: a key has one value,
a table has one header, and what a value, a header or a dotted key has made stays closed to the
others.
-/
namespace FiniteAutomata.Toml
open Settings

abbrev Path := List String

def replace (key : String) (value : Value) (entries : Entries) : Entries :=
  entries.map fun entry => if entry.1 = key then (key, value) else entry

def changeLast (change : Entries → Option Entries) : List Entries → Option (List Entries)
  | [] => none
  | [entries] => (change entries).map ([·])
  | entries :: rest => (changeLast change rest).map (entries :: ·)

/-- Changes the table to which a header's path leads. Tables that are missing on the way are made;
of a list of tables the last one is meant. -/
def within (change : Entries → Option Entries) (entries : Entries) : Path → Option Entries
  | [] => change entries
  | key :: path =>
    match entries.lookup key with
    | none => (within change [] path).map fun inner => entries ++ [(key, .table .passed inner)]
    | some (.table .whole _) => none
    | some (.table origin inner) =>
      (within change inner path).map fun inner => replace key (.table origin inner) entries
    | some (.tables items) =>
      (changeLast (within change · path) items).map fun items => replace key (.tables items) entries
    | some _ => none

def openTable (key : String) (entries : Entries) : Option Entries :=
  match entries.lookup key with
  | none => some (entries ++ [(key, .table .header [])])
  | some (.table .passed inner) => some (replace key (.table .header inner) entries)
  | some _ => none

def openItem (key : String) (entries : Entries) : Option Entries :=
  match entries.lookup key with
  | none => some (entries ++ [(key, .tables [[]])])
  | some (.tables items) => some (replace key (.tables (items ++ [[]])) entries)
  | some _ => none

/-- Defines a key. With dots in front of the last name, the table that holds it must be one that
dotted keys have made. -/
def define (value : Value) (isDotted viaDots : Bool) (entries : Entries) : Path → Option Entries
  | [] => none
  | [key] =>
    if isDotted = viaDots && (entries.lookup key).isNone then some (entries ++ [(key, value)])
    else none
  | key :: path =>
    match entries.lookup key with
    | none => (define value true true [] path).map fun inner =>
        entries ++ [(key, .table .dotted inner)]
    | some (.table .dotted inner) => (define value true true inner path).map fun inner =>
        replace key (.table .dotted inner) entries
    | some (.table .passed inner) => (define value false true inner path).map fun inner =>
        replace key (.table .passed inner) entries
    | some (.tables items) => (changeLast (define value false true · path) items).map fun items =>
        replace key (.tables items) entries
    | some _ => none

def defineKey (path : Path) (value : Value) (entries : Entries) : Option Entries :=
  define value false false entries path

end FiniteAutomata.Toml
