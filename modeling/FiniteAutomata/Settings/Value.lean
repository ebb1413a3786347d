/-!
The structured values from which settings are read. A table remembers how it came about, because
that decides whether a document may still add to it.
-/
namespace FiniteAutomata.Settings

inductive Origin where
  /-- Written out as one value; nothing can be added. -/
  | whole
  /-- Opened by a header of its own. -/
  | header
  /-- Passed by on the way to a header further down. -/
  | passed
  /-- Made by a dotted key. -/
  | dotted
deriving DecidableEq, Repr

inductive Value where
  | null
  | boolean (b : Bool)
  | integer (n : Int)
  | float
  | text (s : String)
  | moment
  | list (items : List Value)
  | table (origin : Origin) (entries : List (String × Value))
  /-- A list of tables that headers can extend. -/
  | tables (items : List (List (String × Value)))
deriving Inhabited

abbrev Entries := List (String × Value)

end FiniteAutomata.Settings
