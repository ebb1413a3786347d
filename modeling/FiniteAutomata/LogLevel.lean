/-!
How severe a report is, and the words by which a level is asked for. Levels are read in two ways:
by their exact name, as settings are, or leniently, with abbreviations and in any case.
-/
namespace FiniteAutomata

inductive LogLevel where
  | debug
  | info
  | warn
  | error
deriving DecidableEq, Repr

namespace LogLevel

def all : List LogLevel := [.debug, .info, .warn, .error]

def name : LogLevel → String
  | .debug => "Debug"
  | .info => "Info"
  | .warn => "Warn"
  | .error => "Error"

def tag : LogLevel → String
  | .debug => "DEBUG"
  | .info => "INFO"
  | .warn => "WARN"
  | .error => "ERROR"

def ofName? (text : String) : Option LogLevel := all.find? (·.name == text)

def words : LogLevel → List String
  | .debug => ["debug", "dbg"]
  | .info => ["info", "inf"]
  | .warn => ["warn", "warning", "war"]
  | .error => ["error", "err"]

structure Unknown where
  text : String
deriving DecidableEq, Repr

def Unknown.message (e : Unknown) : String := "Invalid log level: " ++ e.text

/-- Case is ignored. Lowering the ASCII letters is enough: a word holds no other letter, and the two
other characters whose lower case begins with a letter of ASCII become `k`, which is in no word,
or `i` with a dot above it. -/
def parse (text : String) : Except Unknown LogLevel :=
  match all.find? (·.words.contains text.toLower) with
  | some level => .ok level
  | none => .error ⟨text⟩

def severity : LogLevel → Nat
  | .debug => 0
  | .info => 1
  | .warn => 2
  | .error => 3

def shows (threshold level : LogLevel) : Bool := threshold.severity ≤ level.severity

end LogLevel
end FiniteAutomata
