import FiniteAutomata.Settings.Basic
import FiniteAutomata.Toml.Document

/-!
Reading settings from structured values, from TOML documents and from files. Unknown names are
ignored; a value of the wrong type spoils the whole.
-/
namespace FiniteAutomata.Settings

/-- What a source of values does with a list that stands for a record and is too long. -/
inductive Surplus where
  | ignored
  | refused
deriving DecidableEq, Repr

/-- The values of a record's fields: by name from a table, in order from a list. A moment is a
record that has none of the fields. -/
def Value.fields? (surplus : Surplus) (names : List String) : Value → Option (List (Option Value))
  | .table _ entries => some (names.map fun name => entries.lookup name)
  | .list items =>
    if surplus = .refused && names.length < items.length then none
    else some ((List.range names.length).map fun i => items[i]?)
  | .tables items =>
    if surplus = .refused && names.length < items.length then none
    else some ((List.range names.length).map fun i => items[i]?.map (.table .header ·))
  | .moment => some (names.map fun _ => none)
  | _ => none

def optional? (read : Value → Option α) : Option Value → Option (Option α)
  | none => some none
  | some .null => some none
  | some v => (read v).map some

def Value.boolean? : Value → Option Bool
  | .boolean b => some b
  | _ => none

def Value.count? : Value → Option Nat
  | .integer n => if 0 ≤ n && n.toNat < UInt64.size then some n.toNat else none
  | _ => none

def Value.level? : Value → Option LogLevel
  | .text s => LogLevel.ofName? s
  | _ => none

def PartialLogSettings.ofValue? (surplus : Surplus) (v : Value) : Option PartialLogSettings := do
  match ← v.fields? surplus ["enabled", "log_level"] with
  | [enabled, level] =>
    some ⟨← optional? Value.boolean? enabled, ← optional? Value.level? level⟩
  | _ => none

def PartialConversionSettings.ofValue? (surplus : Surplus) (v : Value) :
    Option PartialConversionSettings := do
  match ← v.fields? surplus ["max_states", "logger"] with
  | [maxStates, log] =>
    some ⟨← optional? Value.count? maxStates,
      ← optional? (PartialLogSettings.ofValue? surplus) log⟩
  | _ => none

/-- Settings that are handed over as a value must be a table, and lists inside them may not be too
long. -/
def ofTable? (read : Surplus → Value → Option α) (v : Value) : Option α :=
  match v with
  | .table .. => read .refused v
  | _ => none

inductive ReadError where
  | invalidToml
  | missingFile
  | invalidText
deriving DecidableEq, Repr

def ReadError.message : ReadError → String
  | .invalidToml => "TOML parse error"
  | .missingFile => "No such file or directory (os error 2)"
  | .invalidText => "stream did not contain valid UTF-8"

/-- What is found where a file should be: nothing, or its bytes. -/
abbrev File := Option ByteArray

def File.text (file : File) : Except ReadError String :=
  match file with
  | none => .error .missingFile
  | some bytes =>
    match String.fromUTF8? bytes with
    | some text => .ok text
    | none => .error .invalidText

def ofToml (read : Value → Option α) (text : String) : Except ReadError α :=
  match (Toml.read text).bind read with
  | some a => .ok a
  | none => .error .invalidToml

def LogSettings.ofToml (text : String) : Except ReadError LogSettings :=
  (Settings.ofToml (PartialLogSettings.ofValue? .ignored) text).map (·.complete)

def ConversionSettings.ofToml (text : String) : Except ReadError ConversionSettings :=
  (Settings.ofToml (PartialConversionSettings.ofValue? .ignored) text).map (·.complete)

def LogSettings.ofFile (file : File) : Except ReadError LogSettings :=
  file.text.bind LogSettings.ofToml

def ConversionSettings.ofFile (file : File) : Except ReadError ConversionSettings :=
  file.text.bind ConversionSettings.ofToml

def LogSettings.ofOptionalFile : Option File → Except ReadError LogSettings
  | some file => ofFile file
  | none => .ok {}

def ConversionSettings.ofOptionalFile : Option File → Except ReadError ConversionSettings
  | some file => ofFile file
  | none => .ok {}

end FiniteAutomata.Settings
