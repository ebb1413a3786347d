import FiniteAutomata.Settings.Value

/-!
The unquoted values of a TOML document: truth values, integers, floats, dates and times. Each is
recognized from all its characters at once.
-/
namespace FiniteAutomata.Toml
open Settings

/-- The digits of a number. An underscore may stand between two digits and nowhere else. -/
def digits? (digit : Char → Bool) : List Char → Option (List Char)
  | [] => none
  | [c] => if digit c then some [c] else none
  | c :: '_' :: rest => if digit c then (digits? digit rest).map (c :: ·) else none
  | c :: rest => if digit c then (digits? digit rest).map (c :: ·) else none

def isHexDigit (c : Char) : Bool := c.isDigit || ('a' ≤ c && c ≤ 'f') || ('A' ≤ c && c ≤ 'F')

def digitValue (c : Char) : Nat :=
  if c.isDigit then c.toNat - '0'.toNat
  else if 'a' ≤ c then c.toNat - 'a'.toNat + 10
  else c.toNat - 'A'.toNat + 10

def number (base : Nat) (digits : List Char) : Nat :=
  digits.foldl (fun n c => n * base + digitValue c) 0

def decimal? (cs : List Char) : Option (List Char) :=
  match cs with
  | ['0'] => some ['0']
  | '0' :: _ => none
  | _ => digits? Char.isDigit cs

def unsigned : List Char → Bool × List Char
  | '+' :: rest => (false, rest)
  | '-' :: rest => (true, rest)
  | cs => (false, cs)

def integer? (cs : List Char) : Option Int :=
  match cs with
  | '0' :: 'x' :: rest => (digits? isHexDigit rest).map fun ds => number 16 ds
  | '0' :: 'o' :: rest => (digits? (fun c => '0' ≤ c && c ≤ '7') rest).map fun ds => number 8 ds
  | '0' :: 'b' :: rest => (digits? (fun c => c = '0' || c = '1') rest).map fun ds => number 2 ds
  | _ =>
    let (negative, rest) := unsigned cs
    (decimal? rest).map fun ds => if negative then -number 10 ds else number 10 ds

/-- Integers are kept if they fit into 128 bits, with or without a sign. -/
def integerFits (n : Int) : Bool :=
  if n < 0 then n.natAbs ≤ Nat.pow 2 127 else n.natAbs < Nat.pow 2 128

def floatFits (digits : List Char) (exponent : Int) : Bool :=
  let significant := digits.dropWhile (· = '0')
  let magnitude := significant.length + exponent
  if significant.isEmpty || magnitude < 300 then true
  else if 310 < magnitude then false
  else
    let bound := Nat.pow 2 1024 - Nat.pow 2 970
    let m := number 10 significant
    if 0 ≤ exponent then m * Nat.pow 10 exponent.toNat < bound
    else m < bound * Nat.pow 10 (-exponent).toNat

def exponent? (cs : List Char) : Option Int :=
  let (negative, rest) := unsigned cs
  (digits? Char.isDigit rest).map fun ds => if negative then -number 10 ds else number 10 ds

/-- The digits of a float and the power of ten they are to be multiplied by. A float has a fraction
or an exponent or both. -/
def float? (cs : List Char) : Option (List Char × Int) := do
  let (mantissa, power) := cs.span fun c => c != 'e' && c != 'E'
  let (whole, fraction) := mantissa.span (· != '.')
  let whole ← decimal? whole
  let fraction ← match fraction with
    | [] => if power.isEmpty then none else some []
    | _ :: ds => digits? Char.isDigit ds
  let exponent ← match power with
    | [] => some 0
    | _ :: ds => exponent? ds
  some (whole ++ fraction, exponent - fraction.length)

def twoDigits : List Char → Option (Nat × List Char)
  | a :: b :: rest => if a.isDigit && b.isDigit then some (number 10 [a, b], rest) else none
  | _ => none

def isLeapYear (year : Nat) : Bool := year % 4 == 0 && (year % 100 != 0 || year % 400 == 0)

def daysInMonth (year month : Nat) : Nat :=
  if month = 2 then if isLeapYear year then 29 else 28
  else if month = 4 || month = 6 || month = 9 || month = 11 then 30
  else 31

def date? (cs : List Char) : Option (List Char) := do
  let (century, rest) ← twoDigits cs
  let (year, rest) ← twoDigits rest
  let '-' :: rest := rest | none
  let (month, rest) ← twoDigits rest
  let '-' :: rest := rest | none
  let (day, rest) ← twoDigits rest
  if 1 ≤ month && month ≤ 12 && 1 ≤ day && day ≤ daysInMonth (century * 100 + year) month then
    some rest
  else none

def hourAndMinute? (cs : List Char) : Option (List Char) := do
  let (hour, rest) ← twoDigits cs
  let ':' :: rest := rest | none
  let (minute, rest) ← twoDigits rest
  if hour ≤ 23 && minute ≤ 59 then some rest else none

/-- Reads a time of the day and answers what follows it. Seconds may be left out, may be a leap
second and may have a fraction. -/
def time? (cs : List Char) : Option (List Char) := do
  let rest ← hourAndMinute? cs
  match rest with
  | ':' :: rest =>
    let (second, rest) ← twoDigits rest
    if 60 < second then none
    match rest with
    | '.' :: d :: rest => if d.isDigit then some (rest.dropWhile Char.isDigit) else none
    | '.' :: [] => none
    | _ => some rest
  | _ => some rest

def isOffset : List Char → Bool
  | [] => true
  | ['Z'] => true
  | ['z'] => true
  | '+' :: rest => hourAndMinute? rest == some []
  | '-' :: rest => hourAndMinute? rest == some []
  | _ => false

def isMoment (cs : List Char) : Bool :=
  match date? cs with
  | some [] => true
  | some (separator :: rest) =>
    (separator = 'T' || separator = 't' || separator = ' ') && (time? rest).any isOffset
  | none => time? cs == some []

def scalar? (cs : List Char) : Option Value :=
  let magnitude := (unsigned cs).2
  if cs = "true".toList then some (.boolean true)
  else if cs = "false".toList then some (.boolean false)
  else if magnitude = "inf".toList || magnitude = "nan".toList then some .float
  else match integer? cs with
    | some n => if integerFits n then some (.integer n) else none
    | none =>
      match float? magnitude with
      | some (digits, exponent) => if floatFits digits exponent then some .float else none
      | none => if isMoment cs then some .moment else none

end FiniteAutomata.Toml
