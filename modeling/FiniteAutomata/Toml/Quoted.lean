import FiniteAutomata.Toml.Scalar

/-!
The quoted texts of a TOML document. Each function reads from behind the opening quotes and answers
the text and what follows the closing ones.
-/
namespace FiniteAutomata.Toml

def isPrintable (c : Char) : Bool := c = '\t' || (' ' ≤ c && c ≠ '\x7f')

def character? (hex : List Char) : Option Char :=
  let n := number 16 hex
  if hex.all isHexDigit && n.isValidChar then some (Char.ofNat n) else none

def andThen (c : Char) (read : Option (List Char × List Char)) : Option (List Char × List Char) :=
  read.map fun (text, rest) => (c :: text, rest)

/-- Behind a backslash: a letter for a character, or `x`, `u` and `U` with its number in two, four
or eight hexadecimal digits. -/
def escape? : List Char → Option (Char × List Char)
  | 'b' :: rest => some ('\x08', rest)
  | 't' :: rest => some ('\t', rest)
  | 'n' :: rest => some ('\n', rest)
  | 'f' :: rest => some ('\x0c', rest)
  | 'r' :: rest => some ('\r', rest)
  | 'e' :: rest => some ('\x1b', rest)
  | '"' :: rest => some ('"', rest)
  | '\\' :: rest => some ('\\', rest)
  | 'x' :: rest => hexadecimal 2 rest
  | 'u' :: rest => hexadecimal 4 rest
  | 'U' :: rest => hexadecimal 8 rest
  | _ => none
where
  hexadecimal (count : Nat) (cs : List Char) : Option (Char × List Char) :=
    if cs.length < count then none
    else (character? (cs.take count)).map fun c => (c, cs.drop count)

theorem hexadecimal_length {count : Nat} {cs rest : List Char} {c : Char}
    (read : escape?.hexadecimal count cs = some (c, rest)) : rest.length ≤ cs.length := by
  simp only [escape?.hexadecimal] at read
  split at read
  · cases read
  · obtain ⟨_, _, same⟩ := Option.map_eq_some_iff.mp read
    cases same
    simp

theorem escape?_shorter {cs rest : List Char} {c : Char} (read : escape? cs = some (c, rest)) :
    rest.length < cs.length := by
  unfold escape? at read
  split at read <;> grind [→ hexadecimal_length]

def basic (cs : List Char) : Option (List Char × List Char) :=
  match cs with
  | [] => none
  | '"' :: rest => some ([], rest)
  | '\\' :: rest =>
    match _ : escape? rest with
    | some (c, rest) => andThen c (basic rest)
    | none => none
  | c :: rest => if isPrintable c then andThen c (basic rest) else none
termination_by cs.length
decreasing_by
  · have := escape?_shorter ‹_›
    simp only [List.length_cons]
    omega
  · simp

def literal : List Char → Option (List Char × List Char)
  | [] => none
  | '\'' :: rest => some ([], rest)
  | c :: rest => if isPrintable c then andThen c (literal rest) else none

def skipBlanks (cs : List Char) : List Char := cs.dropWhile fun c => c = ' ' || c = '\t'

def newline? : List Char → Option (List Char)
  | '\n' :: rest => some rest
  | '\r' :: '\n' :: rest => some rest
  | _ => none

def skipSpace : List Char → List Char
  | ' ' :: rest => skipSpace rest
  | '\t' :: rest => skipSpace rest
  | '\n' :: rest => skipSpace rest
  | '\r' :: '\n' :: rest => skipSpace rest
  | cs => cs

theorem skipSpace_length (cs : List Char) : (skipSpace cs).length ≤ cs.length := by
  fun_induction skipSpace cs <;> simp_all <;> omega

/-- Three quotes close a text of several lines; one or two more in front of them belong to it. -/
def closing? (quote : Char) (cs : List Char) : Option (List Char × List Char) :=
  let quotes := min (cs.takeWhile (· = quote)).length 5
  if quotes < 3 then none else some (List.replicate (quotes - 3) quote, cs.drop quotes)

/-- A text in three double quotes. A backslash at the end of a line joins it to the next word. -/
def basicLines (cs : List Char) : Option (List Char × List Char) :=
  match closing? '"' cs with
  | some found => some found
  | none =>
    match cs with
    | [] => none
    | '\\' :: rest =>
      match newline? (skipBlanks rest) with
      | some _ => basicLines (skipSpace rest)
      | none =>
        match _ : escape? rest with
        | some (c, rest) => andThen c (basicLines rest)
        | none => none
    | '\r' :: '\n' :: rest => andThen '\n' (basicLines rest)
    | c :: rest => if isPrintable c || c = '\n' then andThen c (basicLines rest) else none
termination_by cs.length
decreasing_by
  · have := skipSpace_length rest
    simp only [List.length_cons]
    omega
  · have := escape?_shorter ‹_›
    simp only [List.length_cons]
    omega
  · simp only [List.length_cons]
    omega
  · simp

def literalLines (cs : List Char) : Option (List Char × List Char) :=
  match closing? '\'' cs with
  | some found => some found
  | none =>
    match cs with
    | [] => none
    | '\r' :: '\n' :: rest => andThen '\n' (literalLines rest)
    | c :: rest => if isPrintable c || c = '\n' then andThen c (literalLines rest) else none

/-- A line end right behind three opening quotes is no part of the text. -/
def skipFirstNewline (cs : List Char) : List Char := (newline? cs).getD cs

def quoted? : List Char → Option (List Char × List Char)
  | '"' :: '"' :: '"' :: rest => basicLines (skipFirstNewline rest)
  | '"' :: rest => basic rest
  | '\'' :: '\'' :: '\'' :: rest => literalLines (skipFirstNewline rest)
  | '\'' :: rest => literal rest
  | _ => none

end FiniteAutomata.Toml
