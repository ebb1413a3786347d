import FiniteAutomata.SortedSet

/-!
The two written forms of labels and symbols. The plain form is for reports meant to be read; the
literal form quotes text, so that a comma or a brace inside a text cannot be taken for a separator.
-/
namespace FiniteAutomata

class Written (α : Type) where
  plain : α → String
  literal : α → String

namespace Written

def listed (left right : String) (items : List String) : String :=
  left ++ ", ".intercalate items ++ right

def braced : List String → String := listed "\x7b" "\x7d"

def bracketed : List String → String := listed "[" "]"

def isControl (c : Char) : Bool := c.toNat < 0x20 || 0x7f ≤ c.toNat && c.toNat < 0xa0

/-- A character inside a literal that ends at `quote`. Control characters are written by their code.
Other characters without a shape of their own, such as combining marks, zero-width spaces and codes
that stand for nothing, should be too; they are left as they are, since telling them takes tables. -/
def escaped (quote c : Char) : String :=
  match c with
  | '\\' => "\\\\"
  | '\n' => "\\n"
  | '\r' => "\\r"
  | '\t' => "\\t"
  | '\x00' => "\\0"
  | _ =>
    if c = quote then "\\" ++ c.toString
    else if isControl c then "\\u\x7b" ++ String.ofList (Nat.toDigits 16 c.toNat) ++ "\x7d"
    else c.toString

instance : Written Nat where
  plain := toString
  literal := toString

instance : Written Int where
  plain := toString
  literal := toString

instance : Written Char where
  plain := Char.toString
  literal c := "'" ++ escaped '\'' c ++ "'"

def literalText (text : String) : String :=
  "\"" ++ String.join (text.toList.map (escaped '"')) ++ "\""

instance : Written String where
  plain := id
  literal := literalText

instance [Ordered α] [Written α] : Written (SortedSet α) where
  plain s := braced (s.toList.map plain)
  literal s := braced (s.toList.map literal)

def literalWord [Written α] (word : List α) : String := bracketed (word.map literal)

def literalOption [Written α] : Option α → String
  | some a => "Some(" ++ literal a ++ ")"
  | none => "None"

end Written
end FiniteAutomata
