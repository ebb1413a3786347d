/-!
The tokens of a settings declaration: words, literals, punctuation marks, lifetimes, and groups in
brackets. They are written with one blank between two, a punctuation mark at a time.
-/
namespace FiniteAutomata.Declaration

inductive Bracket where
  | round
  | square
  | curly
deriving DecidableEq, Repr

def Bracket.opening : Bracket → String
  | .round => "("
  | .square => "["
  | .curly => "\x7b"

def Bracket.closing : Bracket → String
  | .round => ")"
  | .square => "]"
  | .curly => "\x7d"

inductive Token where
  /-- An identifier or a keyword; raw identifiers keep their `r#`. -/
  | word (name : String)
  | literal (text : String)
  /-- One punctuation character; it is joint if another one follows without a blank. -/
  | mark (c : Char) (isJoint : Bool)
  | lifetime (name : String)
  | group (bracket : Bracket) (inside : List Token)
deriving Inhabited, Repr

namespace Token

def isComma : Token → Bool
  | .mark ',' _ => true
  | _ => false

mutual

def pieces : Token → List String
  | .word name => [name]
  | .literal text => [text]
  | .mark c _ => [c.toString]
  | .lifetime name => ["'", name]
  | .group bracket inside => bracket.opening :: (piecesInside inside ++ [bracket.closing])

/-- The written pieces of what stands in a group; a comma right before the end is left out. -/
def piecesInside : List Token → List String
  | [] => []
  | [last] => if last.isComma then [] else last.pieces
  | token :: rest => token.pieces ++ piecesInside rest

end

def written (tokens : List Token) : String :=
  " ".intercalate (tokens.flatMap pieces)

mutual

def count : Token → Nat
  | .group _ inside => 1 + countAll inside
  | _ => 1

def countAll : List Token → Nat
  | [] => 0
  | token :: rest => token.count + countAll rest

end

end Token
end FiniteAutomata.Declaration
