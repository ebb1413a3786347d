import FiniteAutomata.Declaration.Token

/-!
What can be wrong with a declaration. A fault says what was looked for; some also say whether the
text, or the group that was being read, had come to its end.
-/
namespace FiniteAutomata.Declaration

inductive SyntaxFault where
  | mark (expected : String)
  | keyword (expected : String) (atEnd : Bool)
  | identifier (atEnd : Bool)
  /-- A keyword stands where an identifier should. -/
  | reserved (found : String)
  | group (bracket : Bracket) (atEnd : Bool)
  | expression (atEnd : Bool)
  | alternatives (expected : List String) (atEnd : Bool)
  /-- Something is left at the end of a group, or of the whole text. -/
  | surplus (inside : Option Bracket)
  /-- A rule of its own is broken. -/
  | rule (text : String) (atEnd : Bool)
deriving DecidableEq, Repr

namespace SyntaxFault

def ended (atEnd : Bool) (message : String) : String :=
  if atEnd then "unexpected end of input, " ++ message else message

def quote (text : String) : String := "`" ++ text ++ "`"

def bracketName : Bracket → String
  | .round => "parentheses"
  | .square => "square brackets"
  | .curly => "curly braces"

def message : SyntaxFault → String
  | .mark expected => "expected " ++ quote expected
  | .keyword expected atEnd => ended atEnd ("expected " ++ quote expected)
  | .identifier atEnd => ended atEnd "expected identifier"
  | .reserved found => "expected identifier, found keyword " ++ quote found
  | .group bracket atEnd => ended atEnd ("expected " ++ bracketName bracket)
  | .expression atEnd => ended atEnd "expected an expression"
  | .alternatives expected atEnd =>
    match expected with
    | [one] => ended atEnd ("expected " ++ one)
    | [one, other] => ended atEnd ("expected " ++ one ++ " or " ++ other)
    | _ => ended atEnd ("expected one of: " ++ ", ".intercalate expected)
  | .surplus none => "unexpected token"
  | .surplus (some bracket) => "unexpected token, expected " ++ quote bracket.closing
  | .rule text atEnd => ended atEnd text

end SyntaxFault
end FiniteAutomata.Declaration
