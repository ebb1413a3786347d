import FiniteAutomata.Declaration.Basic

/-!
What a declaration stands for: the record, its partial record, in which every field may be missing,
and the functions that fill, change and read a record. Types, signatures and bodies are written out,
one blank between two tokens.
-/
namespace FiniteAutomata.Declaration

structure Member where
  name : String
  type : String
  attributes : List String := []
deriving DecidableEq, Repr

structure Record where
  visibility : String
  name : String
  members : List Member
deriving DecidableEq, Repr

structure Function where
  visibility : String := ""
  signature : String
  body : String
deriving DecidableEq, Repr

structure Implementation where
  trait : Option String := none
  type : String
  functions : List Function
deriving DecidableEq, Repr

structure Expansion where
  record : Record
  partialRecord : Record
  functions : Implementation
  defaults : Implementation
  choice : Implementation
deriving DecidableEq, Repr

def spaced (parts : List String) : String := " ".intercalate parts

def inBraces (parts : List String) : String := spaced ("\x7b" :: (parts ++ ["\x7d"]))

def commaed (parts : List String) : List String := parts.intersperse ","

def plainName (name : String) : String :=
  if name.startsWith "r#" then (name.drop 2).toString else name

namespace Field

def written (f : Field) : String := Token.written f.type.tokens

/-- In the partial record a field is an option, if its type is not one already. -/
def partialType (f : Field) : String :=
  match f.sectionType with
  | some type => Token.written type.tokens
  | none => if f.type.isOption then f.written else spaced ["Option <", f.written, ">"]

def member (f : Field) : Member := { name := f.name, type := f.written }

def partialMember (f : Field) : Member :=
  { name := f.name, type := f.partialType, attributes := ["# [ serde ( default ) ]"] }

def chosen (f : Field) : String :=
  spaced [f.name, ":", "partial .", f.name, ". into_or (", Token.written f.value, ")"]

def initial (f : Field) : String := spaced [f.name, ":", Token.written f.value]

def accessors (f : Field) : List Function :=
  let name := plainName f.name
  let assignment := spaced ["self .", f.name, "=", f.name, ";"]
  let argument := spaced [f.name, ":", f.written]
  [{ visibility := "pub"
     signature := spaced ["fn with_" ++ name, "( mut self ,", argument, ") - > Self"]
     body := inBraces [assignment, "self"] },
   { visibility := "pub"
     signature := spaced ["fn set_" ++ name, "( & mut self ,", argument, ")"]
     body := inBraces [assignment] },
   { visibility := "pub"
     signature := spaced ["fn get_" ++ name, "( & self ) - > &", f.written]
     body := inBraces ["& self .", f.name] }]

end Field

def fromTomlText : Function :=
  { visibility := "pub"
    signature := "fn from_toml_str ( content : & str ) - > anyhow : : Result < Self >"
    body := inBraces ["Ok ( Self : : from_partial ( toml : : from_str ( content ) ? ) )"] }

def fromFile : Function :=
  { visibility := "pub"
    signature := spaced
      ["fn from_file < P : AsRef < std : : path : : Path > > ( file_path : P )",
       "- > anyhow : : Result < Self >"]
    body := inBraces
      ["let content =",
       "std : : fs : : read_to_string ( std : : fs : : canonicalize ( file_path ) ? ) ? ;",
       "Self : : from_toml_str ( & content )"] }

def fromOptionalFile : Function :=
  { visibility := "pub"
    signature := spaced
      ["fn from_optional_file < P : AsRef < std : : path : : Path > > ( file_path : Option < P > )",
       "- > anyhow : : Result < Self >"]
    body := inBraces
      ["match file_path", inBraces
        ["Some ( path ) = > Self : : from_file ( path ) ,",
         "None = > Ok ( Self : : default ( ) )"]] }

variable (d : Declaration)

def visibilityText : String := Token.written d.visibility

def partialName : String := "Partial" ++ plainName d.name

def fromPartial : Function :=
  { visibility := "pub"
    signature := spaced ["fn from_partial ( partial :", d.partialName, ") - > Self"]
    body := inBraces
      ["use crate : : config : : IntoOr ; Self", inBraces (commaed (d.fields.map Field.chosen))] }

def record : Record := ⟨d.visibilityText, d.name, d.fields.map Field.member⟩

def partialRecord : Record := ⟨d.visibilityText, d.partialName, d.fields.map Field.partialMember⟩

def functions : Implementation :=
  { type := d.name
    functions := [d.fromPartial, fromTomlText, fromFile, fromOptionalFile]
      ++ d.fields.flatMap Field.accessors }

def defaults : Implementation :=
  { trait := "Default"
    type := d.name
    functions :=
      [{ signature := "fn default ( ) - > Self"
         body := inBraces [d.name, inBraces (commaed (d.fields.map Field.initial))] }] }

def choice : Implementation :=
  { trait := spaced ["crate : : config : : IntoOr <", d.name, ">"]
    type := spaced ["Option <", d.partialName, ">"]
    functions :=
      [{ signature := spaced ["fn into_or ( self , or :", d.name, ") - >", d.name]
         body := inBraces
           ["match self", inBraces
             ["Some ( partial ) = >", d.name, ": : from_partial ( partial ) ,", "None = > or"]] }] }

def expansion : Expansion := ⟨d.record, d.partialRecord, d.functions, d.defaults, d.choice⟩

end FiniteAutomata.Declaration
