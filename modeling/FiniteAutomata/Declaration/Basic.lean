import FiniteAutomata.Declaration.Grammar.Basic

/-!
A declaration of settings: a named record whose fields have types and default values.
-/
namespace FiniteAutomata
namespace Declaration

structure FieldType where
  tokens : List Token
  isOption : Bool
deriving Repr

structure Field where
  name : String
  type : FieldType
  /-- The type that the field has in the partial record, where that is a section of its own. -/
  sectionType : Option FieldType := none
  value : List Token
deriving Repr

end Declaration

structure Declaration where
  visibility : List Declaration.Token
  name : String
  fields : List Declaration.Field
deriving Repr

end FiniteAutomata
