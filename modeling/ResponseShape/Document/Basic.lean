import ResponseShape.Schema.BuiltIn

/-!
# Documents

Operations and fragments whose selected fields are known to the schema: each field carries the
definition it selects.
-/

namespace ResponseShape

/-- A selected field without the selections made on it. -/
structure FieldSelection where
  definition : FieldDefinition
  aliasName : Option Name
  arguments : List Argument
  directives : List Directive
deriving BEq, Inhabited

namespace FieldSelection

/-- The name of the field. -/
def name (field : FieldSelection) : Name := field.definition.name

/-- The type of the field. -/
def type (field : FieldSelection) : TypeReference := field.definition.type

/-- The key under which responses hold the field. -/
def responseKey (field : FieldSelection) : Name := field.aliasName.getD field.name

end FieldSelection

/-- One selection. -/
inductive Selection where
  | field (field : FieldSelection) (selections : List Selection)
  | inlineFragment (typeCondition : Option Name) (directives : List Directive)
      (selections : List Selection)
  | fragmentSpread (name : Name) (directives : List Directive)
deriving Inhabited

namespace Selection

mutual

/-- Structural equality: the selections made on a field or in an inline fragment compare in order,
and a fragment is compared by its name. -/
def beq : Selection → Selection → Bool
  | .field left lefts, .field right rights => left == right && beqAll lefts rights
  | .inlineFragment leftType leftDirectives lefts,
    .inlineFragment rightType rightDirectives rights =>
      leftType == rightType && leftDirectives == rightDirectives && beqAll lefts rights
  | .fragmentSpread left leftDirectives, .fragmentSpread right rightDirectives =>
      left == right && leftDirectives == rightDirectives
  | _, _ => false

/-- Equality of lists of selections. -/
def beqAll : List Selection → List Selection → Bool
  | [], [] => true
  | left :: lefts, right :: rights => beq left right && beqAll lefts rights
  | _, _ => false

end

instance : BEq Selection := ⟨beq⟩

end Selection

/-- An operation. -/
structure Operation where
  kind : OperationKind
  name : Option Name
  /-- The type that the operation selects on. -/
  rootType : Name
  declaredVariables : List Written.VariableDefinition
  directives : List Directive
  selections : List Selection
deriving Inhabited

/-- A named fragment. -/
structure Fragment where
  name : Name
  /-- The type that the fragment selects on. -/
  typeCondition : Name
  directives : List Directive
  selections : List Selection
deriving Inhabited

/-- The operations and fragments of one text. -/
structure Document where
  operations : List Operation
  fragments : List Fragment
deriving Inhabited

namespace Document

/-- The operation of a name, or the anonymous one. -/
def operation? (document : Document) (name : Option Name) : Option Operation :=
  document.operations.find? (·.name == name)

/-- The fragment of a name. -/
def fragment? (document : Document) (name : Name) : Option Fragment :=
  document.fragments.find? (·.name == name)

end Document

end ResponseShape
