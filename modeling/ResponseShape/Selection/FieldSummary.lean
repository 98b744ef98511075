import ResponseShape.Document.Basic
import ResponseShape.Inclusion.Alternatives

/-!
# Field summaries

What is known of a selected field, whatever its type: what it selects, under which conditions, and
whether the schema deprecates it.
-/

namespace ResponseShape

/-- A selected field without the selections made on it. -/
structure FieldSummary where
  name : Name
  aliasName : Option Name
  type : TypeReference
  arguments : List Argument
  /-- Absent if the field is included whenever its scope is. -/
  conditions : Option Alternatives
  /-- Why the field is deprecated, if it is. -/
  deprecation : Option String
deriving Inhabited

namespace FieldSummary

/-- The reason given for a deprecation that names none. -/
def defaultDeprecation : String := "No longer supported"

/-- Why a field definition is deprecated, if it is. -/
def deprecationOf (definition : FieldDefinition) : Option String :=
  (definition.directives.find? (·.name == "deprecated")).map fun directive =>
    match directive.argument? "reason" with
    | some (.string reason) => reason
    | _ => defaultDeprecation

/-- The summary of a field as a document selects it, under the given conditions. -/
def ofSelection (field : FieldSelection) (conditions : Option Alternatives) : FieldSummary where
  name := field.name
  aliasName := field.aliasName
  type := field.type
  arguments := field.arguments
  conditions := conditions
  deprecation := deprecationOf field.definition

/-- The key under which responses hold the field. -/
def responseKey (field : FieldSummary) : Name := field.aliasName.getD field.name

/-- Whether two fields select the same data under the same key. -/
def selectsSame (field other : FieldSummary) : Bool :=
  field.name == other.name && field.aliasName == other.aliasName && field.type == other.type
    && field.arguments == other.arguments

/-- The arguments between parentheses, nothing if there are none. -/
def renderArguments (field : FieldSummary) : String :=
  if field.arguments.isEmpty then ""
  else "(" ++ ", ".intercalate (field.arguments.map (·.render)) ++ ")"

/-- The field and its type, as conflicts report it. -/
def signature (field : FieldSummary) : String :=
  field.name ++ field.renderArguments ++ ": " ++ field.type.render

/-- The field as selected, with its conditions. -/
def render (field : FieldSummary) : String :=
  ((field.aliasName.map (· ++ ": ")).getD "") ++ field.name ++ field.renderArguments
    ++ ((field.conditions.map fun conditions => " @if(" ++ conditions.render ++ ")").getD "")

/-- The error that two fields with one response key select different data. -/
def conflict (parentType : Name) (existing incoming : FieldSummary) : BuildError :=
  .fieldConflict existing.responseKey parentType existing.signature incoming.signature

end FieldSummary

end ResponseShape
