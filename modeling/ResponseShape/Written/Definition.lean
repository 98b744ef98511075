import ResponseShape.Written.TypeReference

/-!
# Written definitions

What a text defines, before any name in it is looked up: operations and fragments on one side,
types, directives and root operation types on the other.
-/

namespace ResponseShape

/-- The three kinds of operations. -/
inductive OperationKind where
  | query
  | mutation
  | subscription
deriving DecidableEq, Hashable, Inhabited

/-- The keyword of an operation kind. -/
def OperationKind.keyword : OperationKind → String
  | .query => "query"
  | .mutation => "mutation"
  | .subscription => "subscription"

/-- An argument that a field or directive takes, or a field of an input object. -/
structure InputValue where
  name : Name
  type : TypeReference
  defaultValue : Option Value
  directives : List Directive
deriving BEq, Inhabited

/-- Whether a value has to be given: the type excludes `null` and there is no default. -/
def InputValue.isRequired (input : InputValue) : Bool :=
  input.type.isNonNull && input.defaultValue.isNone

/-- A field that a type declares. -/
structure FieldDefinition where
  name : Name
  arguments : List InputValue
  type : TypeReference
  directives : List Directive
deriving BEq, Inhabited

/-- A value that an enumeration lists. -/
structure EnumValue where
  name : Name
  directives : List Directive
deriving Inhabited

/-- What distinguishes the kinds of named types. -/
inductive TypeBody where
  | scalar
  | object (interfaces : List Name) (fields : List FieldDefinition)
  | interface (interfaces : List Name) (fields : List FieldDefinition)
  | union (members : List Name)
  | enum (values : List EnumValue)
  | inputObject (fields : List InputValue)
deriving Inhabited

/-- Whether a body lists nothing. -/
def TypeBody.isEmpty : TypeBody → Bool
  | scalar => true
  | object interfaces fields | interface interfaces fields => interfaces.isEmpty && fields.isEmpty
  | union members => members.isEmpty
  | enum values => values.isEmpty
  | inputObject fields => fields.isEmpty

/-- A named type, or an extension of one. -/
structure TypeDefinition where
  name : Name
  directives : List Directive
  body : TypeBody
deriving Inhabited

/-- The parts of texts that directives apply to. -/
inductive DirectiveLocation where
  | query
  | mutation
  | subscription
  | field
  | fragmentDefinition
  | fragmentSpread
  | inlineFragment
  | variableDefinition
  | schema
  | scalar
  | object
  | fieldDefinition
  | argumentDefinition
  | interface
  | union
  | enum
  | enumValue
  | inputObject
  | inputFieldDefinition
deriving DecidableEq, Inhabited

namespace DirectiveLocation

/-- Every location with its name. -/
def names : List (Name × DirectiveLocation) := [
  ("QUERY", query), ("MUTATION", mutation), ("SUBSCRIPTION", subscription), ("FIELD", field),
  ("FRAGMENT_DEFINITION", fragmentDefinition), ("FRAGMENT_SPREAD", fragmentSpread),
  ("INLINE_FRAGMENT", inlineFragment), ("VARIABLE_DEFINITION", variableDefinition),
  ("SCHEMA", schema), ("SCALAR", scalar), ("OBJECT", object),
  ("FIELD_DEFINITION", fieldDefinition), ("ARGUMENT_DEFINITION", argumentDefinition),
  ("INTERFACE", interface), ("UNION", union), ("ENUM", enum), ("ENUM_VALUE", enumValue),
  ("INPUT_OBJECT", inputObject), ("INPUT_FIELD_DEFINITION", inputFieldDefinition)]

/-- The location of a name. -/
def ofName? (name : Name) : Option DirectiveLocation := names.lookup name

/-- Where an operation of a kind takes directives. -/
def ofOperation : OperationKind → DirectiveLocation
  | .query => query
  | .mutation => mutation
  | .subscription => subscription

end DirectiveLocation

/-- A directive that texts may apply. -/
structure DirectiveDefinition where
  name : Name
  arguments : List InputValue
  repeatable : Bool
  locations : List DirectiveLocation
deriving Inhabited

namespace Written

/-- A selection, its field names not yet looked up. -/
inductive Selection where
  | field (aliasName : Option Name) (name : Name) (arguments : List Argument)
      (directives : List Directive) (selections : List Selection)
  | inlineFragment (typeCondition : Option Name) (directives : List Directive)
      (selections : List Selection)
  | fragmentSpread (name : Name) (directives : List Directive)
deriving Inhabited

/-- A variable that an operation declares. -/
structure VariableDefinition where
  name : Name
  type : TypeReference
  defaultValue : Option Value
  directives : List Directive
deriving Inhabited

/-- An operation. -/
structure Operation where
  kind : OperationKind
  name : Option Name
  declaredVariables : List VariableDefinition
  directives : List Directive
  selections : List Selection
deriving Inhabited

/-- A named fragment. -/
structure Fragment where
  name : Name
  typeCondition : Name
  directives : List Directive
  selections : List Selection
deriving Inhabited

/-- The root types that a schema definition or extension names. -/
abbrev RootTypes := List (OperationKind × Name)

/-- One definition of a text. -/
inductive Definition where
  | operation (operation : Operation)
  | fragment (fragment : Fragment)
  | schema (isExtension : Bool) (directives : List Directive) (roots : RootTypes)
  | type (isExtension : Bool) (definition : TypeDefinition)
  | directive (definition : DirectiveDefinition)
deriving Inhabited

/-- Operations and fragments are executable, all else belongs to a schema. -/
def Definition.isExecutable : Definition → Bool
  | .operation _ | .fragment _ => true
  | _ => false

end Written

end ResponseShape
