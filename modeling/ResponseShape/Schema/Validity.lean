import ResponseShape.Schema.Assembly
import ResponseShape.Schema.Implementation
import ResponseShape.Schema.InputTyping
import ResponseShape.Schema.References
import ResponseShape.Schema.Subtyping

/-!
# Valid schemas

Which texts describe a schema that documents can rely on: names are defined once, every type that
is named exists and is of the right kind, types keep what their interfaces promise, directives are
applied where they may be, and there is a query root. A valid schema drops the built-in scalars that
it does not use.
-/

namespace ResponseShape

namespace Schema

/-- Whether names are distinct and none is kept for introspection by two leading underscores. -/
def namesAreValid (names : List Name) : Bool :=
  areDistinct names && names.all (!·.startsWith "__")

/-- Whether a type can be the type of a field. -/
def isOutputName (schema : Schema) (name : Name) : Bool :=
  (schema.type? name).any (·.kind != .inputObject)

/-- Whether constant directives can be applied at a location. -/
def directivesFit (schema : Schema) (location : DirectiveLocation) (directives : List Directive) :
    Bool :=
  schema.directivesAreValid [] location directives

/-- Whether arguments, or the fields of an input object, have distinct names and input types. -/
def inputsAreValid (schema : Schema) (location : DirectiveLocation) (inputs : List InputValue) :
    Bool :=
  namesAreValid (inputs.map (·.name))
    && inputs.all fun input =>
      schema.isInputName input.type.innerName && schema.directivesFit location input.directives

/-- Whether a type has fields, each defined once, of a known type and with valid arguments. -/
def fieldsAreValid (schema : Schema) (fields : List FieldDefinition) : Bool :=
  !fields.isEmpty && namesAreValid (fields.map (·.name))
    && fields.all fun field =>
      schema.isOutputName field.type.innerName
        && schema.inputsAreValid .argumentDefinition field.arguments
        && schema.directivesFit .fieldDefinition field.directives

/-- Where directives are applied to a type of a kind. -/
def locationOf : TypeKind → DirectiveLocation
  | .object => .object
  | .interface => .interface
  | .union => .union
  | .scalar => .scalar
  | .enum => .enum
  | .inputObject => .inputObject

/-- Whether the parts of a type are valid. Nothing is asked of what extends a built-in scalar. -/
def typeIsValid (schema : Schema) (type : TypeDefinition) : Bool :=
  (BuiltIn.isScalarName type.name || schema.directivesFit (locationOf type.kind) type.directives)
    && areDistinct type.interfaces && type.interfaces.all (schema.implements type)
    && match type.body with
      | .scalar => true
      | .object _ fields | .interface _ fields => schema.fieldsAreValid fields
      | .union members =>
          !members.isEmpty && areDistinct members
            && members.all fun member => (schema.type? member).any (·.kind == .object)
      | .enum values =>
          !values.isEmpty && namesAreValid (values.map (·.name))
            && values.all fun value => schema.directivesFit .enumValue value.directives
      | .inputObject fields =>
          !fields.isEmpty && schema.inputsAreValid .inputFieldDefinition fields
            && schema.isFoundedInput type.name

/-- Whether a directive is valid: its arguments are, and it is not applied within its definition. -/
def directiveIsValid (schema : Schema) (definition : DirectiveDefinition) : Bool :=
  schema.inputsAreValid .argumentDefinition definition.arguments
    && schema.isFoundedDirective definition.name

/-- Whether the root types are different object types, with one for queries among them. -/
def rootsAreValid (schema : Schema) : Bool :=
  schema.query.isSome && areDistinct schema.rootTypes
    && schema.rootTypes.all fun root => (schema.type? root).any (·.kind == .object)

/-- Whether a schema is valid. -/
def isValid (schema : Schema) : Bool :=
  areDistinct (schema.types.map (·.name)) && schema.types.all schema.typeIsValid
    && schema.directives.all schema.directiveIsValid && schema.rootsAreValid

/-- Whether every extension has a type to extend. One of another kind than the type is passed over
if it comes before the type's definition. -/
def extensionsFit (defined : List TypeDefinition) : List Written.Definition → Bool
  | [] => true
  | .type false type :: rest => extensionsFit (type :: defined) rest
  | .type true extension :: rest =>
      (match defined.find? (·.name == extension.name) with
        | some type => type.kind == extension.kind
        | none => (Written.typeDefinitions rest).any (·.name == extension.name))
        && extensionsFit defined rest
  | _ :: rest => extensionsFit defined rest

/-- Whether the definitions of a text go together: they belong to a schema, names of types and
directives are given once, extensions have something to extend, and at most one definition of the
schema names each root once. -/
def definitionsFit (definitions : List Written.Definition) : Bool :=
  let types := Written.typeDefinitions definitions
  let directives := Written.directiveDefinitions definitions
  let schemas := Written.countSchemas false definitions
  !definitions.any (·.isExecutable)
    && namesAreValid (types.map (·.name)) && namesAreValid (directives.map (·.name))
    && extensionsFit BuiltIn.types definitions
    && schemas ≤ 1
    && (Written.countSchemas true definitions == 0 || schemas == 1 || !(usualRoots types).isEmpty)
    && areDistinct ((allRoots definitions types).map (·.1.keyword))

/-- The types that fields, arguments and input fields have. -/
def usedTypes (schema : Schema) : List Name :=
  let ofInputs (inputs : List InputValue) := inputs.map (·.type.innerName)
  schema.types.flatMap (fun type =>
      match type.body with
      | .object _ fields | .interface _ fields =>
          fields.flatMap fun field => field.type.innerName :: ofInputs field.arguments
      | .inputObject fields => ofInputs fields
      | _ => [])
    ++ schema.directives.flatMap fun directive => ofInputs directive.arguments

/-- The schema without the built-in scalars that nothing uses. -/
def withoutUnusedScalars (schema : Schema) : Schema :=
  let used := schema.usedTypes
  { schema with
    types := schema.types.filter fun type =>
      used.contains type.name || !BuiltIn.isScalarName type.name }

/-- The schema that a text defines, taken as valid. -/
def assumed? (text : String) : Option Schema := (Written.definitions? text).map ofDefinitions

/-- The schema that a text defines, if it is valid. -/
def validated? (text : String) : Option Schema := do
  let definitions ← Written.definitions? text
  let schema := ofDefinitions definitions
  if definitionsFit definitions && schema.isValid
      && schema.directivesFit .schema (Written.schemaDirectives definitions)
  then return schema.withoutUnusedScalars
  else none

end Schema

end ResponseShape
