import ResponseShape.Schema.Basic

/-!
# Built-in definitions

What every schema defines without being told: the introspection types, the built-in scalars, the
built-in directives, and the fields through which documents reach introspection.
-/

namespace ResponseShape.BuiltIn

/-- A nullable named type. -/
private def maybe (name : Name) : TypeReference := .named name false

/-- A non-null named type. -/
private def certain (name : Name) : TypeReference := .named name true

/-- A nullable list of non-null members. -/
private def maybeMany (name : Name) : TypeReference := .list (.named name true) false

/-- A non-null list of non-null members. -/
private def many (name : Name) : TypeReference := .list (.named name true) true

/-- An argument without default. -/
private def argument (name : Name) (type : TypeReference) : InputValue := ⟨name, type, none, []⟩

/-- The argument that asks for deprecated entries, too. -/
private def includeDeprecated : InputValue :=
  ⟨"includeDeprecated", maybe "Boolean", some (.boolean false), []⟩

/-- A field without arguments. -/
private def field (name : Name) (type : TypeReference) : FieldDefinition := ⟨name, [], type, []⟩

/-- An object type without interfaces. -/
private def objectType (name : Name) (fields : List FieldDefinition) : TypeDefinition :=
  ⟨name, [], .object [] fields⟩

/-- An enumeration. -/
private def enumType (name : Name) (values : List Name) : TypeDefinition :=
  ⟨name, [], .enum (values.map fun value => ⟨value, []⟩)⟩

/-- The types that describe a schema to its clients. -/
def introspectionTypes : List TypeDefinition := [
  objectType "__Schema" [
    field "description" (maybe "String"),
    field "types" (many "__Type"),
    field "queryType" (certain "__Type"),
    field "mutationType" (maybe "__Type"),
    field "subscriptionType" (maybe "__Type"),
    field "directives" (many "__Directive")],
  objectType "__Type" [
    field "kind" (certain "__TypeKind"),
    field "name" (maybe "String"),
    field "description" (maybe "String"),
    ⟨"fields", [includeDeprecated], maybeMany "__Field", []⟩,
    field "interfaces" (maybeMany "__Type"),
    field "possibleTypes" (maybeMany "__Type"),
    ⟨"enumValues", [includeDeprecated], maybeMany "__EnumValue", []⟩,
    ⟨"inputFields", [includeDeprecated], maybeMany "__InputValue", []⟩,
    field "ofType" (maybe "__Type"),
    field "specifiedByURL" (maybe "String")],
  enumType "__TypeKind"
    ["SCALAR", "OBJECT", "INTERFACE", "UNION", "ENUM", "INPUT_OBJECT", "LIST", "NON_NULL"],
  objectType "__Field" [
    field "name" (certain "String"),
    field "description" (maybe "String"),
    ⟨"args", [includeDeprecated], many "__InputValue", []⟩,
    field "type" (certain "__Type"),
    field "isDeprecated" (certain "Boolean"),
    field "deprecationReason" (maybe "String")],
  objectType "__InputValue" [
    field "name" (certain "String"),
    field "description" (maybe "String"),
    field "type" (certain "__Type"),
    field "defaultValue" (maybe "String"),
    field "isDeprecated" (certain "Boolean"),
    field "deprecationReason" (maybe "String")],
  objectType "__EnumValue" [
    field "name" (certain "String"),
    field "description" (maybe "String"),
    field "isDeprecated" (certain "Boolean"),
    field "deprecationReason" (maybe "String")],
  objectType "__Directive" [
    field "name" (certain "String"),
    field "description" (maybe "String"),
    field "locations" (many "__DirectiveLocation"),
    ⟨"args", [includeDeprecated], many "__InputValue", []⟩,
    field "isRepeatable" (certain "Boolean")],
  enumType "__DirectiveLocation" (DirectiveLocation.names.map (·.1))]

/-- The scalars of every schema. -/
def scalarNames : List Name := ["Int", "Float", "String", "Boolean", "ID"]

/-- Whether a name is that of a scalar of every schema. -/
def isScalarName (name : Name) : Bool := scalarNames.contains name

/-- The types of every schema. -/
def types : List TypeDefinition :=
  introspectionTypes ++ scalarNames.map fun name => ⟨name, [], .scalar⟩

/-- The directives of every schema. -/
def directives : List DirectiveDefinition := [
  ⟨"skip", [argument "if" (certain "Boolean")], false, [.field, .fragmentSpread, .inlineFragment]⟩,
  ⟨"include", [argument "if" (certain "Boolean")], false,
    [.field, .fragmentSpread, .inlineFragment]⟩,
  ⟨"deprecated", [⟨"reason", maybe "String", some (.string "No longer supported"), []⟩], false,
    [.fieldDefinition, .argumentDefinition, .inputFieldDefinition, .enumValue]⟩,
  ⟨"specifiedBy", [argument "url" (certain "String")], false, [.scalar]⟩]

/-- The field that names the type of any object. -/
def typenameField : FieldDefinition := field "__typename" (certain "String")

/-- The fields through which queries reach introspection. -/
def queryFields : List FieldDefinition := [
  field "__schema" (certain "__Schema"),
  ⟨"__type", [argument "name" (certain "String")], maybe "__Type", []⟩]

end ResponseShape.BuiltIn

namespace ResponseShape.Schema

/-- The definition of a field that selections on a type may name: a declared one, the type name of
any composite type, or an entry to introspection on the query root, of whatever kind that is. -/
def field? (schema : Schema) (typeName fieldName : Name) : Option FieldDefinition := do
  let type ← schema.type? typeName
  let typenames := if type.kind.isComposite then [BuiltIn.typenameField] else []
  let entries := if schema.query == some typeName then BuiltIn.queryFields else []
  (type.fields ++ typenames ++ entries).find? (·.name == fieldName)

end ResponseShape.Schema
