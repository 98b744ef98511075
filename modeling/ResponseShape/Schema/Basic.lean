import ResponseShape.Written.Definition

/-!
# Schemas

The types and directives that documents refer to, in the order in which they were defined.
-/

namespace ResponseShape

/-- The kinds of named types. -/
inductive TypeKind where
  | object
  | interface
  | union
  | scalar
  | enum
  | inputObject
deriving DecidableEq, Inhabited

namespace TypeKind

/-- How a kind is called. -/
def text : TypeKind → String
  | object => "object"
  | interface => "interface"
  | union => "union"
  | scalar => "scalar"
  | enum => "enum"
  | inputObject => "input object"

/-- Composite types are those that selections are made on. -/
def isComposite : TypeKind → Bool
  | object | interface | union => true
  | _ => false

/-- Abstract types stand for several object types. -/
def isAbstract : TypeKind → Bool
  | interface | union => true
  | _ => false

/-- Types that arguments and variables can have. -/
def isInput : TypeKind → Bool
  | scalar | enum | inputObject => true
  | _ => false

end TypeKind

namespace TypeBody

/-- The kind that a type's body makes it. -/
def kind : TypeBody → TypeKind
  | scalar => .scalar
  | object .. => .object
  | interface .. => .interface
  | union _ => .union
  | enum _ => .enum
  | inputObject _ => .inputObject

/-- The interfaces that an object or interface type declares. -/
def interfaces : TypeBody → List Name
  | object interfaces _ | interface interfaces _ => interfaces
  | _ => []

/-- The fields that an object or interface type declares. -/
def fields : TypeBody → List FieldDefinition
  | object _ fields | interface _ fields => fields
  | _ => []

/-- The members that a union declares. -/
def members : TypeBody → List Name
  | union members => members
  | _ => []

/-- A body with what an extension of the same kind adds to its end. An extension of another kind
adds nothing. -/
def extended : TypeBody → TypeBody → TypeBody
  | object interfaces fields, object moreInterfaces moreFields =>
      object (interfaces ++ moreInterfaces) (fields ++ moreFields)
  | interface interfaces fields, interface moreInterfaces moreFields =>
      interface (interfaces ++ moreInterfaces) (fields ++ moreFields)
  | union members, union more => union (members ++ more)
  | enum values, enum more => enum (values ++ more)
  | inputObject fields, inputObject more => inputObject (fields ++ more)
  | body, _ => body

end TypeBody

namespace TypeDefinition

/-- The kind of a type. -/
def kind (type : TypeDefinition) : TypeKind := type.body.kind

/-- The interfaces that a type declares. -/
def interfaces (type : TypeDefinition) : List Name := type.body.interfaces

/-- The fields that a type declares. -/
def fields (type : TypeDefinition) : List FieldDefinition := type.body.fields

/-- The members of a union. -/
def members (type : TypeDefinition) : List Name := type.body.members

end TypeDefinition

/-- The types, directives and root types of a service. -/
structure Schema where
  types : List TypeDefinition
  directives : List DirectiveDefinition
  query : Option Name
  mutation : Option Name
  subscription : Option Name
deriving Inhabited

namespace Schema

/-- The type of a name, if the schema defines one. -/
def type? (schema : Schema) (name : Name) : Option TypeDefinition :=
  schema.types.find? (·.name == name)

/-- What the type of a name consists of, if the schema defines one. -/
def body? (schema : Schema) (name : Name) : Option TypeBody := (schema.type? name).map (·.body)

/-- The directive of a name, if the schema defines one. -/
def directive? (schema : Schema) (name : Name) : Option DirectiveDefinition :=
  schema.directives.find? (·.name == name)

/-- The type that operations of a kind start from. -/
def rootType? (schema : Schema) : OperationKind → Option Name
  | .query => schema.query
  | .mutation => schema.mutation
  | .subscription => schema.subscription

/-- The defined root types: query, mutation, subscription. -/
def rootTypes (schema : Schema) : List Name :=
  [schema.query, schema.mutation, schema.subscription].filterMap id

/-- Whether a name is that of an object, interface or union type. -/
def isCompositeName (schema : Schema) (name : Name) : Bool :=
  (schema.type? name).any (·.kind.isComposite)

/-- Whether a name is that of a type that arguments can have. -/
def isInputName (schema : Schema) (name : Name) : Bool :=
  (schema.type? name).any (·.kind.isInput)

end Schema

end ResponseShape
