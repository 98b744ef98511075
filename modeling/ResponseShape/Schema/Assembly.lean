import ResponseShape.Ordered
import ResponseShape.Schema.BuiltIn
import ResponseShape.Written.Reader

/-!
# Assembling schemas

A schema gathers the built-in definitions and those of a text. Extensions add to the end of what
they extend, wherever in the text they stand, and root types are looked up by their usual names
unless the text defines the schema itself.
-/

namespace ResponseShape

namespace Written

/-- The types that a text defines, in order. -/
def typeDefinitions (definitions : List Definition) : List TypeDefinition :=
  definitions.filterMap fun
    | .type false definition => some definition
    | _ => none

/-- The type extensions of a text, in order. -/
def typeExtensions (definitions : List Definition) : List TypeDefinition :=
  definitions.filterMap fun
    | .type true definition => some definition
    | _ => none

/-- The directives that a text defines, in order. -/
def directiveDefinitions (definitions : List Definition) : List DirectiveDefinition :=
  definitions.filterMap fun
    | .directive definition => some definition
    | _ => none

/-- The root types that schema definitions or schema extensions name. -/
def rootTypes (ofExtensions : Bool) (definitions : List Definition) : RootTypes :=
  definitions.flatMap fun
    | .schema isExtension _ roots => if isExtension == ofExtensions then roots else []
    | _ => []

/-- The directives that schema definitions and schema extensions apply. -/
def schemaDirectives (definitions : List Definition) : List Directive :=
  definitions.flatMap fun
    | .schema _ directives _ => directives
    | _ => []

/-- How many schema definitions, or extensions, a text has. -/
def countSchemas (ofExtensions : Bool) (definitions : List Definition) : Nat :=
  definitions.countP fun
    | .schema isExtension _ _ => isExtension == ofExtensions
    | _ => false

end Written

namespace Schema

/-- A type with an extension, which adds nothing if it is of another kind. -/
def extendOnce (type extension : TypeDefinition) : TypeDefinition :=
  if extension.name == type.name && extension.kind == type.kind then
    { type with
      directives := type.directives ++ extension.directives
      body := type.body.extended extension.body }
  else type

/-- A type with its extensions. -/
def extendType (extensions : List TypeDefinition) (type : TypeDefinition) : TypeDefinition :=
  extensions.foldl extendOnce type

/-- The name that a root type has if the schema does not say otherwise. -/
def usualRootName : OperationKind → Name
  | .query => "Query"
  | .mutation => "Mutation"
  | .subscription => "Subscription"

/-- The root types of a schema that does not say otherwise: the object types of the usual names. -/
def usualRoots (types : List TypeDefinition) : Written.RootTypes :=
  ([.query, .mutation, .subscription].filter fun kind => types.any fun type =>
    type.name == usualRootName kind && type.kind == .object).map fun kind =>
      (kind, usualRootName kind)

/-- The root types of a text that defines the given types: those that a schema definition names or,
without such a definition, the usual ones; then those that schema extensions name. -/
def allRoots (definitions : List Written.Definition) (types : List TypeDefinition) :
    Written.RootTypes :=
  let defined :=
    if Written.countSchemas false definitions == 0 then usualRoots types
    else Written.rootTypes false definitions
  defined ++ Written.rootTypes true definitions

/-- The schema of a text's definitions. -/
def ofDefinitions (definitions : List Written.Definition) : Schema :=
  let types := (BuiltIn.types ++ Written.typeDefinitions definitions).map
    (extendType (Written.typeExtensions definitions))
  let directives := Written.directiveDefinitions definitions
  let root? (kind : OperationKind) : Option Name := (allRoots definitions types).lookup kind
  { types
    directives := directives ++ BuiltIn.directives
    query := root? .query
    mutation := root? .mutation
    subscription := root? .subscription }

end Schema

end ResponseShape
