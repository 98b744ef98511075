import ResponseShape.Document.Basic
import ResponseShape.Written.Reader

/-!
# Looking up what a document selects

Every field that a written document selects is looked up on the type it is selected on. A document
that selects an unknown field, or selects on a field without fields, has no typed form. Nothing is
known of the fields of an undefined type, so they are left out.
-/

namespace ResponseShape

namespace Schema

/-- Whether the schema defines a type of the name. -/
def definesType (schema : Schema) (name : Name) : Bool := (schema.type? name).isSome

/-- Whether a name is that of a type whose values have no parts to select. -/
def isLeafName (schema : Schema) (name : Name) : Bool :=
  (schema.type? name).any fun type => type.kind == .scalar || type.kind == .enum

end Schema

namespace Written

mutual

/-- A selection on the given type, its fields looked up: a single selection, or nothing for a field
of an undefined type. -/
def Selection.typed? (schema : Schema) (parent : Name) :
    Selection → Option (List ResponseShape.Selection)
  | .field aliasName name arguments directives selections =>
      if !schema.definesType parent then some []
      else do
        let definition ← schema.field? parent name
        let inner := definition.type.innerName
        if schema.isLeafName inner && !selections.isEmpty then none
        else
          let typed ← Selection.typedAll? schema inner selections
          return [.field ⟨definition, aliasName, arguments, directives⟩ typed]
  | .inlineFragment typeCondition directives selections =>
      if !typeCondition.all schema.definesType then none
      else do
        let typed ← Selection.typedAll? schema (typeCondition.getD parent) selections
        return [.inlineFragment typeCondition directives typed]
  | .fragmentSpread name directives => some [.fragmentSpread name directives]

/-- Selections on the given type, their fields looked up. -/
def Selection.typedAll? (schema : Schema) (parent : Name) :
    List Selection → Option (List ResponseShape.Selection)
  | [] => some []
  | selection :: rest => do
      let first ← Selection.typed? schema parent selection
      return first ++ (← Selection.typedAll? schema parent rest)

end

/-- An operation on the root type of its kind. -/
def Operation.typed? (schema : Schema) (operation : Operation) :
    Option ResponseShape.Operation := do
  let rootType ← schema.rootType? operation.kind
  return {
    kind := operation.kind
    name := operation.name
    rootType
    declaredVariables := operation.declaredVariables
    directives := operation.directives
    selections := ← Selection.typedAll? schema rootType operation.selections }

/-- A fragment on the type of its condition. -/
def Fragment.typed? (schema : Schema) (fragment : Fragment) : Option ResponseShape.Fragment :=
  if !schema.definesType fragment.typeCondition then none
  else do
    return {
      name := fragment.name
      typeCondition := fragment.typeCondition
      directives := fragment.directives
      selections := ← Selection.typedAll? schema fragment.typeCondition fragment.selections }

/-- The operations that a text defines, in order. -/
def operations (definitions : List Definition) : List Operation :=
  definitions.filterMap fun
    | .operation operation => some operation
    | _ => none

/-- The fragments that a text defines, in order. -/
def fragments (definitions : List Definition) : List Fragment :=
  definitions.filterMap fun
    | .fragment fragment => some fragment
    | _ => none

end Written

namespace Document

/-- The document of a text's definitions. The anonymous operation comes before the named ones. -/
def ofDefinitions? (schema : Schema) (definitions : List Written.Definition) :
    Option Document := do
  if !definitions.all (·.isExecutable) then none
  else
    let operations ← (Written.operations definitions).mapM (·.typed? schema)
    let fragments ← (Written.fragments definitions).mapM (·.typed? schema)
    let (anonymous, named) := operations.partition (·.name.isNone)
    return ⟨anonymous ++ named, fragments⟩

end Document

end ResponseShape
