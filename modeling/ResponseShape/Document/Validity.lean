import ResponseShape.Document.Deferral
import ResponseShape.Document.Merging
import ResponseShape.Document.Typing
import ResponseShape.Schema.Validity

/-!
# Valid documents

Which documents can be executed against a schema: operations are told apart by their names,
fragments are defined, used and free of cycles, selections fit the types they are made on,
variables are declared and used, and fields that meet under one response key can merge.
-/

namespace ResponseShape

namespace Value

mutual

/-- The variables that a value mentions. -/
def variableNames : Value → List Name
  | .var name => [name]
  | .list items => variablesOfItems items
  | .object fields => variablesOfFields fields
  | _ => []

/-- The variables that values mention. -/
def variablesOfItems : List Value → List Name
  | [] => []
  | item :: rest => variableNames item ++ variablesOfItems rest

/-- The variables that named values mention. -/
def variablesOfFields : List (Name × Value) → List Name
  | [] => []
  | (_, value) :: rest => variableNames value ++ variablesOfFields rest

end

end Value

/-- The variables that arguments mention. -/
def variablesOfArguments (arguments : List Argument) : List Name :=
  arguments.flatMap (·.value.variableNames)

/-- The variables that directives mention. -/
def variablesOfDirectives (directives : List Directive) : List Name :=
  directives.flatMap fun directive => variablesOfArguments directive.arguments

namespace Selection

mutual

/-- The variables that a selection mentions, fragments not entered. -/
def variableNames : Selection → List Name
  | .field selected selections =>
      variablesOfArguments selected.arguments ++ variablesOfDirectives selected.directives
        ++ variablesOfAll selections
  | .inlineFragment _ directives selections =>
      variablesOfDirectives directives ++ variablesOfAll selections
  | .fragmentSpread _ directives => variablesOfDirectives directives

/-- The variables that selections mention, fragments not entered. -/
def variablesOfAll : List Selection → List Name
  | [] => []
  | selection :: rest => variableNames selection ++ variablesOfAll rest

end

end Selection

namespace Document

/-- Whether operations have distinct names, and an anonymous one stands alone. -/
def operationsAreDistinct (document : Document) : Bool :=
  let names := document.operations.map (·.name)
  if names.contains none then names.length == 1 else areDistinct names

/-- Whether fragments are defined once, on composite types, and are all used by an operation. -/
def fragmentsAreValid (schema : Schema) (document : Document) : Bool :=
  let used := document.operations.flatMap fun operation =>
    document.reachableFragments operation.selections
  areDistinct (document.fragments.map (·.name))
    && document.fragments.all fun fragment =>
      schema.isCompositeName fragment.typeCondition && used.contains fragment.name

/-- Whether a fragment on one type can be spread on another: the types are the same, or some object
can have both. -/
def canBeSpread (schema : Schema) (parent typeCondition : Name) : Bool :=
  parent == typeCondition
    || match schema.typesOverlap parent typeCondition with
      | .ok overlaps => overlaps
      | .error _ => false

mutual

/-- Whether a selection fits the type it is made on, in an operation with the given variables. -/
def selectionIsValid (schema : Schema) (document : Document)
    (declared : List Written.VariableDefinition) (parent : Name) : Selection → Bool
  | .field field selections =>
      let type := field.type.innerName
      schema.directivesAreValid declared .field field.directives
        && schema.argumentsAreValid declared field.definition.arguments field.arguments
        && schema.isCompositeName type == !selections.isEmpty
        && selectionsAreValid schema document declared type selections
  | .inlineFragment typeCondition directives selections =>
      schema.directivesAreValid declared .inlineFragment directives
        && typeCondition.all (fun type =>
          schema.isCompositeName type && canBeSpread schema parent type)
        && selectionsAreValid schema document declared (typeCondition.getD parent) selections
  | .fragmentSpread name directives =>
      schema.directivesAreValid declared .fragmentSpread directives
        && (document.fragment? name).any fun fragment =>
          canBeSpread schema parent fragment.typeCondition

/-- Whether selections fit the type they are made on. -/
def selectionsAreValid (schema : Schema) (document : Document)
    (declared : List Written.VariableDefinition) (parent : Name) : List Selection → Bool
  | [] => true
  | selection :: rest =>
      selectionIsValid schema document declared parent selection
        && selectionsAreValid schema document declared parent rest

end

/-- Whether a fragment fits its type, in an operation with the given variables. -/
def fragmentIsValid (schema : Schema) (document : Document)
    (declared : List Written.VariableDefinition) (fragment : Fragment) : Bool :=
  schema.directivesAreValid declared .fragmentDefinition fragment.directives
    && selectionsAreValid schema document declared fragment.typeCondition fragment.selections

/-- The fragments that an operation reaches. -/
def fragmentsOf (document : Document) (operation : Operation) : List Fragment :=
  (document.reachableFragments operation.selections).filterMap document.fragment?

/-- The variables that an operation mentions, in itself or in fragments it reaches. -/
def mentionedVariables (document : Document) (operation : Operation) : List Name :=
  variablesOfDirectives operation.directives
    ++ Selection.variablesOfAll operation.selections
    ++ (document.fragmentsOf operation).flatMap fun fragment =>
      variablesOfDirectives fragment.directives ++ Selection.variablesOfAll fragment.selections

/-- Whether variables are declared once, with input types and with default values of these types,
and are all mentioned by the operation. -/
def variablesAreValid (schema : Schema) (document : Document) (operation : Operation) : Bool :=
  let declared := operation.declaredVariables
  let mentioned := document.mentionedVariables operation
  areDistinct (declared.map (·.name))
    && declared.all fun declaration =>
      mentioned.contains declaration.name
        && schema.isInputName declaration.type.innerName
        && declaration.defaultValue.all (schema.acceptsConstant declaration.type)
        && schema.directivesAreValid [] .variableDefinition declaration.directives

/-- Whether an operation is valid. -/
def operationIsValid (schema : Schema) (document : Document) (operation : Operation) : Bool :=
  let declared := operation.declaredVariables
  schema.directivesAreValid declared (.ofOperation operation.kind) operation.directives
    && document.variablesAreValid schema operation
    && document.selectionsAreValid schema declared operation.rootType operation.selections
    && (document.fragmentsOf operation).all (document.fragmentIsValid schema declared)
    && document.subscriptionIsSingle operation
    && document.rootIsWhole operation
    && document.eventsAreWhole operation
    && document.selectionsAreBounded operation

/-- Whether a document is valid. -/
def isValid (schema : Schema) (document : Document) : Bool :=
  document.operationsAreDistinct && document.spreadsAreBounded
    && document.fragmentsAreValid schema
    && document.deferLabelsAreValid
    && document.operations.all (document.operationIsValid schema)
    && document.fieldsCanMerge schema

/-- The document that a text defines, taken as valid. -/
def assumed? (schema : Schema) (text : String) : Option Document := do
  ofDefinitions? schema (← Written.definitions? text)

/-- The document that a text defines, if it is valid. -/
def validated? (schema : Schema) (text : String) : Option Document := do
  let document ← assumed? schema text
  if document.isValid schema then return document else none

end Document

end ResponseShape
