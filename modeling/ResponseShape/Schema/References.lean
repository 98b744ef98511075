import ResponseShape.Schema.BuiltIn

/-!
# References between definitions

Two kinds of definitions must not lead back to themselves. An input object type that requires a
value of its own type has no finite values (`Schema.isFoundedInput`), and a directive applied within
its own definition would have to be known before it is defined (`Schema.isFoundedDirective`). Rows
of references that get long are refused alike.
-/

namespace ResponseShape

/-- A definition that others refer to. -/
inductive Reference where
  | type (name : Name)
  | directive (name : Name)
deriving DecidableEq

namespace Reference

/-- The name of what is referred to. -/
def name : Reference → Name
  | type name => name
  | directive name => name

/-- Whether two references are to types, or both to directives. -/
def isAlike : Reference → Reference → Bool
  | type _, type _ | directive _, directive _ => true
  | _, _ => false

/-- How many types, and how many directives, a row of references can hold. -/
def maximalRow : Nat := 32

/-- Whether rows of references that go on from `last`, for the given number of definitions at most,
do not come back to `first` and hold no more types and no more directives than they can. The
definitions in `row` are those passed; a row does not go on into one of them. -/
def rowsEnd (references : Reference → List Reference) (first : Reference) :
    Nat → List Reference → Reference → Bool
  | length, row, last =>
      (references last).all fun next =>
        if row.contains next then next != first
        else
          match length with
          | 0 => false
          | length + 1 =>
              (row.filter next.isAlike).length < maximalRow
                && rowsEnd references first length (next :: row) next

/-- Whether a definition does not lead back to itself and heads no long row of references. -/
def isFounded (references : Reference → List Reference) (first : Reference) : Bool :=
  rowsEnd references first (2 * maximalRow) [first] first

end Reference

namespace Schema

/-- The input object types that a value of the given type cannot do without. -/
def requiredInputs (schema : Schema) (reference : Reference) : List Reference :=
  match schema.body? reference.name with
  | some (.inputObject fields) =>
      fields.filterMap fun field =>
        match field.type with
        | .named required true =>
            if (schema.type? required).any (·.kind == .inputObject) then some (.type required)
            else none
        | _ => none
  | _ => []

/-- Whether finite values of an input object type exist. -/
def isFoundedInput (schema : Schema) (name : Name) : Bool :=
  Reference.isFounded schema.requiredInputs (.type name)

/-- References to the directives that are applied somewhere. -/
def referencesOfDirectives (directives : List Directive) : List Reference :=
  directives.map (.directive ·.name)

/-- The directives applied to a type and to the values it lists. -/
def directivesOfType (type : TypeDefinition) : List Directive :=
  type.directives
    ++ match type.body with
      | .enum values => values.flatMap (·.directives)
      | _ => []

/-- What arguments, or the fields of an input object, refer to: the directives applied to them and
their types. A built-in type is no reference of its own, but directives applied to it count. -/
def referencesOfInputs (schema : Schema) (inputs : List InputValue) : List Reference :=
  inputs.flatMap fun input =>
    let name := input.type.innerName
    referencesOfDirectives input.directives
      ++ match schema.type? name with
        | some type =>
            if BuiltIn.types.any (·.name == name)
            then referencesOfDirectives (directivesOfType type)
            else [.type name]
        | none => []

/-- What the definition of a directive, or of a type that its arguments have, refers to. -/
def references (schema : Schema) : Reference → List Reference
  | .directive name =>
      ((schema.directive? name).map fun definition =>
        schema.referencesOfInputs definition.arguments).getD []
  | .type name =>
      ((schema.type? name).map fun type =>
        referencesOfDirectives (directivesOfType type)
          ++ match type.body with
            | .inputObject fields => schema.referencesOfInputs fields
            | _ => []).getD []

/-- Whether a directive is not applied within its own definition. -/
def isFoundedDirective (schema : Schema) (name : Name) : Bool :=
  Reference.isFounded schema.references (.directive name)

end Schema

end ResponseShape
