import ResponseShape.Ordered
import ResponseShape.Schema.BuiltIn
import ResponseShape.Written.Decimal

/-!
# Values of input types

Which written values an argument can take, and which arguments fields and directives can be given.
A value may hold variables where it is written in an operation. They stand for values of the type
they are declared with, so they fit where that type does.
-/

namespace ResponseShape

namespace Schema

/-- Whether a name is that of a scalar that is not built in. What such a scalar means by its values
is its own affair. -/
def isCustomScalar (schema : Schema) (name : Name) : Bool :=
  (schema.type? name).any (·.kind == .scalar) && !BuiltIn.isScalarName name

/-- Whether a scalar has a number, a string or a Boolean among its values. -/
def scalarAccepts : Name → Value → Bool
  | "Int", value => value.isSmallInt
  | "Float", value => value.isFiniteNumber
  | "String", .string _ => true
  | "Boolean", .boolean _ => true
  | "ID", .string _ | "ID", .int _ => true
  | name, _ => !BuiltIn.isScalarName name

/-- Whether a named type has a value without parts among its values. -/
def acceptsSimple (schema : Schema) (name : Name) (value : Value) : Bool :=
  match schema.body? name, value with
  | some .scalar, .enum _ => schema.isCustomScalar name
  | some .scalar, value => scalarAccepts name value
  | some (.enum values), .enum chosen => values.any (·.name == chosen)
  | _, _ => false

/-- Whether an object's fields are among those of an input object type and give all that the type
requires. A required field that is given several times is not `null` at any of them. -/
def providesFields (definitions : List InputValue) (fields : List (Name × Value)) : Bool :=
  (fields.all fun (name, _) => definitions.any (·.name == name))
    && definitions.all fun definition =>
      let given := fields.filter fun (name, _) => name == definition.name
      !definition.isRequired || (!given.isEmpty && given.all fun (_, value) => !value.isNull)

mutual

/-- Whether an input type has a value among its values. The given function says so of variables.
An object given to a custom scalar is not looked into, a list is item by item. -/
def accepts (schema : Schema) (ofVariable : TypeReference → Name → Bool) (type : TypeReference) :
    Value → Bool
  | .null => !type.isNonNull
  | .var name => ofVariable type name
  | .list items =>
      (type.isList || schema.isCustomScalar type.innerName)
        && acceptsItems schema ofVariable type.itemType items
  | .object fields =>
      match schema.body? type.innerName with
      | some (.inputObject definitions) =>
          providesFields definitions fields && acceptsFields schema ofVariable definitions fields
      | _ => schema.isCustomScalar type.innerName
  | value => schema.acceptsSimple type.innerName value

/-- Whether an input type has every item of a list among its values. -/
def acceptsItems (schema : Schema) (ofVariable : TypeReference → Name → Bool)
    (type : TypeReference) : List Value → Bool
  | [] => true
  | item :: rest =>
      accepts schema ofVariable type item && acceptsItems schema ofVariable type rest

/-- Whether an object's fields have values that their definitions accept. Of several fields of one
name, the first counts. -/
def acceptsFields (schema : Schema) (ofVariable : TypeReference → Name → Bool)
    (definitions : List InputValue) : List (Name × Value) → Bool
  | [] => true
  | (name, value) :: rest =>
      ((definitions.find? (·.name == name)).all fun definition =>
          accepts schema ofVariable definition.type value)
        && acceptsFields schema ofVariable (definitions.filter (·.name != name)) rest

end

/-- Whether an input type has a value without variables among its values. -/
def acceptsConstant (schema : Schema) (type : TypeReference) (value : Value) : Bool :=
  schema.accepts (fun _ _ => false) type value

/-- The declaration of a variable. -/
def declaration? (declared : List Written.VariableDefinition) (name : Name) :
    Option Written.VariableDefinition :=
  declared.find? (·.name == name)

/-- Whether a variable can stand anywhere in a value: it is declared with the same named type and
its default value, if any, is one of its own type. -/
def acceptsVariable (schema : Schema) (declared : List Written.VariableDefinition)
    (type : TypeReference) (name : Name) : Bool :=
  (declaration? declared name).any fun variableDefinition =>
    variableDefinition.type.innerName == type.innerName
      && variableDefinition.defaultValue.all (schema.acceptsConstant variableDefinition.type)

/-- Whether a variable can be an argument: its type is assignable to that of the argument. A default
value, on either side, makes up for a variable that may be `null`. -/
def canBeArgument (argument : InputValue) (variableDefinition : Written.VariableDefinition) :
    Bool :=
  let hasDefault := variableDefinition.defaultValue.isSome || argument.defaultValue.isSome
  variableDefinition.type.isAssignableTo
    (if hasDefault then argument.type.nullable else argument.type)

/-- Whether an argument can be given a value. -/
def argumentAccepts (schema : Schema) (declared : List Written.VariableDefinition)
    (argument : InputValue) (value : Value) : Bool :=
  schema.accepts (schema.acceptsVariable declared) argument.type value
    && match value with
      | .var name => (declaration? declared name).any (canBeArgument argument)
      | _ => true

/-- Whether arguments can be given to what takes the defined ones: each is defined, given once and
given a value of its type, and those required are given and not `null`. -/
def argumentsAreValid (schema : Schema) (declared : List Written.VariableDefinition)
    (definitions : List InputValue) (arguments : List Argument) : Bool :=
  areDistinct (arguments.map (·.name))
    && (arguments.all fun argument =>
      (definitions.find? (·.name == argument.name)).any fun definition =>
        schema.argumentAccepts declared definition argument.value)
    && definitions.all fun definition =>
      !definition.isRequired
        || (arguments.find? (·.name == definition.name)).any (!·.value.isNull)

/-- Whether directives can be applied at a location: each is defined for it and given valid
arguments, and is applied once if it is not repeatable. -/
def directivesAreValid (schema : Schema) (declared : List Written.VariableDefinition)
    (location : DirectiveLocation) (directives : List Directive) : Bool :=
  let isRepeatable (name : Name) : Bool := (schema.directive? name).any (·.repeatable)
  areDistinct ((directives.map (·.name)).filter (!isRepeatable ·))
    && directives.all fun directive =>
      (schema.directive? directive.name).any fun definition =>
        definition.locations.contains location
          && schema.argumentsAreValid declared definition.arguments directive.arguments

end Schema

end ResponseShape
