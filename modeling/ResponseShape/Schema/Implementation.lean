import ResponseShape.Schema.Basic

/-!
# Implementing interfaces

What a type has to keep of the interfaces it declares. Wherever a field is selected on an interface,
the object behind it answers: it has the field, takes the arguments that the interface's field takes
and needs no others, and what it returns fits the type that the interface promises
(`Schema.refines`).
-/

namespace ResponseShape.Schema

/-- Whether a type is declared to be a case of another: the type itself, one that implements it or
a member of it. -/
def isDeclaredWithin (schema : Schema) (name other : Name) : Bool :=
  name == other
    || (schema.type? name).any (·.interfaces.contains other)
    || (schema.type? other).any (·.members.contains name)

/-- Whether all values of one type are values of the other: it may exclude `null` where the other
does not, at every level of lists, and its named type is a case of the other's. -/
def refines (schema : Schema) : TypeReference → TypeReference → Bool
  | .named name nonNull, .named other otherNonNull =>
      (nonNull || !otherNonNull) && schema.isDeclaredWithin name other
  | .list item nonNull, .list other otherNonNull =>
      (nonNull || !otherNonNull) && schema.refines item other
  | _, _ => false

/-- Whether a field can be selected in place of the promised one: it takes the same arguments with
the same types, and any other argument is optional. -/
def takesArgumentsOf (field promised : FieldDefinition) : Bool :=
  (promised.arguments.all fun expected =>
      field.arguments.any fun argument =>
        argument.name == expected.name && argument.type == expected.type)
    && field.arguments.all fun argument =>
      !argument.isRequired || promised.arguments.any (·.name == argument.name)

/-- Whether a field keeps what an interface promises of it. -/
def keepsField (schema : Schema) (field promised : FieldDefinition) : Bool :=
  takesArgumentsOf field promised && schema.refines field.type promised.type

/-- Whether a type implements an interface: it declares the interfaces that the interface declares,
and the interface's fields. -/
def implements (schema : Schema) (type : TypeDefinition) (interface : Name) : Bool :=
  match schema.type? interface with
  | some promised =>
      promised.kind == .interface && interface != type.name
        && promised.interfaces.all type.interfaces.contains
        && promised.fields.all fun expected =>
          (type.fields.find? (·.name == expected.name)).any (schema.keepsField · expected)
  | none => false

end ResponseShape.Schema
