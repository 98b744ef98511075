import ResponseShape.Error
import ResponseShape.Schema.Basic

/-!
# Subtyping

Two views of one relation. Upwards, `Schema.supertypes` lists what a type is known to be: the
interfaces it declares, theirs in turn, and the unions it is a member of. Downwards,
`Schema.possibleTypes` lists the object types that a value of a type can have.
-/

namespace ResponseShape.Schema

/-- The type of a name. -/
def get (schema : Schema) (name : Name) : Except BuildError TypeDefinition :=
  match schema.type? name with
  | some type => .ok type
  | none => .error (.unknownType name)

/-- The kind of the type of a name. -/
def kind (schema : Schema) (name : Name) : Except BuildError TypeKind :=
  (schema.get name).map (·.kind)

/-- Whether selections can be made on the type of a name. -/
def isComposite (schema : Schema) (name : Name) : Except BuildError Bool :=
  (schema.kind name).map (·.isComposite)

/-- The unions that list a type among their members, in the order of their definitions. -/
def unionsWith (schema : Schema) (member : Name) : List Name :=
  (schema.types.filter (·.members.contains member)).map (·.name)

/-- The types one step up: declared interfaces, then, from an object, the unions that list it. -/
def directSupertypes (schema : Schema) (type : TypeDefinition) : List Name :=
  match type.kind with
  | .object => type.interfaces ++ schema.unionsWith type.name
  | _ => type.interfaces

/-- Walks upwards from a stack of pending names, its top first, adding to the names found. What a
type declares last is visited first. The walk takes at most `steps` names off the stack. -/
def climb (schema : Schema) : Nat → List Name → List Name → Except BuildError (List Name)
  | 0, _, found => .ok found
  | _ + 1, [], found => .ok found
  | steps + 1, name :: pending, found =>
      if found.contains name then schema.climb steps pending found
      else
        match schema.get name with
        | .error error => .error error
        | .ok type =>
            schema.climb steps ((schema.directSupertypes type).reverse ++ pending) (found ++ [name])

/-- How many names a walk can meet: the first one, and one for each step up from any type. -/
def climbBound (schema : Schema) : Nat :=
  schema.types.foldl (fun bound type => bound + (schema.directSupertypes type).length) 1

/-- A type followed by every type it is known to be a subtype of. -/
def supertypes (schema : Schema) (name : Name) : Except BuildError (List Name) :=
  schema.climb schema.climbBound [name] []

/-- The object types that a value of the given type can have, in the order of their declaration. -/
def possibleTypes (schema : Schema) (name : Name) : Except BuildError (List Name) :=
  (schema.get name).map fun type =>
    match type.body with
    | .object .. => [type.name]
    | .interface .. =>
        (schema.types.filter fun candidate =>
          candidate.kind == .object && candidate.interfaces.contains name).map (·.name)
    | .union members => members
    | _ => []

/-- Whether every value of the one type is a value of the other. -/
def isSubtype (schema : Schema) (supertype subtype : Name) : Except BuildError Bool :=
  if supertype == subtype then .ok true
  else (schema.supertypes subtype).map (·.contains supertype)

/-- Whether two types share a possible object type. -/
def typesOverlap (schema : Schema) (left right : Name) : Except BuildError Bool := do
  let possibleLeft ← schema.possibleTypes left
  let possibleRight ← schema.possibleTypes right
  return possibleRight.any possibleLeft.contains

end ResponseShape.Schema
