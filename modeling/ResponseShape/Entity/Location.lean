import ResponseShape.Written.Definition

/-!
# Locations

Where in a response an object is reached: the definition that the way starts from, and the fields
selected from there on.
-/

namespace ResponseShape

/-- What identifies a definition. -/
inductive DefinitionId where
  /-- An operation. Operations of different documents may share a name, so the index of the document
  is part of its identity. -/
  | operation (document : Nat) (kind : OperationKind) (name : Option Name)
  | fragment (name : Name)
deriving DecidableEq, Hashable, Inhabited

namespace DefinitionId

/-- Whether the definition is an operation. -/
def isOperation : DefinitionId → Bool
  | operation .. => true
  | fragment _ => false

/-- How a definition is called. -/
def render : DefinitionId → String
  | operation _ kind (some name) => kind.keyword ++ " " ++ name
  | operation _ kind none => "anonymous " ++ kind.keyword
  | fragment name => "fragment " ++ name

end DefinitionId

/-- One step of the way into a response. -/
structure FieldStep where
  responseKey : Name
  /-- The named type of the field. -/
  type : Name
deriving DecidableEq, Hashable, Inhabited

/-- A definition's root, followed by the fields selected from it. -/
structure Location where
  definition : DefinitionId
  steps : List FieldStep
deriving DecidableEq, Hashable, Inhabited

namespace Location

/-- The root of a definition. -/
def root (definition : DefinitionId) : Location := ⟨definition, []⟩

/-- The location further steps away. -/
def joined (location : Location) (steps : List FieldStep) : Location :=
  ⟨location.definition, location.steps ++ steps⟩

/-- The location of a field's object. -/
def child (location : Location) (responseKey type : Name) : Location :=
  location.joined [⟨responseKey, type⟩]

/-- The response keys from the root. -/
def responseKeys (location : Location) : List Name := location.steps.map (·.responseKey)

/-- The definition and the response keys, each behind a point. -/
def render (location : Location) : String :=
  location.definition.render ++ String.join (location.responseKeys.map ("." ++ ·))

end Location

end ResponseShape
