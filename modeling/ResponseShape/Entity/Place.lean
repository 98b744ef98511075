import ResponseShape.Entity.Location
import ResponseShape.Scope.Scope

/-!
# Entities and places

An entity is one conceptual response object, identified by its location. A place is where a
selection set stands: the entity it selects on, and the scope at every level from the definition's
root down to it.
-/

namespace ResponseShape

/-- A response object. -/
structure Entity where
  location : Location
  /-- The named types from the definition's root down to this entity. -/
  typePath : List Name
deriving DecidableEq, Inhabited

namespace Entity

/-- An object reached in different ways is one entity: the location identifies it. -/
instance : BEq Entity := ⟨fun left right => left.location == right.location⟩

instance : Hashable Entity := ⟨fun entity => hash entity.location⟩

/-- The type of an entity. -/
def type? (entity : Entity) : Option Name := entity.typePath.getLast?

end Entity

/-- Where a selection set stands. -/
structure Place where
  entity : Entity
  /-- One scope for each enclosing entity, outermost first. -/
  enclosing : List Scope
  /-- The scope within the entity itself. -/
  scope : Scope
deriving DecidableEq, Inhabited

namespace Place

instance : BEq Place :=
  ⟨fun left right => left.entity == right.entity && left.enclosing == right.enclosing
    && left.scope == right.scope⟩

instance : Hashable Place :=
  ⟨fun place => mixHash (hash place.entity)
    (mixHash (hash place.enclosing) (hash place.scope))⟩

/-- Every scope from the definition's root down to the place. -/
def scopes (place : Place) : List Scope := place.enclosing ++ [place.scope]

/-- The type that is selected on. -/
def type (place : Place) : Name := place.scope.type

/-- Whether the place lies behind a defer boundary at any level. -/
def isDeferred (place : Place) : Bool := place.scopes.any (·.isDeferred)

/-- The place within a narrowing. -/
def narrowed (schema : Schema) (place : Place) (narrowing : Narrowing) :
    Except BuildError Place :=
  (place.scope.narrow schema narrowing).map fun scope => { place with scope }

/-- The place of selections on a field's objects, which are the given entity. -/
def below (schema : Schema) (place : Place) (entity : Entity) (type : Name) :
    Except BuildError Place :=
  (Scope.forType schema type).map fun scope => ⟨entity, place.scopes, scope⟩

/-- The location, and the scopes between brackets. -/
def render (place : Place) : String :=
  place.entity.location.render ++ " ["
    ++ " | ".intercalate (place.scopes.map (·.render)) ++ "]"

end Place

end ResponseShape
