import ResponseShape.Ordered
import ResponseShape.Schema.Subtyping
import ResponseShape.Scope.Narrowing

/-!
# Scopes

Within one response object, a selection set stands behind the narrowings applied since the field
that returns the object, the first of them being the field's own type. From this path follows all
that is known inside: the types the object has, the tests the variables pass and the defer
boundaries crossed. `Scope.isWithin` decides by them whether what is selected in one scope is
selected in another.
-/

namespace ResponseShape

/-- A path of narrowings from a response object to a selection set, with what it implies. -/
structure Scope where
  /-- The narrowest type applied. -/
  type : Name
  path : List Narrowing
  /-- The type conditions on the path and all their supertypes. -/
  knownTypes : List Name
  /-- The conjunction of the inclusion conditions on the path. -/
  knownConditions : Option ConditionGroup
  /-- The defer boundaries on the path. -/
  knownDefers : List Defer
deriving DecidableEq, Inhabited

namespace Scope

/-- Scopes are equal if their paths are; all else follows from the path. -/
instance : BEq Scope := ⟨fun left right => left.path == right.path⟩

instance : Hashable Scope := ⟨fun scope => hash scope.path⟩

/-- The root scope of a response object whose field has the given type. -/
def forType (schema : Schema) (type : Name) : Except BuildError Scope :=
  (schema.supertypes type).map fun supertypes =>
    { type
      path := [.onType type]
      knownTypes := supertypes
      knownConditions := none
      knownDefers := [] }

/-- The narrowings applied to the root scope. -/
def applied (scope : Scope) : List Narrowing := scope.path.tail

/-- The innermost narrowing. -/
def innermost (scope : Scope) : Narrowing := scope.path.getLastD default

/-- Whether the scope lies behind a defer boundary. -/
def isDeferred (scope : Scope) : Bool := !scope.knownDefers.isEmpty

/-- Whether every object in the scope is known to have the type. -/
def knowsType (scope : Scope) (type : Name) : Bool := scope.knownTypes.contains type

/-- Whether the group is known to hold in the scope. -/
def knowsGroup (scope : Scope) (group : ConditionGroup) : Bool :=
  scope.knownConditions.any group.isSubset

/-- Whether the scope lies behind the given boundary. -/
def knowsDefer (scope : Scope) (defer : Defer) : Bool := scope.knownDefers.contains defer

/-- Whether all that a narrowing asks is known in the scope. -/
def implies (scope : Scope) (narrowing : Narrowing) : Bool :=
  narrowing.typeCondition.all scope.knowsType
    && narrowing.conditions.all scope.knowsGroup
    && narrowing.defer.all scope.knowsDefer

/-- Whether everything selected in the other scope is selected in this one. -/
def isWithin (scope other : Scope) : Bool := other.path.all scope.implies

/-- Whether the scope lies on the path to the other, or is the other. -/
def isAncestorOf (scope other : Scope) : Bool := scope.path.isPrefixOf other.path

/-- Whether the inclusion conditions of a narrowing can hold within the scope. -/
def admits (scope : Scope) (narrowing : Narrowing) : Bool :=
  !narrowing.conditions.any (·.contradicts scope.knownConditions)

/-- What a narrowing asks beyond what the scope implies. -/
def unknownPart (scope : Scope) (narrowing : Narrowing) : Narrowing where
  typeCondition := narrowing.typeCondition.filter fun type => !scope.knowsType type
  conditions := narrowing.conditions.bind (·.remainderIn scope.knownConditions)
  defer := narrowing.defer.filter fun defer => !scope.knowsDefer defer

/-- What a narrowing asks beyond what the scope implies, absent if that is nothing. -/
def effective? (scope : Scope) (narrowing : Narrowing) : Option Narrowing :=
  let effective := scope.unknownPart narrowing
  if effective.isEmpty then none else some effective

/-- The narrowings of the path, separated by arrows. -/
def render (scope : Scope) : String := " > ".intercalate (scope.path.map (·.render))

/-- The conjunction of what the scope knows about variables and a group that narrows it further. -/
def conditionsWith (scope : Scope) (added : Option ConditionGroup) :
    Except BuildError (Option ConditionGroup) :=
  match added, scope.knownConditions with
  | none, known => .ok known
  | some group, none => .ok (some group)
  | some group, some known =>
      match known.merge group with
      | .conditional merged => .ok (some merged)
      | .boolean _ =>
          .error (.internal ("Cannot narrow scope " ++ scope.render
            ++ " with contradicting conditions " ++ group.render))

/-- The scope within a narrowing. Of the narrowing only what the scope does not already imply joins
the path, and if that is nothing the scope stays as it is. -/
def narrow (schema : Schema) (scope : Scope) (narrowing : Narrowing) : Except BuildError Scope :=
  match scope.effective? narrowing with
  | none => .ok scope
  | some effective => do
      let supertypes ←
        match effective.typeCondition with
        | some type => schema.supertypes type
        | none => pure []
      let knownConditions ← scope.conditionsWith effective.conditions
      return {
        type := effective.typeCondition.getD scope.type
        path := scope.path ++ [effective]
        knownTypes := appendAllNew scope.knownTypes supertypes
        knownConditions
        knownDefers := scope.knownDefers ++ effective.defer.toList }

end Scope

end ResponseShape
