import ResponseShape.Merging.Strategy
import ResponseShape.Selection.Occurrence

/-!
# Visibility

Which occurrences of an entity a place sees. What occurs in a scope that the place is within is
selected at the place, too; towards what occurs in a narrower scope the place can branch.
-/

namespace ResponseShape

/-- How an occurrence relates to a place that sees it. -/
inductive Origin where
  | ancestor
  | sibling
  /-- Written in the named fragment, reached through a spread. -/
  | namedFragment (name : Name)
deriving DecidableEq, Inhabited

namespace Origin

/-- The strategy flag that admits occurrences of this origin. -/
def flag : Origin → MergingStrategy
  | ancestor => .ancestors
  | sibling => .siblings
  | namedFragment _ => .namedFragments

/-- Whether a strategy admits occurrences of this origin. -/
def isEnabled (origin : Origin) (strategy : MergingStrategy) : Bool :=
  strategy.includes origin.flag

/-- The order of merging: ancestors, siblings, named fragments. -/
def rank : Origin → Nat
  | ancestor => 0
  | sibling => 1
  | namedFragment _ => 2

/-- The fragment that an occurrence is written in. -/
def fragment? : Origin → Option Name
  | namedFragment name => some name
  | _ => none

end Origin

/-- What an occurrence contributes to a place that sees it. -/
inductive Contribution where
  /-- Everything selected in the occurrence is selected at the place. -/
  | selections
  /-- The place can branch by the narrowing towards the occurrence. -/
  | branch (narrowing : Narrowing)
deriving Inhabited

/-- An occurrence as a place sees it. -/
structure Sighting where
  occurrence : Occurrence
  origin : Origin
  contribution : Contribution
deriving Inhabited

namespace Place

/-- Whether the candidate lies on the way to the place at every level or, within the entity itself,
behind it. -/
def isInLineWith (place candidate : Place) : Bool :=
  (place.enclosing.zip candidate.enclosing).all (fun (scope, other) => other.isAncestorOf scope)
    && (candidate.scope.isAncestorOf place.scope || place.scope.isAncestorOf candidate.scope)

/-- Whether each enclosing scope of the place is within the candidate's at the same level. -/
def isEnclosedLike (place candidate : Place) : Bool :=
  place.enclosing.length == candidate.enclosing.length
    && (place.enclosing.zip candidate.enclosing).all fun (scope, other) => scope.isWithin other

/-- How an occurrence relates to the place. -/
def originOf (place : Place) (occurrence : Occurrence) : Origin :=
  match occurrence.fragment with
  | some name => .namedFragment name
  | none => if place.isInLineWith occurrence.place then .ancestor else .sibling

end Place

namespace Scope

/-- The branch by a narrowing that the scope does not imply. There is none if the narrowing
contradicts what is known of variables, or if no object of the scope's type has the type asked
for. -/
def branchBy (schema : Schema) (scope : Scope) (narrowing : Narrowing) :
    Except BuildError (Option Contribution) := do
  if !scope.admits narrowing then return none
  let overlaps ←
    match narrowing.typeCondition with
    | some type => schema.typesOverlap scope.type type
    | none => pure true
  return if overlaps then (scope.effective? narrowing).map .branch else none

/-- What selections in another scope of the entity contribute: themselves if the scope is within the
other, else a branch by the first narrowing of the other's path that the scope does not imply. -/
def contributionFrom (schema : Schema) (scope other : Scope) :
    Except BuildError (Option Contribution) :=
  match other.path.find? fun narrowing => !scope.implies narrowing with
  | none => .ok (some .selections)
  | some narrowing => scope.branchBy schema narrowing

end Scope

namespace Place

/-- How the place sees an occurrence, if it does. -/
def sighting? (schema : Schema) (place : Place) (occurrence : Occurrence) :
    Except BuildError (Option Sighting) :=
  if place.isEnclosedLike occurrence.place then
    (place.scope.contributionFrom schema occurrence.place.scope).map fun contribution =>
      contribution.map fun contribution =>
        ⟨occurrence, place.originOf occurrence, contribution⟩
  else .ok none

end Place

end ResponseShape
