import ResponseShape.Definition.Gathered
import ResponseShape.Workspace

/-!
# Building direct selections

A selection set is built from the selections gathered at its place: fields first, then branches,
then spreads. Each of these steps takes the function that builds nested selection sets, and the one
that builds fragments, as an argument; `Build.selections` ties the first knot, level by level, until
the recursion limit is reached.
-/

namespace ResponseShape

/-- A built part of a definition together with what it mentions. -/
structure Built (α : Type) where
  value : α
  mentions : Mentions

/-- The built parts and what they mention in turn. -/
def Built.sequence {α : Type} (parts : List (Built α)) : Built (List α) :=
  ⟨parts.map (·.value), .concat (parts.map (·.mentions))⟩

namespace Build

/-- A function that builds the selection set at a place, given the response keys that lead there. -/
abbrev Nested := List Name → Place → List Selection → Build (Built SelectionTree)

/-- Builds a field. The entity of a field of composite type is known before its selections are
built. -/
def field (project : Project) (nested : Nested) (path : List Name) (place : Place)
    (gathered : GatheredField) : Build (Built TreeField) := do
  let summary := FieldSummary.ofSelection gathered.field gathered.conditions
  let type := summary.type.innerName
  if ← ofExcept (project.schema.isComposite type) then
    let parent := place.entity
    let entity ← entityAt (parent.location.child gathered.responseKey type)
      (parent.typePath ++ [type])
    let child ← ofExcept (place.below project.schema entity type)
    let built ← nested (path ++ [gathered.responseKey]) child gathered.selections
    return ⟨.entity summary child built.value, built.mentions⟩
  else return ⟨.scalar summary, .empty⟩

/-- The boundary that a branch crosses at a path. -/
def crossed (path : List Name) (place : Place) (key : Narrowing) : Mentions :=
  ⟨[], key.defer.toList.map fun defer =>
    ⟨defer.label, defer.variableName, path, place.type⟩⟩

/-- Builds a branch, absent if nothing in it survives. -/
def branch (project : Project) (nested : Nested) (path : List Name) (place : Place)
    (gathered : Narrowing × List Selection) : Build (Option (Built TreeBranch)) := do
  let (key, selections) := gathered
  let child ← ofExcept (place.narrowed project.schema key)
  let built ← nested path child selections
  if built.value.isEmpty then return none
  else
    return some ⟨.mk key child built.value, crossed path child key ++ built.mentions⟩

/-- Builds a spread, and with it the fragment. The place mentions the fragment and all that it
mentions. -/
def spread (fragment : Name → Build FragmentShape) (path : List Name) (place : Place)
    (name : Name) : Build (Built Spread) := do
  let shape ← fragment name
  let conditions := place.scope.knownConditions.map Alternatives.single
  return ⟨⟨name, place, conditions⟩,
    ⟨appendAllNew [name] shape.mentions.fragments,
      shape.mentions.boundaries.map (·.rebased path)⟩⟩

/-- Builds the selection set at a place, which may nest `remaining` levels deep. -/
def selections (project : Project) (fragment : Name → Build FragmentShape) : Nat → Nested
  | 0 => fun _ _ _ => throw (.recursionLimitExceeded project.config.recursionLimit)
  | remaining + 1 => fun path place selections => do
      let nested := Build.selections project fragment remaining
      let gathered ← ofExcept (Gathered.gatherAll project.compilation
        project.config.recursionLimit place.scope remaining .empty selections)
      let fields ← gathered.fields.mapM (field project nested path place)
      let branches ← gathered.branches.mapM (branch project nested path place)
      let spreads ← gathered.spreads.mapM (spread fragment path place)
      let fields := Built.sequence fields
      let branches := Built.sequence (branches.filterMap id)
      let spreads := Built.sequence spreads
      return ⟨.mk fields.value branches.value spreads.value,
        fields.mentions ++ branches.mentions ++ spreads.mentions⟩

/-- Builds the root field of a definition. The root entity is known first. -/
def root (project : Project) (fragment : Name → Build FragmentShape) (definition : DefinitionId)
    (name type : Name) (written : List Selection) : Build (Built RootField) := do
  let entity ← entityAt (.root definition) [type]
  let scope ← ofExcept (Scope.forType project.schema type)
  let place : Place := ⟨entity, [], scope⟩
  let built ← selections project fragment project.config.recursionLimit [] place written
  return ⟨⟨RootField.summaryOf name type, place, built.value⟩, built.mentions⟩

end Build

end ResponseShape
