import ResponseShape.Entity.Table
import ResponseShape.Merging.VisibleSelections

/-!
# Merging

`SelectionSet.visible` merges into a place what it sees, in the order of origins: ancestors,
siblings, named fragments, each in the order of registration. Conditions are reduced by what the
place's scope already imposes, and what cannot hold there is left out. An added composite field or
branch starts its own merging from the place in turn.
-/

namespace ResponseShape

/-- A place that selections are merged into, and what that takes. -/
structure MergeTarget where
  schema : Schema
  entities : EntityTable
  place : Place
  direct : Option SelectionTree

namespace MergeTarget

/-- What is known of variables at the place. -/
def known (target : MergeTarget) : Option ConditionGroup := target.place.scope.knownConditions

/-- Fails if two fields with one response key select different data. -/
def ensureSame (target : MergeTarget) (existing incoming : Field) : Except BuildError Unit :=
  if existing.summary.selectsSame incoming.summary then .ok ()
  else .error (FieldSummary.conflict target.place.type existing.summary incoming.summary)

/-- Weakens the conditions of a direct field by those of another selection of it. Also tells whether
that changed them. -/
def widen (additions : Additions) (direct : Field) (incoming : Option Alternatives) :
    Additions × Bool :=
  let current := (additions.widened? direct.responseKey).getD direct
  match current.summary.conditions with
  | none => (additions, false)
  | some conditions =>
      let widened := Alternatives.union (some conditions) incoming
      if widened == some conditions then (additions, false)
      else
        let field : Field :=
          { current with summary := { current.summary with conditions := widened } }
        ({ additions with
            widened := updateOrAppend (·.responseKey == direct.responseKey) (fun _ => field) field
              additions.widened }, true)

/-- Weakens the conditions of an added field by those of another selection of it. -/
def unite (additions : Additions) (existing : Field) (incoming : Option Alternatives) :
    Additions :=
  let united (field : Field) : Field :=
    { field with summary :=
        { field.summary with
          conditions := Alternatives.union field.summary.conditions incoming } }
  { additions with
    fields := updateOrAppend (·.responseKey == existing.responseKey) united existing
      additions.fields }

/-- A field as seen from the place. The selection set of a composite field holds nothing direct, and
lies below the place. -/
def adopted (target : MergeTarget) (field : Field) (conditions : Option Alternatives) :
    Except BuildError Field := do
  let summary := { field.summary with conditions }
  match field.selectionSet with
  | none => return ⟨summary, none⟩
  | some _ =>
      let type := summary.type.innerName
      let location := target.place.entity.location.child field.responseKey type
      match target.entities.entity? location with
      | none => throw (.internal ("No entity was allocated at " ++ location.render))
      | some entity =>
          let place ← target.place.below target.schema entity type
          return ⟨summary, some ⟨place, none⟩⟩

/-- Merges one field. Also tells whether it contributed. -/
def mergeField (target : MergeTarget) (additions : Additions) (field : Field) :
    Except BuildError (Additions × Bool) := do
  if field.summary.conditions.any fun conditions => !conditions.canHoldIn target.known then
    return (additions, false)
  let conditions := field.summary.conditions.bind (·.remainderIn target.known)
  match target.direct.bind (·.field? field.responseKey) with
  | some existing =>
      target.ensureSame existing field
      return widen additions existing conditions
  | none =>
      match additions.field? field.responseKey with
      | some existing =>
          target.ensureSame existing field
          return (unite additions existing conditions, false)
      | none =>
          let fresh ← target.adopted field conditions
          return ({ additions with fields := additions.fields ++ [fresh] }, true)

/-- Merges one spread. Also tells whether it contributed. -/
def mergeSpread (target : MergeTarget) (additions : Additions) (spread : Spread) :
    Additions × Bool :=
  if (target.direct.bind (·.spread? spread.name)).isSome
      || (additions.spread? spread.name).isSome then (additions, false)
  else
    let conditions := spread.conditions.bind (·.remainderIn target.known)
    ({ additions with spreads := additions.spreads ++ [{ spread with conditions }] }, true)

/-- Merges selections that are selected at the place, too. Also tells whether they contributed. -/
def mergeSelections (target : MergeTarget) (additions : Additions) (selections : SelectionTree) :
    Except BuildError (Additions × Bool) := do
  let withFields ← selections.fields.foldlM (fun (additions, contributed) field => do
    let (additions, isNew) ← target.mergeField additions field
    return (additions, contributed || isNew)) (additions, false)
  return selections.spreads.foldl (fun (additions, contributed) spread =>
    let (additions, isNew) := target.mergeSpread additions spread
    (additions, contributed || isNew)) withFields

/-- Adds a branch, unless there is one with the same key. Also tells whether it was added. -/
def mergeBranch (target : MergeTarget) (additions : Additions) (key : Narrowing) :
    Except BuildError (Additions × Bool) := do
  if (target.direct.bind (·.branch? key)).isSome || (additions.branch? key).isSome then
    return (additions, false)
  let place ← target.place.narrowed target.schema key
  return ({ additions with branches := additions.branches ++ [⟨key, ⟨place, none⟩⟩] }, true)

/-- Merges one occurrence, which becomes a contributor if it contributed. -/
def mergeSighting (target : MergeTarget) (merged : Additions × List Contributor)
    (sighting : Sighting) : Except BuildError (Additions × List Contributor) := do
  let (additions, contributors) := merged
  let (additions, contributed) ←
    match sighting.contribution with
    | .selections => target.mergeSelections additions sighting.occurrence.selections
    | .branch narrowing => target.mergeBranch additions narrowing
  let contributor : Contributor := ⟨sighting.occurrence.place, sighting.origin⟩
  return (additions, if contributed then appendNew contributors contributor else contributors)

/-- Whether an occurrence is the target itself: it occurs at the target's place, and is written
there rather than placed there by a spread. -/
def isSelf (target : MergeTarget) (occurrence : Occurrence) : Bool :=
  target.direct.isSome && occurrence.fragment.isNone && occurrence.place == target.place

/-- What the target sees of the given occurrences, in their order. -/
def sightings (target : MergeTarget) (occurrences : List Occurrence) :
    Except BuildError (List Sighting) := do
  let others := occurrences.filter fun occurrence => !target.isSelf occurrence
  let seen ← others.mapM (target.place.sighting? target.schema)
  return seen.filterMap id

end MergeTarget

/-- Sightings in the order of merging; those of equal rank stay in order. -/
def Sighting.byRank (sightings : List Sighting) : List Sighting :=
  [0, 1, 2].flatMap fun rank => sightings.filter (·.origin.rank == rank)

/-- Everything selected at a place, under a strategy. -/
def SelectionSet.visible (schema : Schema) (entities : EntityTable) (set : SelectionSet)
    (strategy : MergingStrategy) : Except BuildError VisibleSelections := do
  let target : MergeTarget := ⟨schema, entities, set.place, set.direct⟩
  let seen ← target.sightings (entities.occurrences set.place.entity.location)
  let enabled := seen.filter (·.origin.isEnabled strategy)
  let (additions, contributors) ←
    (Sighting.byRank enabled).foldlM target.mergeSighting (.empty, [])
  return { place := set.place, strategy, direct := set.direct, additions, contributors }

end ResponseShape
