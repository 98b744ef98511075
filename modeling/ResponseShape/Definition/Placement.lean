import ResponseShape.Workspace

/-!
# Placing occurrences

Every selection set of a definition is an occurrence of its entity. Those of a spread fragment occur
at the spread as if they were written there: their entities move below the entity of the place, and
the scope of the fragment's root is applied on top of the scope of the place. What cannot hold there
does not occur.
-/

namespace ResponseShape.Build

/-- A scope within several narrowings in turn, absent once it does not admit one of them. -/
def narrowAll? (schema : Schema) (scope : Scope) :
    List Narrowing → Except BuildError (Option Scope)
  | [] => .ok (some scope)
  | narrowing :: rest =>
      if scope.admits narrowing then do
        narrowAll? schema (← scope.narrow schema narrowing) rest
      else .ok none

/-- Where an occurrence `inside` a fragment stands once the fragment is spread at a site. Narrowed
to the fragment's root, the scope of the site is `scope`. -/
def placeAt (site inside : Place) (entity : Entity) (scope : Scope) : Place :=
  match inside.enclosing with
  | [] => ⟨entity, site.enclosing, scope⟩
  | _ :: nested => ⟨entity, site.enclosing ++ scope :: nested, inside.scope⟩

/-- Places one occurrence of a fragment, if it can hold at the place. -/
def placeOccurrence (schema : Schema) (site : Place) (spreadScope : Scope) (fragment : Name)
    (occurrence : Occurrence) : Build (Option Occurrence) := do
  let inside := occurrence.place
  let rootScope := inside.enclosing.headD inside.scope
  match ← ofExcept (narrowAll? schema spreadScope rootScope.applied) with
  | none => return none
  | some scope =>
      let entity ← entityAt (site.entity.location.joined inside.entity.location.steps)
        (site.entity.typePath ++ inside.entity.typePath.tail)
      return some {
        place := placeAt site inside entity scope
        selections := occurrence.selections
        fragment := some (occurrence.fragment.getD fragment) }

/-- The occurrences of a spread fragment at the place of the spread. -/
def placeSpread (project : Project) (spread : Spread) : Build (List Occurrence) := do
  match project.compilation.fragment? spread.name with
  | none => return []
  | some (_, fragment) =>
      let site := spread.place
      let spreadScope ← ofExcept
        (site.scope.narrow project.schema (.onType fragment.typeCondition))
      let occurrences := (← get).fragmentOccurrences spread.name
      let placed ← occurrences.mapM
        (placeOccurrence project.schema site spreadScope spread.name)
      return placed.filterMap id

mutual

/-- The occurrences of a selection set: its own, those of its fields, those of its branches, and
those that its spreads place. -/
def occurrences (project : Project) (place : Place) :
    SelectionTree → Build (List Occurrence)
  | .mk fields branches spreads => do
      let ofFields ← occurrencesOfFields project fields
      let ofBranches ← occurrencesOfBranches project branches
      let ofSpreads ← spreads.mapM (placeSpread project)
      return ⟨place, .mk fields branches spreads, none⟩
        :: (ofFields ++ ofBranches ++ ofSpreads.flatten)

/-- The occurrences of the selection sets of fields. -/
def occurrencesOfFields (project : Project) : List TreeField → Build (List Occurrence)
  | [] => return []
  | .scalar _ :: rest => occurrencesOfFields project rest
  | .entity _ place selections :: rest => do
      let first ← occurrences project place selections
      return first ++ (← occurrencesOfFields project rest)

/-- The occurrences of the selection sets of branches. -/
def occurrencesOfBranches (project : Project) : List TreeBranch → Build (List Occurrence)
  | [] => return []
  | .mk _ place selections :: rest => do
      let first ← occurrences project place selections
      return first ++ (← occurrencesOfBranches project rest)

end

/-- Records every selection set of a definition with its entity, once all of them are placed. -/
def register (project : Project) (root : RootField) : Build (List Occurrence) := do
  let found ← occurrences project root.place root.selections
  modify fun workspace => { workspace with entities := workspace.entities.registerAll found }
  return found

end ResponseShape.Build
