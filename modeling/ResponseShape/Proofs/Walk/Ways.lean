import ResponseShape.Proofs.Definition.Distinctness
import ResponseShape.Proofs.Definition.Reading
import ResponseShape.Proofs.Merging.Additions
import ResponseShape.Proofs.Workspace.Reachable

/-!
# Ways to places

A way into the response leads to a place if its keys lead to the place's entity and its objects lie
within the place's scopes (`Place.IsAt`). Such a way leads to the place around a narrower one, to
the place of a field with a step less, and through the spread of whatever a fragment has been placed
at. What goes over from a place to those of its fields and branches holds for all that is written in
a definition (`RootField.IsDepiction.forall_written`).
-/

namespace ResponseShape

section Places

variable {project : Project} {assignment : Assignment} {place other : Place}
  {way : List Execution.Step} {object : Name}

/-- Whether a way leads through the scopes of a place to an object at its entity. -/
structure Place.IsAt (schema : Schema) (assignment : Assignment) (way : List Execution.Step)
    (object : Name) (place : Place) : Prop where
  keys : place.entity.location.responseKeys = way.map (·.key)
  scopes : List.Forall₂ (fun scope object => scope.holds schema object assignment = true)
    place.scopes (way.map (·.object) ++ [object])

theorem Place.IsAt.scope {schema : Schema}
    (isAt : place.IsAt schema assignment way object) :
    place.scope.holds schema object assignment = true :=
  (forall₂_append_singleton_iff.mp isAt.scopes).2

/-- A way to a narrower place is one to the place around it, where it meets the narrowing. -/
theorem Place.IsAt.of_narrowed {child : Place} {narrowing : Narrowing}
    (lawful : project.schema.IsLawful)
    (reachable : Scope.Reachable project.schema place.scope)
    (narrowed : place.narrowed project.schema narrowing = .ok child)
    (isAt : child.IsAt project.schema assignment way object) :
    place.IsAt project.schema assignment way object
      ∧ narrowing.holds project.schema object assignment = true := by
  rcases Place.narrowed_eq_ok narrowed with ⟨-, sameEntity, sameEnclosing⟩
  rcases Place.scope_of_narrowed lawful reachable narrowed with ⟨-, holdsIff⟩
  rcases (holdsIff object assignment).mp isAt.scope with ⟨within, enters⟩
  have scopes := isAt.scopes
  rw [Place.scopes, sameEnclosing, forall₂_append_singleton_iff] at scopes
  refine ⟨⟨by rw [← sameEntity, isAt.keys], ?_⟩, enters⟩
  exact forall₂_append_singleton_iff.mpr ⟨scopes.1, within⟩

/-- A way to the objects of a field is one to the place of the field, with one step more. -/
theorem Place.IsAt.of_child {child : Place} {key type : Name}
    (enclosing : child.enclosing = place.scopes)
    (location : child.entity.location = place.entity.location.child key type)
    (isAt : child.IsAt project.schema assignment way object) :
    ∃ before step, way = before ++ [step] ∧ step.key = key
      ∧ place.IsAt project.schema assignment before step.object := by
  have keys := isAt.keys
  rw [location, Location.responseKeys, Location.child, Location.joined, List.map_append] at keys
  rcases List.map_eq_append_iff.mp keys.symm with ⟨before, last, rfl, beforeKeys, lastKey⟩
  rcases List.map_eq_singleton_iff.mp lastKey with ⟨step, rfl, isKey⟩
  have scopes := isAt.scopes
  rw [Place.scopes, enclosing, List.map_append] at scopes
  exact ⟨before, step, rfl, isKey, beforeKeys.symm, (forall₂_append_singleton_iff.mp scopes).1⟩

/-- A way to a place is one to every place at its entity that it lies within. -/
theorem Place.IsAt.of_isWithin (lawful : project.schema.IsLawful)
    (isAt : place.IsAt project.schema assignment way object)
    (reachable : ∀ scope ∈ place.scopes, Scope.Reachable project.schema scope)
    (sameLocation : other.entity.location = place.entity.location)
    (within : List.Forall₂ (fun scope inside => scope.isWithin inside = true) place.scopes
      other.scopes) : other.IsAt project.schema assignment way object := by
  refine ⟨by rw [sameLocation, isAt.keys], ?_⟩
  have holds := isAt.scopes
  generalize way.map (·.object) ++ [object] = objects at holds ⊢
  generalize place.scopes = scopes at reachable within holds
  generalize other.scopes = others at within ⊢
  induction within generalizing objects with
  | nil =>
      cases holds
      exact .nil
  | cons isWithin _ ih =>
      cases holds with
      | cons here later =>
          have sound := Scope.isSound_of_reachable lawful (reachable _ List.mem_cons_self)
          refine .cons (sound.holds_of_isWithin isWithin here) ?_
          exact ih _ (fun scope mem => reachable scope (List.mem_cons_of_mem _ mem)) later

end Places

section Spreads

variable {project : Project} {assignment : Assignment} {site inside : Place} {scope : Scope}
  {entity : Entity} {way : List Execution.Step} {object : Name}

/-- A way to what is placed at a spread is a way to the spread and, from there, one to what stands
inside the fragment. -/
theorem Place.IsAt.split {condition : Name} {rest : List Narrowing}
    (lawful : project.schema.IsLawful)
    (reachable : Scope.Reachable project.schema site.scope)
    (path : inside.rootScope.path = .onType condition :: rest)
    (spreads : site.scope.spreadInto? project.schema condition inside.rootScope = .ok (some scope))
    (length : site.enclosing.length = site.entity.location.steps.length)
    (location : entity.location = site.entity.location.joined inside.entity.location.steps)
    (isAt : (Build.placeAt site inside entity scope).IsAt project.schema assignment way object) :
    ∃ before after first objects, way = before ++ after
      ∧ after.map (·.object) ++ [object] = first :: objects
      ∧ site.IsAt project.schema assignment before first
      ∧ inside.IsAt project.schema assignment after object
      ∧ project.schema.isPossible condition first = true := by
  have keys := isAt.keys
  rw [Build.entity_placeAt, location, Location.responseKeys, Location.joined, List.map_append]
    at keys
  rcases List.map_eq_append_iff.mp keys.symm with ⟨before, after, rfl, beforeKeys, afterKeys⟩
  have scopes := isAt.scopes
  rw [Build.scopes_placeAt, List.map_append, List.append_assoc] at scopes
  have sameLength : site.enclosing.length = (before.map (·.object)).length := by
    rw [length, List.length_map, ← before.length_map (·.key), beforeKeys, List.length_map]
  rcases forall₂_of_append scopes sameLength with ⟨outer, inner⟩
  cases objects : after.map (·.object) ++ [object] with
  | nil => simp at objects
  | cons first rest =>
      rw [objects] at inner
      rcases inner with _ | ⟨scopeHolds, below⟩
      rcases (Scope.holds_spreadInto? lawful reachable path spreads).mp scopeHolds with
        ⟨siteHolds, rootHolds⟩
      refine ⟨before, after, first, rest, rfl, objects, ⟨beforeKeys.symm, ?_⟩,
        ⟨afterKeys.symm, ?_⟩, ?_⟩
      · exact List.rel_append outer (.cons siteHolds .nil)
      · rw [objects, inside.scopes_eq_cons]
        exact .cons rootHolds below
      · rw [Scope.holds, path, List.all_cons, Bool.and_eq_true, Scope.holds_onType] at rootHolds
        exact rootHolds.1

end Spreads

section Depictions

variable {project : Project} {definition : DefinitionId} {type : Name}
  {rootSelections : List Selection} {root : RootField}

/-- What goes over from a place to those of its fields and branches holds for all that is written in
a definition, each time of the selections that are depicted. -/
theorem RootField.IsDepiction.forall_written {motive : Place → List Selection → Prop}
    (depiction : root.IsDepiction project definition type rootSelections)
    (field : ∀ {levels place selections gathered known child},
      Scope.Reachable project.schema place.scope → motive place selections →
      Gathered.gatherAll project.compilation project.config.recursionLimit place.scope levels
        .empty selections = .ok gathered →
      known ∈ gathered.fields →
      place.IsChild project.schema known.field.type.innerName child →
      child.entity.location
        = place.entity.location.child known.responseKey known.field.type.innerName →
      motive child known.selections)
    (branch : ∀ {levels place selections gathered behind child},
      Scope.Reachable project.schema place.scope → motive place selections →
      Gathered.gatherAll project.compilation project.config.recursionLimit place.scope levels
        .empty selections = .ok gathered →
      behind ∈ gathered.branches → place.narrowed project.schema behind.1 = .ok child →
      motive child behind.2)
    (start : motive root.place rootSelections) :
    ∀ member ∈ root.writtenSets, ∃ levels selections,
      Depicts project levels member.1 selections member.2
        ∧ Scope.Reachable project.schema member.1.scope
        ∧ member.1.enclosing.length = member.1.entity.location.steps.length
        ∧ motive member.1 selections := by
  rcases depiction.depicts with ⟨levels, depicts⟩
  -- Locations and reachable scopes go along with the motive, as the steps ask for them.
  have all := depicts.forall_writtenSets (motive := fun place selections tree =>
      tree.IsLocated place ∧ Scope.Reachable project.schema place.scope
        ∧ place.enclosing.length = place.entity.location.steps.length
        ∧ motive place selections) ?_ ?_ ?_
  · intro member mem
    rcases all member mem with ⟨levels, selections, depicts, -, rest⟩
    exact ⟨levels, selections, depicts, rest⟩
  · rintro levels place selections gathered fields branches spreads known summary child tree
      ⟨located, reachable, length, holds⟩ parts knownMem fieldMem ofField
    rcases located.of_field fieldMem with ⟨location, childLocated⟩
    cases ofField with
    | entity _ isChild _ =>
        refine ⟨childLocated, .forType isChild.scope, ?_, ?_⟩
        · rw [isChild.enclosing, location]
          simp [Place.scopes, Location.child, Location.joined, length]
        · exact field reachable holds parts.gathers knownMem isChild location
  · rintro levels place selections gathered fields branches spreads behind key child tree
      ⟨located, reachable, length, holds⟩ parts behindMem branchMem ofBranch
    cases ofBranch with
    | kept narrowed _ _ =>
        rcases Place.narrowed_eq_ok narrowed with ⟨inner, sameEntity, sameEnclosing⟩
        refine ⟨located.of_branch branchMem, .narrow reachable inner, ?_, ?_⟩
        · rw [sameEntity, sameEnclosing]
          exact length
        · exact branch reachable holds parts.gathers behindMem narrowed
  · refine ⟨depiction.located, .forType depiction.scope, ?_, start⟩
    rw [depiction.enclosing, depiction.location]
    rfl

end Depictions

end ResponseShape
