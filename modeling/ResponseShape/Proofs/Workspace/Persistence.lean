import ResponseShape.Proofs.Workspace.Upkeep

/-!
# What is visible persists

In an aligned workspace every place in what is registered has its entity in the table, and merging
finds the entities of all fields. What is registered for a definition that is built stays as it is.
So what is visible at a set of the definition stays the same, whatever else is built
(`SelectionSet.matches_visible_of_preserves`).
-/

namespace ResponseShape

namespace Workspace.IsAligned

variable {project : Project} {workspace : Workspace} (aligned : workspace.IsAligned project)
  {root : RootField} {location : Location} {occurrence : Occurrence}

include aligned

/-- Where an occurrence is registered, the table holds the very entity that it has. -/
theorem entity?_of_registered
    (mem : occurrence ∈ workspace.entities.occurrences occurrence.place.entity.location) :
    workspace.entities.entity? occurrence.place.entity.location
      = some occurrence.place.entity := by
  rcases EntityTable.exists_entity?_of_mem mem with ⟨entity, found⟩
  have isPlace := aligned.registered _ occurrence mem _ (SelectionTree.self_mem_places _ _)
  rw [found, aligned.entities _ entity found, isPlace.entity_eq]
  rfl

/-- The table holds the entities of all places in what a build found and registered. -/
theorem entity?_of_isBuilt {definition : DefinitionId} {type : Name} {selections : List Selection}
    {occurrences : List Occurrence}
    (built : root.IsBuilt project workspace.fragment? definition type selections occurrences)
    (holds : workspace.HoldsAll occurrences) :
    ∀ occurrence ∈ occurrences, ∀ place ∈ occurrence.places,
      workspace.entities.entity? place.entity.location = some place.entity := by
  -- by induction on how fragments nest: what a spread places has the tree of the fragment
  refine aligned.sound.of_isBuilt (motive := fun _ _ _ occurrences =>
    workspace.HoldsAll occurrences → ∀ occurrence ∈ occurrences, ∀ place ∈ occurrence.places,
      workspace.entities.entity? place.entity.location = some place.entity) ?_ built holds
  intro shape? definition type selections root occurrences fragments built holds occurrence mem
  have here {occurrence : Occurrence} (mem : occurrence ∈ occurrences) :=
    aligned.entity?_of_registered (holds occurrence mem)
  rcases built.occurs.origin occurrence mem with
    ⟨member, memberMem, rfl | ⟨_, -, shape, _, isShape, -, inside, insideMem, placement⟩⟩
  · intro place isPlace
    rcases SelectionTree.mem_places.mp isPlace with ⟨inner, innerMem, isInner⟩
    rcases built.depiction.depicts with ⟨_, ofRoot⟩
    have written := ofRoot.subset_writtenSets memberMem _ innerMem
    have isMember : place = inner.1 := by
      rcases isInner with rfl | ⟨spread, spreadMem, rfl⟩
      · rfl
      · exact built.depiction.place_of_spread written spreadMem
    rw [isMember]
    exact here (built.occurs.written inner written)
  · rcases fragments _ shape isShape with ⟨isStored, -, _, -, -, ofFragment⟩
    have ofInside := ofFragment
      (aligned.sound.stored shape (List.mem_of_find?_eq_some isStored)) inside insideMem
    rw [Occurrence.places, placement.selections]
    exact SelectionTree.forall_mem_places_of_moved ofInside (here mem)

theorem entity?_of_mem_places (mem : occurrence ∈ workspace.entities.occurrences location) :
    ∀ place ∈ occurrence.places,
      workspace.entities.entity? place.entity.location = some place.entity := by
  rcases aligned.found location occurrence mem with ⟨_, _, _, _, _, built, holds, isFound⟩
  exact aligned.entity?_of_isBuilt built holds occurrence isFound

theorem mem_occurrences_of_written (hasRoot : workspace.HasRoot root)
    {member : Place × SelectionTree} (mem : member ∈ root.writtenSets) :
    ⟨member.1, member.2, none⟩ ∈ workspace.entities.occurrences member.1.entity.location := by
  rcases aligned.sound.hasBuilt hasRoot with ⟨_, _, _, occurrences, hasBuilt⟩
  exact hasBuilt.registered _ (hasBuilt.built.occurs.written member mem)

theorem entity?_of_hasRoot (hasRoot : workspace.HasRoot root) :
    ∀ place ∈ root.places,
      workspace.entities.entity? place.entity.location = some place.entity :=
  aligned.entity?_of_mem_places
    (aligned.mem_occurrences_of_written hasRoot (SelectionTree.self_mem_writtenSets _ _))

/-- Merging what is registered for an entity finds the entities of all fields. -/
theorem reaches (mem : occurrence ∈ workspace.entities.occurrences location) {field : Field}
    (fieldMem : field ∈ occurrence.selections.fields) {place : Place}
    (isHere : place.entity.location = location) (direct : Option SelectionTree) :
    MergeTarget.Reaches ⟨project.schema, workspace.entities, place, direct⟩ field := by
  intro isSome
  rcases aligned.found location occurrence mem with ⟨_, _, _, _, _, built, holds, isFound⟩
  rcases aligned.sound.descends built occurrence isFound field fieldMem isSome with
    ⟨below, belowMem, -, isBelow⟩
  rcases EntityTable.exists_entity?_of_mem (holds below belowMem) with ⟨entity, found⟩
  rw [isBelow, (aligned.sound.registered location occurrence mem).2, ← isHere] at found
  exact ⟨entity, found, aligned.sound.entities.location_of_entity? found⟩

end Workspace.IsAligned

section Sets

variable {project : Project} {workspace past : Workspace} {root otherRoot : RootField}
  {set other : SelectionSet} {strategy : MergingStrategy} {visible : VisibleSelections}

/-- What is visible at equal places of what is built is alike, whatever else is built on the way to
one workspace. -/
theorem SelectionSet.matches_visible_of_preserves {twin : Workspace}
    (sound : workspace.IsSound project) (aligned : past.IsAligned project)
    (twinAligned : twin.IsAligned project) (preserves : past.Preserves workspace)
    (twinPreserves : twin.Preserves workspace) (offers : past.Offers root)
    (twinOffers : twin.Offers otherRoot) (placed : set.IsPlacedIn project root)
    (otherPlaced : other.IsPlacedIn project otherRoot) (same : (set.place == other.place) = true)
    (isDirect : set.direct.isSome = other.direct.isSome) (strategy : MergingStrategy) :
    Matches VisibleSelections.IsAlike (set.visible project.schema past.entities strategy)
      (other.visible project.schema twin.entities strategy) := by
  have location := (Place.of_beq same).1
  rcases sound.eq_of_offers (preserves.offers offers) (twinPreserves.offers twinOffers)
    (placed.definition_eq otherPlaced same) with rfl
  have here := preserves.occurrences root _ offers placed.definition
  have there := twinPreserves.occurrences root _ twinOffers otherPlaced.definition
  have place := Place.isAlike placed.reachable otherPlaced.reachable same
  refine SelectionSet.matches_visible place ?_ ?_ ?_ ?_ strategy
  · rcases aligned.sound.hasBuilt offers.hasRoot with ⟨_, _, _, _, hasBuilt⟩
    exact placed.direct_eq hasBuilt.built.depiction otherPlaced same isDirect
  · rw [← here, ← there, location]
  · exact fun occurrence mem field fieldMem => aligned.reaches mem fieldMem rfl _
  · exact fun occurrence mem field fieldMem => twinAligned.reaches mem fieldMem rfl _

end Sets

end ResponseShape
