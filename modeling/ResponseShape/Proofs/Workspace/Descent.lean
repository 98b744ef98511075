import ResponseShape.Proofs.Merging.Alike
import ResponseShape.Proofs.Workspace.Built

/-!
# Descending into a definition

Where a definition is built, the objects of a field that occurs in it occur in it as well, be the
field written there or in a fragment (`Workspace.IsSound.descends`): an occurrence placed by a
spread takes those below it along, since they lie behind the same scope of the fragment's root. So
merging finds the entity of every field that it adopts.
-/

namespace ResponseShape

/-- Whether the objects of each field among some occurrences are among them, too, behind the same
root scope. -/
def Descends (occurrences : List Occurrence) : Prop :=
  ∀ occurrence ∈ occurrences, ∀ field ∈ occurrence.selections.fields, field.selectionSet.isSome →
    ∃ below ∈ occurrences, below.place.rootScope = occurrence.place.rootScope
      ∧ below.place.entity.location = occurrence.place.entity.location.child field.responseKey
        field.summary.type.innerName

theorem EntityTable.exists_entity?_of_mem {table : EntityTable} {location : Location}
    {occurrence : Occurrence} (mem : occurrence ∈ table.occurrences location) :
    ∃ entity, table.entity? location = some entity := by
  simp only [occurrences, entity?] at mem ⊢
  cases found : table.record? location with
  | none => simp [found] at mem
  | some record => exact ⟨record.entity, rfl⟩

section Building

variable {project : Project} {workspace : Workspace} {shape? : Name → Option FragmentShape}
  {definition : DefinitionId} {type : Name} {selections : List Selection} {root : RootField}
  {occurrences : List Occurrence}

/-- A definition leads on to the objects of its fields if the fragments built before it do. -/
theorem RootField.IsBuilt.descends
    (built : root.IsBuilt project shape? definition type selections occurrences)
    (fragments : ∀ name shape, shape? name = some shape → Descends shape.occurrences) :
    Descends occurrences := by
  intro occurrence mem field fieldMem isSome
  rcases Option.isSome_iff_exists.mp isSome with ⟨inner, isInner⟩
  rcases built.occurs.origin occurrence mem with
    ⟨member, memberMem, rfl | ⟨spread, spreadMem, shape, fragment, isShape, isFragment, inside,
      insideMem, placement⟩⟩
  · rcases built.depiction.depicts with ⟨_, ofRoot⟩
    rcases (built.depiction.forall_writtenSets member memberMem).1 with ⟨_, _, depicts⟩
    rcases depicts.of_field fieldMem isInner with ⟨isChild, below, -, written, -⟩
    refine ⟨_, built.occurs.written _ (ofRoot.subset_writtenSets memberMem _ written),
      Place.rootScope_of_enclosing isChild.enclosing, ?_⟩
    exact built.depiction.located member memberMem field fieldMem inner isInner
  · rw [placement.selections] at fieldMem
    rcases fragments _ shape isShape inside insideMem field fieldMem isSome with
      ⟨deeper, deeperMem, sameRoot, deeperLocation⟩
    rcases built.occurs.spreads member memberMem spread spreadMem with
      ⟨other, condition, isOther, isCondition, places⟩
    rcases Option.some.inj (isShape.symm.trans isOther) with rfl
    rcases Option.some.inj (isFragment.symm.trans isCondition) with rfl
    rcases places deeper deeperMem with ⟨narrowed, spreads, isPlaced⟩
    rcases placement.place with ⟨scope, isScope, place⟩
    rw [sameRoot, isScope] at spreads
    rcases isPlaced (by rw [← Except.ok.inj spreads]; rfl) with ⟨outside, outsideMem, below⟩
    rcases below.place with ⟨otherScope, isOtherScope, belowPlace⟩
    rw [sameRoot, isScope, Except.ok.injEq, Option.some.injEq] at isOtherScope
    refine ⟨outside, outsideMem, ?_, ?_⟩
    · rw [belowPlace, place, Build.rootScope_placeAt, Build.rootScope_placeAt, isOtherScope]
    · rw [below.location, placement.location, deeperLocation]
      simp [Location.child, Location.joined]

/-- What is built in a workspace leads on to the objects of its fields. -/
theorem Workspace.IsSound.descends (sound : workspace.IsSound project)
    (built : root.IsBuilt project workspace.fragment? definition type selections occurrences) :
    Descends occurrences := by
  refine sound.of_isBuilt (motive := fun _ _ _ occurrences => Descends occurrences) ?_ built
  intro shape? definition type selections root occurrences fragments built
  refine built.descends fun name shape found => ?_
  rcases (fragments name shape found).2.2 with ⟨_, -, -, descends⟩
  exact descends

end Building

end ResponseShape
