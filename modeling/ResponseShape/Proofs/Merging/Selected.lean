import ResponseShape.Proofs.Merging.Union

/-!
# What a set selects

A set selects what is written there and what its sources select. Under an assignment that the set's
scope is consistent with, the keys of the selected fields whose conditions hold are those of the
visible fields whose conditions hold.
-/

namespace ResponseShape

variable {schema : Schema} {entities : EntityTable} {set : SelectionSet}
  {strategy : MergingStrategy} {visible : VisibleSelections} {field shown : Field}
  {assignment : Assignment}

/-- Whether a field is selected in a set, or in one of its sources. -/
def SelectionSet.Selects (entities : EntityTable) (strategy : MergingStrategy) (set : SelectionSet)
    (field : Field) : Prop :=
  field ∈ set.directFields
    ∨ ∃ occurrence ∈ set.sources entities strategy, field ∈ occurrence.selections.fields

theorem SelectionSet.selects_iff : set.Selects entities strategy field ↔
    field ∈ set.directFields
      ∨ field ∈ ((set.sources entities strategy).map (·.selections)).flatMap (·.fields) := by
  refine or_congr_right ?_
  simp only [List.mem_flatMap, List.mem_map]
  constructor
  · rintro ⟨occurrence, mem, fieldMem⟩
    exact ⟨_, ⟨occurrence, mem, rfl⟩, fieldMem⟩
  · rintro ⟨_, ⟨occurrence, mem, rfl⟩, fieldMem⟩
    exact ⟨occurrence, mem, fieldMem⟩

/-- Whether a fragment is spread in a set, or in one of its sources. -/
def SelectionSet.SelectsSpread (entities : EntityTable) (strategy : MergingStrategy)
    (set : SelectionSet) (name : Name) : Prop :=
  (∃ spread ∈ set.directSpreads, spread.name = name)
    ∨ ∃ occurrence ∈ set.sources entities strategy,
      ∃ spread ∈ occurrence.selections.spreads, spread.name = name

theorem VisibleSelections.mem_spreads_iff {name : Name}
    (run : set.visible schema entities strategy = .ok visible) :
    (∃ spread ∈ visible.spreads, spread.name = name)
      ↔ set.SelectsSpread entities strategy name := by
  rcases SelectionSet.hasMerged_of_visible run with ⟨-, isDirect, merged⟩
  have names := merged.spreads.names
  have isSpreads : visible.spreads = set.directSpreads ++ visible.additions.spreads := by
    rw [spreads, isDirect]
    rfl
  rw [isSpreads]
  constructor
  · rintro ⟨spread, mem, rfl⟩
    rcases List.mem_append.mp mem with ofDirect | isAdded
    · exact Or.inl ⟨spread, ofDirect, rfl⟩
    · have isName := List.mem_map_of_mem (f := (·.name)) isAdded
      rw [names, mem_distinct, List.mem_map] at isName
      rcases isName with ⟨source, sourceMem, sameName⟩
      rcases List.mem_flatMap.mp (List.mem_filter.mp sourceMem).1 with ⟨tree, treeMem, inTree⟩
      rcases List.mem_map.mp treeMem with ⟨occurrence, occurrenceMem, rfl⟩
      exact Or.inr ⟨occurrence, occurrenceMem, source, inTree, sameName⟩
  · rintro (⟨spread, ofDirect, rfl⟩ | ⟨occurrence, occurrenceMem, source, inTree, rfl⟩)
    · exact ⟨spread, List.mem_append_left _ ofDirect, rfl⟩
    · have sourceMem : source ∈ ((set.sources entities strategy).map (·.selections)).flatMap
          (·.spreads) :=
        List.mem_flatMap.mpr ⟨_, List.mem_map_of_mem occurrenceMem, inTree⟩
      cases direct? : (set.mergeTarget schema entities).direct.bind (·.spread? source.name) with
      | some spread =>
          rcases Option.bind_eq_some_iff.mp direct? with ⟨tree, isTree, found⟩
          have isTree : set.direct = some tree := isTree
          refine ⟨spread, List.mem_append_left _ ?_, by simpa using List.find?_some found⟩
          rw [SelectionSet.directSpreads, isTree]
          exact List.mem_of_find?_eq_some found
      | none =>
          have isName : source.name ∈ visible.additions.spreads.map (·.name) := by
            rw [names, mem_distinct]
            exact List.mem_map_of_mem (List.mem_filter.mpr ⟨sourceMem, by rw [direct?]; rfl⟩)
          rcases List.mem_map.mp isName with ⟨spread, isAdded, sameName⟩
          exact ⟨spread, List.mem_append_right _ isAdded, sameName⟩

theorem VisibleSelections.exists_selects (orderly : set.IsOrderly)
    (run : set.visible schema entities strategy = .ok visible)
    (knownHolds : set.place.scope.knownConditions.all (·.holds assignment) = true)
    (mem : shown ∈ visible.fields) (holds : shown.holds assignment = true) :
    ∃ field, set.Selects entities strategy field ∧ field.responseKey = shown.responseKey
      ∧ field.holds assignment = true := by
  rcases mem_fields orderly run mem with ⟨direct, directMem, widened⟩ | ⟨-, added⟩
  · have sameKey : direct.responseKey = shown.responseKey := by
      rw [widened.isUnder]
      rfl
    rcases (widened.conditions assignment knownHolds).mp holds with
      directHolds | ⟨source, sourceMem, sourceKey, sourceHolds⟩
    · exact ⟨direct, Or.inl directMem, sameKey, directHolds⟩
    · exact ⟨source, SelectionSet.selects_iff.mpr (Or.inr sourceMem), sourceKey.trans sameKey,
        sourceHolds⟩
  · rcases (added.conditions assignment knownHolds).mp holds with
      ⟨source, sourceMem, sourceKey, sourceHolds⟩
    exact ⟨source, SelectionSet.selects_iff.mpr (Or.inr sourceMem), sourceKey, sourceHolds⟩

theorem VisibleSelections.nodup_responseKeys (orderly : set.IsOrderly)
    (run : set.visible schema entities strategy = .ok visible) :
    (visible.fields.map (·.responseKey)).Nodup := by
  rcases SelectionSet.hasMerged_of_visible run with ⟨-, isDirect, merged⟩
  have ofDirect : ((set.directFields.map fun field =>
      (visible.additions.widened? field.responseKey).getD field).map (·.responseKey))
        = set.directFields.map (·.responseKey) := by
    rw [List.map_map]
    refine List.map_congr_left fun direct mem => ?_
    rw [Function.comp_apply, (merged.fields.widened _ _ (orderly.directField? mem)).isUnder]
    rfl
  have isFields : visible.fields = (set.directFields.map fun field =>
      (visible.additions.widened? field.responseKey).getD field) ++ visible.additions.fields := by
    rw [fields, isDirect]
    rfl
  rw [isFields, List.map_append, ofDirect, List.nodup_append]
  refine ⟨?_, merged.fields.nodup, ?_⟩
  · rw [SelectionSet.directFields]
    cases isTree : set.direct with
    | none => exact List.nodup_nil
    | some tree => exact (orderly tree isTree).fields
  · rintro _ isDirectKey _ isAddedKey rfl
    rcases List.mem_map.mp isDirectKey with ⟨direct, directMem, sameKey⟩
    rcases List.mem_map.mp isAddedKey with ⟨added, addedMem, isKey⟩
    exact SelectionSet.directField?_eq_none.mp (merged.fields.notDirect addedMem) direct directMem
      (sameKey.trans isKey.symm)

/-- Visible fields can hold where the set's scope lets them, if those written there can. -/
theorem VisibleSelections.exists_holds (orderly : set.IsOrderly)
    (run : set.visible schema entities strategy = .ok visible)
    (directs : ∀ direct ∈ set.directFields, ∃ assignment,
      set.place.scope.knownConditions.all (·.holds assignment) = true
        ∧ direct.holds assignment = true) (mem : shown ∈ visible.fields) :
    ∃ assignment, set.place.scope.knownConditions.all (·.holds assignment) = true
      ∧ shown.holds assignment = true := by
  rcases SelectionSet.hasMerged_of_visible run with ⟨-, isDirect, merged⟩
  rw [fields, isDirect, List.mem_append] at mem
  rcases mem with ofDirect | isAdded
  · rcases List.mem_map.mp ofDirect with ⟨direct, directMem, rfl⟩
    rcases directs direct directMem with ⟨assignment, knownHolds, holds⟩
    have widened := merged.fields.widened _ _ (orderly.directField? directMem)
    exact ⟨assignment, knownHolds, (widened.conditions assignment knownHolds).mpr (Or.inl holds)⟩
  · have isKey := List.mem_map_of_mem (f := (·.responseKey)) isAdded
    rw [merged.fields.keys, mem_distinct, List.mem_map] at isKey
    rcases isKey with ⟨source, sourceMem, sameKey⟩
    rcases List.mem_filter.mp sourceMem with ⟨isSource, isNew⟩
    rw [MergeTarget.isNew, Bool.and_eq_true] at isNew
    rcases Field.canHoldIn_iff.mp isNew.1 with ⟨assignment, knownHolds, holds⟩
    exact ⟨assignment, knownHolds, ((merged.fields.added shown isAdded).conditions assignment
      knownHolds).mpr ⟨source, isSource, sameKey, holds⟩⟩

section Selects

variable (orderly : set.IsOrderly)
  (run : set.visible schema entities strategy = .ok visible)
  (selects : set.Selects entities strategy field)
  (knownHolds : set.place.scope.knownConditions.all (·.holds assignment) = true)
  (holds : field.holds assignment = true)

include orderly run selects knownHolds holds

theorem VisibleSelections.exists_of_selects : ∃ shown ∈ visible.fields,
    shown.responseKey = field.responseKey ∧ shown.holds assignment = true := by
  rcases SelectionSet.hasMerged_of_visible run with ⟨-, isDirect, merged⟩
  have ofFields := merged.fields
  cases direct? : (set.mergeTarget schema entities).directField? field.responseKey with
  | some direct =>
      have widened := ofFields.widened _ _ direct?
      have directMem := SelectionSet.mem_of_directField? direct?
      have isKey := MergeTarget.responseKey_of_directField? direct?
      refine ⟨(visible.additions.widened? field.responseKey).getD direct, ?_, ?_, ?_⟩
      · rw [fields, isDirect, ← isKey]
        exact List.mem_append_left _ (List.mem_map_of_mem directMem)
      · rw [widened.isUnder]
        exact isKey
      · refine (widened.conditions assignment knownHolds).mpr ?_
        rcases SelectionSet.selects_iff.mp selects with isDirectField | ofSource
        · have same := @SelectionSet.IsOrderly.directField? schema entities _ _ orderly
            isDirectField
          rw [direct?, Option.some.injEq] at same
          rw [same]
          exact Or.inl holds
        · exact Or.inr ⟨field, ofSource, isKey.symm, holds⟩
  | none =>
      rcases SelectionSet.selects_iff.mp selects with isDirectField | ofSource
      · exact absurd rfl (SelectionSet.directField?_eq_none.mp direct? field isDirectField)
      · have canHold := Field.canHoldIn_iff.mpr ⟨assignment, knownHolds, holds⟩
        rcases ofFields.exists_field? ofSource canHold direct? with ⟨added, found⟩
        have addedMem := List.mem_of_find?_eq_some found
        have isKey : added.responseKey = field.responseKey := by simpa using List.find?_some found
        refine ⟨added, List.mem_append_right _ addedMem, isKey, ?_⟩
        exact ((ofFields.added added addedMem).conditions assignment knownHolds).mpr
          ⟨field, ofSource, isKey.symm, holds⟩

/-- What is visible under the key of a selected field has the type of that field. -/
theorem VisibleSelections.type_of_selects (mem : shown ∈ visible.fields)
    (isKey : shown.responseKey = field.responseKey) : shown.summary.type = field.summary.type := by
  have canHold := Field.canHoldIn_iff.mpr ⟨assignment, knownHolds, holds⟩
  rcases mem_fields orderly run mem with ⟨direct, directMem, widened⟩ | ⟨notDirect, added⟩
  · have isUnder := widened.isUnder
    rw [isUnder] at isKey ⊢
    have isKey : direct.responseKey = field.responseKey := isKey
    rcases SelectionSet.selects_iff.mp selects with isDirectField | ofSource
    · have same := @SelectionSet.IsOrderly.directField? schema entities _ _ orderly isDirectField
      rw [← isKey, orderly.directField? directMem, Option.some.injEq] at same
      rw [same]
      rfl
    · exact (FieldSummary.selectsSame_iff.mp
        (widened.agrees field ofSource canHold isKey.symm)).2.2.1
  · rcases SelectionSet.selects_iff.mp selects with isDirectField | ofSource
    · exact absurd isKey.symm
        (SelectionSet.directField?_eq_none.mp notDirect field isDirectField)
    · exact (FieldSummary.selectsSame_iff.mp
        (added.agrees field ofSource canHold isKey.symm)).2.2.1

end Selects

/-- Whether a view shows all that another does: the spreads, and under each assignment that meets
some conditions the keys of the fields that hold. -/
structure VisibleSelections.Contains (known : Option ConditionGroup)
    (visible wide : VisibleSelections) : Prop where
  fields : ∀ assignment, known.all (·.holds assignment) = true → ∀ field ∈ wide.fields,
    field.holds assignment = true → ∃ shown ∈ visible.fields,
      shown.responseKey = field.responseKey ∧ shown.holds assignment = true
  spreads : ∀ spread ∈ wide.spreads, ∃ shown ∈ visible.spreads, shown.name = spread.name

/-- Whether a view shows a response key under an assignment. -/
def VisibleSelections.Shows (key : Name) (assignment : Assignment) (visible : VisibleSelections) :
    Prop :=
  ∃ shown ∈ visible.fields, shown.responseKey = key ∧ shown.holds assignment = true

/-- Whether a view has all fields of another, and these hold if the other's do, under each
assignment that meets some conditions. -/
structure VisibleSelections.HasFieldsOf (known : Option ConditionGroup)
    (visible other : VisibleSelections) : Prop where
  keys : ∀ field ∈ other.fields, ∃ shown ∈ visible.fields, shown.responseKey = field.responseKey
  holds : ∀ field ∈ other.fields, ∀ shown ∈ visible.fields,
    shown.responseKey = field.responseKey → ∀ assignment,
      known.all (·.holds assignment) = true → field.holds assignment = true →
        shown.holds assignment = true

section Views

variable {known : Option ConditionGroup} {other : VisibleSelections} {key : Name}

theorem VisibleSelections.Contains.shows (contains : visible.Contains known other)
    (knownHolds : known.all (·.holds assignment) = true) (shows : other.Shows key assignment) :
    visible.Shows key assignment := by
  rcases shows with ⟨field, mem, rfl, holds⟩
  exact contains.fields assignment knownHolds field mem holds

/-- A view has the fields of another whose fields can all hold, if it shows what the other does. -/
theorem VisibleSelections.hasFieldsOf_of_shows
    (nodup : (visible.fields.map (·.responseKey)).Nodup)
    (canHold : ∀ field ∈ other.fields, ∃ assignment, known.all (·.holds assignment) = true
      ∧ field.holds assignment = true)
    (shows : ∀ key assignment, known.all (·.holds assignment) = true →
      other.Shows key assignment → visible.Shows key assignment) :
    visible.HasFieldsOf known other := by
  constructor
  · intro field mem
    rcases canHold field mem with ⟨assignment, knownHolds, holds⟩
    rcases shows _ assignment knownHolds ⟨field, mem, rfl, holds⟩ with ⟨shown, shownMem, isKey, -⟩
    exact ⟨shown, shownMem, isKey⟩
  · intro field mem shown shownMem isKey assignment knownHolds holds
    rcases shows _ assignment knownHolds ⟨field, mem, rfl, holds⟩ with
      ⟨same, sameMem, sameKey, sameHolds⟩
    rcases List.inj_on_of_nodup_map nodup sameMem shownMem (sameKey.trans isKey.symm) with rfl
    exact sameHolds

theorem VisibleSelections.HasFieldsOf.mem_keys (hasFields : visible.HasFieldsOf known other)
    (mem : key ∈ other.fields.map (·.responseKey)) :
    key ∈ visible.fields.map (·.responseKey) := by
  rcases List.mem_map.mp mem with ⟨field, fieldMem, rfl⟩
  rcases hasFields.keys field fieldMem with ⟨shown, shownMem, isKey⟩
  exact List.mem_map.mpr ⟨shown, shownMem, isKey⟩

end Views

/-- Whether a set selects all that another does: the same fields, and spreads of the same
fragments. -/
structure SelectionSet.SelectsAllOf (entities : EntityTable) (strategy : MergingStrategy)
    (set wide : SelectionSet) : Prop where
  known : ∀ assignment, set.place.scope.knownConditions.all (·.holds assignment) = true →
    wide.place.scope.knownConditions.all (·.holds assignment) = true
  fields : ∀ field, wide.Selects entities strategy field →
    ∃ twin, twin.summary = field.summary ∧ set.Selects entities strategy twin
  spreads : ∀ name, wide.SelectsSpread entities strategy name →
    set.SelectsSpread entities strategy name

/-- What selects all that another set does shows all of it. -/
theorem SelectionSet.SelectsAllOf.contains {wide : SelectionSet} {wideVisible : VisibleSelections}
    (selectsAll : set.SelectsAllOf entities strategy wide) (orderly : set.IsOrderly)
    (wideOrderly : wide.IsOrderly) (run : set.visible schema entities strategy = .ok visible)
    (wideRun : wide.visible schema entities strategy = .ok wideVisible) :
    visible.Contains set.place.scope.knownConditions wideVisible := by
  constructor
  · intro assignment knownHolds field mem holds
    rcases VisibleSelections.exists_selects wideOrderly wideRun
      (selectsAll.known assignment knownHolds) mem holds with ⟨source, selects, isKey, sourceHolds⟩
    rcases selectsAll.fields source selects with ⟨twin, sameSummary, twinSelects⟩
    have twinHolds : twin.holds assignment = true := by
      rw [Field.holds, sameSummary]
      exact sourceHolds
    rcases VisibleSelections.exists_of_selects orderly run twinSelects knownHolds twinHolds with
      ⟨shown, shownMem, sameKey, shownHolds⟩
    refine ⟨shown, shownMem, ?_, shownHolds⟩
    rw [sameKey, ← isKey, Field.responseKey, Field.responseKey, sameSummary]
  · intro spread mem
    have selects := (VisibleSelections.mem_spreads_iff wideRun).mp ⟨spread, mem, rfl⟩
    exact (VisibleSelections.mem_spreads_iff run).mpr (selectsAll.spreads _ selects)

/-- A field that can be included has its type wherever all that its set selects is selected. -/
theorem SelectionSet.SelectsAllOf.type_eq {wide : SelectionSet} {wideVisible : VisibleSelections}
    {wideField : Field} (selectsAll : set.SelectsAllOf entities strategy wide)
    (orderly : set.IsOrderly) (wideOrderly : wide.IsOrderly)
    (run : set.visible schema entities strategy = .ok visible)
    (wideRun : wide.visible schema entities strategy = .ok wideVisible)
    (knownHolds : set.place.scope.knownConditions.all (·.holds assignment) = true)
    (mem : field ∈ visible.fields) (wideMem : wideField ∈ wideVisible.fields)
    (sameKey : field.responseKey = wideField.responseKey)
    (holds : wideField.holds assignment = true) :
    field.summary.type = wideField.summary.type := by
  have wideHolds := selectsAll.known assignment knownHolds
  rcases VisibleSelections.exists_selects wideOrderly wideRun wideHolds wideMem holds with
    ⟨source, selects, isKey, sourceHolds⟩
  have ofWide := VisibleSelections.type_of_selects wideOrderly wideRun selects wideHolds
    sourceHolds wideMem isKey.symm
  rcases selectsAll.fields source selects with ⟨twin, sameSummary, twinSelects⟩
  have twinHolds : twin.holds assignment = true := by
    rw [Field.holds, sameSummary]
    exact sourceHolds
  have twinKey : twin.responseKey = source.responseKey := by
    rw [Field.responseKey, Field.responseKey, sameSummary]
  rw [VisibleSelections.type_of_selects orderly run twinSelects knownHolds twinHolds mem
    (sameKey.trans (isKey.symm.trans twinKey.symm)), ofWide, sameSummary]

end ResponseShape
