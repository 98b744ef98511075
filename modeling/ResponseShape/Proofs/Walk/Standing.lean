import ResponseShape.Proofs.Definition.Gathering
import ResponseShape.Proofs.Document.Meeting
import ResponseShape.Proofs.Walk.Ways

/-!
# Where selections stand

A selection set is built from selections that stand at its place: the response keys of the fields
around them lead there, and whatever objects can be on the way have the types that the selections
are written on (`Place.LiesUnder`). Flattening, grouping and branching keep to this, and when fields
with one response key are told apart, both of them stand at the place
(`Gathered.yields_gatherAll`).
-/

namespace ResponseShape

variable {project : Project} {root : TypedSelections} {place : Place}

/-- Whether a place lies below fields, and within it selections on a type: the keys of the fields
lead to its entity, and all objects on a way to it have the types that the fields and the selections
are made on. -/
structure Place.LiesUnder (schema : Schema) (around : List SelectedField) (type : Name)
    (place : Place) : Prop where
  keys : place.entity.location.responseKeys = around.map (·.field.responseKey)
  types : ∀ assignment way object, place.IsAt schema assignment way object →
    List.Forall₂ (fun type object => schema.isPossible type object = true)
      (around.map (·.parentType) ++ [type]) (way.map (·.object) ++ [object])

/-- Whether a field lies below the given ones, and they lead to a place where it is selected. -/
structure SelectedField.StandsAt (project : Project) (root : TypedSelections) (place : Place)
    (around : List SelectedField) (selected : SelectedField) : Prop where
  lies : place.LiesUnder project.schema around selected.parentType
  below : Selection.MakesBelow project.compilation.spreadFragment? root around selected

/-- Whether all that a selection makes lies below a definition, at a place. -/
def Selection.StandsAt (project : Project) (root : TypedSelections) (place : Place)
    (selection : Selection) : Prop :=
  ∃ around type, place.LiesUnder project.schema around type
    ∧ ∀ selected, Makes project.compilation.spreadFragment? type [selection] selected →
      MakesBelow project.compilation.spreadFragment? root around selected

namespace Place.LiesUnder

variable {schema : Schema} {around : List SelectedField} {type : Name}

/-- The type of the selections can be replaced by another that all objects at the place have. -/
theorem of_type {other : Name} (lies : place.LiesUnder schema around type)
    (possible : ∀ assignment way object, place.IsAt schema assignment way object →
      schema.isPossible other object = true) : place.LiesUnder schema around other where
  keys := lies.keys
  types assignment way object isAt := by
    have types := lies.types assignment way object isAt
    rw [forall₂_append_singleton_iff] at types ⊢
    exact ⟨types.1, possible assignment way object isAt⟩

/-- Within an inline fragment that all objects at a place enter, selections are made on its type. -/
theorem of_applies {typeCondition : Option Name} {directives : List Directive}
    (lies : place.LiesUnder schema around type)
    (applies : ∀ assignment way object, place.IsAt schema assignment way object →
      Execution.applies schema object assignment typeCondition directives = true) :
    place.LiesUnder schema around (typeCondition.getD type) := by
  cases typeCondition with
  | none => exact lies
  | some condition =>
      refine lies.of_type fun assignment way object isAt => ?_
      have entered := applies assignment way object isAt
      simp only [Execution.applies, Option.all_some, Bool.and_eq_true] at entered
      exact entered.2

theorem narrowed {child : Place} {narrowing : Narrowing} (lawful : project.schema.IsLawful)
    (reachable : Scope.Reachable project.schema place.scope)
    (narrowed : place.narrowed project.schema narrowing = .ok child)
    (lies : place.LiesUnder project.schema around type) :
    child.LiesUnder project.schema around type where
  keys := by rw [(Place.narrowed_eq_ok narrowed).2.1, lies.keys]
  types assignment way object isAt :=
    lies.types assignment way object (isAt.of_narrowed lawful reachable narrowed).1

end Place.LiesUnder

/-- A field as gathering and merging compare it. -/
def SelectedField.summary (selected : SelectedField) : FieldSummary :=
  .ofSelection selected.field none

/-- Whether two fields that stand at a place under one response key are told apart. -/
structure SelectedField.ConflictsAt (project : Project) (root : TypedSelections) (place : Place)
    (around : List SelectedField) (first : SelectedField) (others : List SelectedField)
    (second : SelectedField) : Prop where
  stands : first.StandsAt project root place around
  otherStands : second.StandsAt project root place others
  key : first.field.responseKey = second.field.responseKey
  differ : first.summary.selectsSame second.summary = false

/-- Whether an error, if it is a conflict of fields, is one of fields that stand at a place. -/
def BuildError.ReportsAt (project : Project) (root : TypedSelections) (place : Place)
    (error : BuildError) : Prop :=
  error.isConflict = true → ∃ around first others second,
    SelectedField.ConflictsAt project root place around first others second
      ∧ error = FieldSummary.conflict place.type first.summary second.summary

theorem BuildError.reportsAt_of_spares {error : BuildError} (spares : error.isConflict = false) :
    error.ReportsAt project root place := by
  intro isConflict
  rw [spares] at isConflict
  cases isConflict

theorem SparesConflicts.reportsAt {α : Type} {outcome : Except BuildError α}
    (spares : SparesConflicts outcome) : Yields (BuildError.ReportsAt project root place)
      (fun result => outcome = .ok result) outcome :=
  (spares.mono (fun _ => BuildError.reportsAt_of_spares) fun _ _ => trivial).remember

namespace Selection.StandsAt

variable {selection : Selection}

theorem narrowed {child : Place} {narrowing : Narrowing} (lawful : project.schema.IsLawful)
    (reachable : Scope.Reachable project.schema place.scope)
    (narrowed : place.narrowed project.schema narrowing = .ok child)
    (stands : selection.StandsAt project root place) : selection.StandsAt project root child := by
  rcases stands with ⟨around, type, lies, below⟩
  exact ⟨around, type, lies.narrowed lawful reachable narrowed, below⟩

/-- What an inline fragment holds stands wherever the fragment does, and all objects enter it. -/
theorem of_inlineFragment {typeCondition : Option Name} {directives : List Directive}
    {inner : List Selection}
    (stands : (inlineFragment typeCondition directives inner).StandsAt project root place)
    (applies : ∀ assignment way object, place.IsAt project.schema assignment way object →
      Execution.applies project.schema object assignment typeCondition directives = true) :
    ∀ other ∈ inner, other.StandsAt project root place := by
  rcases stands with ⟨around, type, lies, below⟩
  intro other mem
  refine ⟨around, typeCondition.getD type, lies.of_applies applies, fun selected makes => ?_⟩
  exact below selected (Makes.inlineFragment_iff.mpr (makes.mono (by simpa using mem)))

theorem of_mem_root {type : Name} {written : List Selection} {definition : DefinitionId}
    (location : place.entity.location = .root definition)
    (isScope : Scope.forType project.schema type = .ok place.scope) (mem : selection ∈ written) :
    selection.StandsAt project (type, written) place := by
  refine ⟨[], type, ⟨by rw [location]; rfl, ?_⟩, fun selected makes => ?_⟩
  · intro assignment way object isAt
    have keys := isAt.keys
    rw [location] at keys
    rcases List.map_eq_nil_iff.mp keys.symm with rfl
    exact .cons ((Scope.holds_of_forType isScope).symm.trans isAt.scope) .nil
  · exact .here (makes.mono (by simpa using mem))

theorem exists_field {field : FieldSelection} {below : List Selection}
    (stands : (Selection.field field below).StandsAt project root place) :
    ∃ around type, SelectedField.StandsAt project root place around ⟨type, field, below⟩ := by
  rcases stands with ⟨around, type, lies, isBelow⟩
  exact ⟨around, type, lies, isBelow _ (Makes.field_iff.mpr rfl)⟩

end Selection.StandsAt

namespace Gathered

/-- Whether all that was gathered stands at a place: fields and what is selected on them, spreads,
and what is behind branches, within these. -/
structure StandsAt (project : Project) (root : TypedSelections) (place : Place)
    (gathered : Gathered) : Prop where
  fields : ∀ known ∈ gathered.fields, ∃ around selected,
    SelectedField.StandsAt project root place around selected ∧ selected.field = known.field
  below : ∀ known ∈ gathered.fields, ∀ selection ∈ known.selections, ∃ around selected,
    SelectedField.StandsAt project root place around selected
      ∧ selected.field.responseKey = known.responseKey
      ∧ selected.field.type = known.field.type ∧ selection ∈ selected.selections
  branches : ∀ branch ∈ gathered.branches, ∀ child,
    place.narrowed project.schema branch.1 = .ok child →
      ∀ selection ∈ branch.2, selection.StandsAt project root child
  spreads : ∀ name ∈ gathered.spreads, ∃ directives,
    (Selection.fragmentSpread name directives).StandsAt project root place

variable {gathered : Gathered}

theorem standsAt_empty : Gathered.StandsAt project root place .empty := by
  constructor <;> simp [empty]

/-- A selected field joins those that were gathered. -/
theorem StandsAt.addField {next : Gathered} {around : List SelectedField}
    {selected : SelectedField} {conditions : Option Alternatives}
    (stands : gathered.StandsAt project root place)
    (selectedStands : selected.StandsAt project root place around)
    (added : gathered.addField place.scope.type ⟨selected.field, conditions, selected.selections⟩
      = .ok next) : next.StandsAt project root place := by
  rcases exists_fields_of_addField added with ⟨fields, rfl, origins⟩
  refine { stands with fields := ?_, below := ?_ }
  · intro known mem
    rcases origins known mem with isOld | rfl | ⟨old, oldMem, -, -, rfl⟩
    · exact stands.fields known isOld
    · exact ⟨around, selected, selectedStands, rfl⟩
    · exact stands.fields old oldMem
  · intro known mem selection isBelow
    rcases origins known mem with isOld | rfl | ⟨old, oldMem, sameKey, sameType, rfl⟩
    · exact stands.below known isOld selection isBelow
    · exact ⟨around, selected, selectedStands, rfl, rfl, isBelow⟩
    · rcases List.mem_append.mp isBelow with ofOld | ofNew
      · exact stands.below old oldMem selection ofOld
      · exact ⟨around, selected, selectedStands, sameKey.symm, sameType.symm, ofNew⟩

/-- A selected field that cannot join those that were gathered is in conflict with one of them. -/
theorem StandsAt.reportsAt_of_addField {error : BuildError} {around : List SelectedField}
    {selected : SelectedField} {conditions : Option Alternatives}
    (stands : gathered.StandsAt project root place)
    (selectedStands : selected.StandsAt project root place around)
    (refused : gathered.addField place.scope.type
      ⟨selected.field, conditions, selected.selections⟩ = .error error) :
    error.ReportsAt project root place := by
  intro _
  rcases exists_conflict_of_addField refused with ⟨known, mem, sameKey, differ, rfl⟩
  rcases stands.fields known mem with ⟨others, other, otherStands, isField⟩
  have isSummary : other.summary = .ofSelection known.field none := by
    rw [SelectedField.summary, isField]
  refine ⟨others, other, around, selected, ⟨otherStands, selectedStands, ?_, ?_⟩, ?_⟩
  · rw [isField]
    exact sameKey
  · rw [isSummary]
    exact differ
  · rw [isSummary]
    rfl

theorem StandsAt.refuses {limit : Nat} {selection : Selection} {error : BuildError}
    (stands : gathered.StandsAt project root place)
    (selectionStands : selection.StandsAt project root place)
    (refuses : Refuses project.compilation place.scope limit gathered selection error) :
    error.ReportsAt project root place := by
  cases refuses with
  | malformed isTextError =>
      exact BuildError.reportsAt_of_spares (BuildError.isConflict_of_isInputError
        (BuildError.isInputError_of_isTextError isTextError))
  | conflict refused =>
      rcases selectionStands.exists_field with ⟨around, type, selectedStands⟩
      exact stands.reportsAt_of_addField selectedStands refused
  | undefined | exhausted => exact BuildError.reportsAt_of_spares rfl

/-- What stands behind a branch may join whatever is behind an equal one. -/
theorem StandsAt.addBranch {key : Narrowing} {inner : List Selection}
    (stands : gathered.StandsAt project root place)
    (innerStands : ∀ other, (other == key) = true → ∀ child,
      place.narrowed project.schema other = .ok child →
        ∀ selection ∈ inner, selection.StandsAt project root child) :
    (gathered.addBranch key inner).StandsAt project root place := by
  rcases exists_branches_of_addBranch gathered key inner with ⟨branches, result, origins⟩
  rw [result]
  refine { stands with branches := fun branch mem child narrowed selection isBehind => ?_ }
  rcases origins branch mem with isOld | rfl | ⟨known, earlier, oldMem, same, rfl⟩
  · exact stands.branches branch isOld child narrowed selection isBehind
  · exact innerStands key (Narrowing.beq_refl key) child narrowed selection isBehind
  · rcases List.mem_append.mp isBehind with ofOld | ofNew
    · exact stands.branches (known, earlier) oldMem child narrowed selection ofOld
    · exact innerStands known same child narrowed selection ofNew

theorem StandsAt.addSpread {name : Name} {directives : List Directive}
    (stands : gathered.StandsAt project root place)
    (spreadStands : (Selection.fragmentSpread name directives).StandsAt project root place) :
    (gathered.addSpread name).StandsAt project root place := by
  refine { stands with spreads := ?_ }
  intro other mem
  rcases mem_appendNew.mp mem with isOld | rfl
  · exact stands.spreads other isOld
  · exact ⟨directives, spreadStands⟩

section Fragments

variable (lawful : project.schema.IsLawful)
  (reachable : Scope.Reachable project.schema place.scope)

include lawful reachable

/-- An inline fragment that narrows the scope of a place becomes a branch with what it holds. -/
theorem StandsAt.addInlineFragment {typeCondition : Option Name} {directives : List Directive}
    {inner : List Selection} {narrowing key : Narrowing}
    (stands : gathered.StandsAt project root place)
    (fragmentStands : (Selection.inlineFragment typeCondition directives inner).StandsAt project
      root place)
    (applies : ∀ object assignment, narrowing.holds project.schema object assignment
      = Execution.applies project.schema object assignment typeCondition directives)
    (isKey : place.scope.effective? narrowing = some key) :
    (gathered.addBranch key inner).StandsAt project root place := by
  have sound := Scope.isSound_of_reachable lawful reachable
  refine stands.addBranch fun other same child narrowed => ?_
  refine (fragmentStands.narrowed lawful reachable narrowed).of_inlineFragment ?_
  intro assignment way object isAt
  rcases isAt.of_narrowed lawful reachable narrowed with ⟨outer, enters⟩
  rw [← applies, ← sound.holds_effective outer.scope isKey, ← Narrowing.holds_of_beq same]
  exact enters

/-- A selection that stands at a place is taken with what it holds. -/
theorem StandsAt.takes {selection : Selection} {next : Gathered}
    (stands : gathered.StandsAt project root place)
    (selectionStands : selection.StandsAt project root place)
    (takes : Takes project.compilation place.scope gathered selection next) :
    next.StandsAt project root place := by
  cases takes with
  | skippedField | refusedField | leftOut => exact stands
  | field _ _ _ added =>
      rcases selectionStands.exists_field with ⟨around, type, selectedStands⟩
      exact stands.addField selectedStands added
  | branch asks isKey =>
      cases asks with
      | inlineFragment evaluated =>
          exact stands.addInlineFragment lawful reachable selectionStands
            (fun _ _ => holds_ofDirectives evaluated) isKey
  | spreadBranch =>
      refine stands.addBranch fun other _ child narrowed selection mem => ?_
      rw [List.mem_singleton.mp mem]
      exact selectionStands.narrowed lawful reachable narrowed
  | spread => exact stands.addSpread selectionStands

/-- What is gathered at a place stands there, and fields that are in conflict stand there, too. -/
theorem yields_gatherAll {limit remaining : Nat} {selections : List Selection}
    (stands : gathered.StandsAt project root place)
    (allStand : ∀ selection ∈ selections, selection.StandsAt project root place) :
    Yields (BuildError.ReportsAt project root place) (Gathered.StandsAt project root place)
      (gatherAll project.compilation limit place.scope remaining gathered selections) := by
  have sound := Scope.isSound_of_reachable lawful reachable
  refine yields_gatherAll_of_steps (·.StandsAt project root place)
    (fun selectionStands stands => stands.takes lawful reachable selectionStands)
    (fun selectionStands stands => stands.refuses selectionStands) ?_ stands allStand
  intro typeCondition directives inner narrowing selectionStands asks implied
  refine selectionStands.of_inlineFragment fun assignment way object isAt => ?_
  cases asks with
  | inlineFragment evaluated =>
      exact (holds_ofDirectives evaluated).symm.trans (sound.holds_of_implies isAt.scope implied)

end Fragments

/-- What was gathered on a field stands at the place of its objects. -/
theorem StandsAt.below_child {known : GatheredField} {child : Place}
    (stands : gathered.StandsAt project root place) (mem : known ∈ gathered.fields)
    (isChild : place.IsChild project.schema known.field.type.innerName child)
    (location : child.entity.location
      = place.entity.location.child known.responseKey known.field.type.innerName) :
    ∀ selection ∈ known.selections, selection.StandsAt project root child := by
  intro selection isBelow
  rcases stands.below known mem selection isBelow with
    ⟨around, outer, outerStands, sameKey, sameType, isOuter⟩
  refine ⟨around ++ [outer], outer.field.type.innerName, ⟨?_, ?_⟩, fun selected makes => ?_⟩
  · rw [location, Location.responseKeys, Location.child, Location.joined, List.map_append,
      List.map_append, ← outerStands.lies.keys, ← sameKey]
    rfl
  · intro assignment way object isAt
    rcases isAt.of_child isChild.enclosing location with ⟨before, step, rfl, -, outerAt⟩
    have types := outerStands.lies.types assignment before step.object outerAt
    rw [List.map_append, List.map_append]
    refine forall₂_append_singleton_iff.mpr ⟨types, ?_⟩
    rw [sameType, ← Scope.holds_of_forType isChild.scope]
    exact isAt.scope
  · exact .nested outerStands.below (makes.mono (by simpa using isOuter))

end Gathered

end ResponseShape
