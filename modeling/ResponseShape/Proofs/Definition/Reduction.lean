import ResponseShape.Proofs.Definition.Depiction
import ResponseShape.Proofs.Inclusion.Reduction

/-!
# Reduced conditions in selection trees

A field is gathered under what its directives ask beyond the scope around it, and under the union
of these if it is selected several times. So where a tree is written, the conditions of its fields
are reduced by what is known of variables (`Depicts.isReduced`).
-/

namespace ResponseShape

/-- Whether nothing can be left out of a field's conditions where some tests are known to be
passed. -/
def Field.IsReduced (known : Option ConditionGroup) (field : Field) : Prop :=
  ∀ conditions ∈ field.summary.conditions, conditions.IsReduced known

namespace Gathered

variable {compilation : Compilation} {limit remaining : Nat} {scope : Scope}
  {known : Option ConditionGroup} {gathered next : Gathered} {selections : List Selection}

/-- Whether nothing can be left out of the conditions of gathered fields. -/
def AreReduced (known : Option ConditionGroup) (gathered : Gathered) : Prop :=
  ∀ field ∈ gathered.fields, ∀ conditions ∈ field.conditions, conditions.IsReduced known

theorem AreReduced.addField {type : Name} {fresh : GatheredField}
    (reduced : gathered.AreReduced known)
    (isReduced : ∀ conditions ∈ fresh.conditions, conditions.IsReduced known)
    (added : gathered.addField type fresh = .ok next) : next.AreReduced known := by
  rcases exists_fields_of_addField added with ⟨fields, rfl, origins⟩
  intro field mem
  rcases origins field mem with isOld | rfl | ⟨old, oldMem, -, -, rfl⟩
  · exact reduced field isOld
  · exact isReduced
  · exact Alternatives.isReduced_union (reduced old oldMem) isReduced

theorem isReduced_conditionsIn {included : InclusionResult}
    (admitted : ∀ group ∈ included.group?, group.contradicts scope.knownConditions = false) :
    ∀ conditions ∈ conditionsIn scope included, conditions.IsReduced scope.knownConditions := by
  intro conditions isLeft
  rcases Option.map_eq_some_iff.mp isLeft with ⟨remaining, remains, rfl⟩
  rcases Option.bind_eq_some_iff.mp remains with ⟨group, isGroup, ofGroup⟩
  exact Alternatives.isReduced_single
    (ConditionGroup.isFree_of_remainderIn (admitted group isGroup) ofGroup)

theorem areReduced_gatherAll
    (run : Gathered.gatherAll compilation limit scope remaining .empty selections = .ok gathered) :
    gathered.AreReduced scope.knownConditions := by
  refine gatherAll_takes (fun _ gathered => gathered.AreReduced scope.knownConditions) [] ?_ ?_ ?_
    run
  · intro done selection gathered next reduced takes
    cases takes with
    | field _ _ admitted added => exact reduced.addField (isReduced_conditionsIn admitted) added
    | skippedField | refusedField | leftOut | branch | spreadBranch | spread => exact reduced
  · exact fun _ _ _ _ _ _ _ _ reduced => reduced
  · simp [AreReduced, empty]

end Gathered

/-- Nothing can be left out of the conditions of a tree's fields. -/
theorem Depicts.isReduced {project : Project} {levels : Nat} {place : Place}
    {selections : List Selection} {tree : SelectionTree}
    (depicts : Depicts project levels place selections tree) :
    ∀ field ∈ tree.fields, field.IsReduced place.scope.knownConditions := by
  cases levels with
  | zero => cases depicts
  | succ levels =>
      rcases tree with ⟨fields, branches, spreads⟩
      rcases depicts with ⟨gathered, parts⟩
      have reduced := Gathered.areReduced_gatherAll parts.gathers
      intro field mem
      rcases List.mem_map.mp mem with ⟨treeField, treeFieldMem, rfl⟩
      rcases exists_mem_of_forall₂_right parts.fields treeFieldMem with ⟨known, knownMem, ofField⟩
      cases ofField with
      | scalar | entity => exact reduced known knownMem

end ResponseShape
