import ResponseShape.Proofs.Entity.NamedTypes
import ResponseShape.Proofs.Merging.Steps

/-!
# Types named in what is visible

Merging names no type of its own. Fields that it adds have the types of the fields they come from,
and stand below the set's place; branches narrow this place by a part of what is on the path of some
occurrence. So all types named in what is visible are named in the set, or in what is registered for
its entity (`VisibleSelections.namedTypes_subset_of_visible`).
-/

namespace ResponseShape

section Fields

variable {target : MergeTarget} {merged : List Field} {direct field source : Field}
  {types : List Name}

theorem MergeTarget.IsWidened.namedTypes_eq (isWidened : target.IsWidened merged direct field) :
    field.namedTypes = direct.namedTypes := by
  rw [isWidened.isUnder]
  rfl

/-- A field that is added names its type, and the place below the target. -/
theorem MergeTarget.Adopts.namedTypes_subset (adopts : target.Adopts source field)
    (within : target.place.namedTypes ⊆ types) (ofSource : source.namedTypes ⊆ types) :
    field.namedTypes ⊆ types := by
  have ofType := (List.cons_subset.mp ofSource).1
  rw [Field.namedTypes, adopts.summary]
  refine List.cons_subset.mpr ⟨ofType, ?_⟩
  rcases adopts.selectionSet with ⟨-, isLeaf⟩ | ⟨_, _, place, -, -, isBelow, isInner⟩
  · rw [isLeaf]
    exact List.nil_subset _
  · rw [isInner]
    exact (Place.isChild_of_below isBelow).namedTypes_subset within ofType

end Fields

section Runs

variable {schema : Schema} {entities : EntityTable} {set : SelectionSet}
  {strategy : MergingStrategy} {visible : VisibleSelections} {types : List Name}

/-- What is named in a set bounds what is named where it is written. -/
theorem SelectionSet.namedTypes_subset_of_direct (within : set.namedTypes ⊆ types) :
    (∀ field ∈ set.directFields, field.namedTypes ⊆ types)
      ∧ (∀ branch ∈ set.directBranches, branch.selectionSet.namedTypes ⊆ types)
      ∧ ∀ spread ∈ set.directSpreads, spread.place.namedTypes ⊆ types := by
  simp only [directFields, directBranches, directSpreads]
  cases isDirect : set.direct with
  | none => simp
  | some tree =>
      simp only [namedTypes, isDirect] at within
      exact SelectionTree.namedTypes_subset_of_parts within

/-- A branch that is added asks for no type but one that the place of some occurrence names. -/
theorem VisibleSelections.exists_occurrence_of_branch {branch : Branch}
    (run : set.visible schema entities strategy = .ok visible)
    (mem : branch ∈ visible.additions.branches) :
    ∃ occurrence ∈ entities.occurrences set.place.entity.location,
      ∀ type ∈ branch.key.typeCondition, type ∈ occurrence.place.namedTypes := by
  rcases exists_towards run mem with ⟨occurrence, isSeen, towards⟩
  rcases Scope.exists_mem_path_of_branchTowards? towards with ⟨narrowing, onPath, -, isKey⟩
  refine ⟨occurrence, (SelectionSet.mem_seen.mp isSeen).1, fun type isType => ?_⟩
  rw [isKey] at isType
  have onScope : type ∈ occurrence.place.scope.namedTypes :=
    List.mem_cons_of_mem _ (Scope.mem_typeConditions.mpr
      ⟨narrowing, onPath, Option.eq_some_of_filter_eq_some isType⟩)
  exact List.mem_flatMap.mpr ⟨_, occurrence.place.scope_mem_scopes, onScope⟩

/-- All types named in what is visible are named in the set, or in what is registered for its
entity. -/
theorem VisibleSelections.namedTypes_subset_of_visible (orderly : set.IsOrderly)
    (run : set.visible schema entities strategy = .ok visible)
    (ofSet : set.namedTypes ⊆ types)
    (registered : ∀ occurrence ∈ entities.occurrences set.place.entity.location,
      occurrence.namedTypes ⊆ types) : visible.namedTypes ⊆ types := by
  rcases SelectionSet.hasMerged_of_visible run with ⟨isPlace, isDirect, merged⟩
  rcases SelectionSet.namedTypes_subset_of_direct ofSet with ⟨ofFields, ofBranches, ofSpreads⟩
  have here := SelectionSet.place_namedTypes_subset ofSet
  refine namedTypes_subset.mpr ⟨?_, fun field mem => ?_, ?_, ?_, ?_⟩
  · rwa [isPlace, isDirect]
  · rcases mem_fields orderly run mem with ⟨direct, directMem, isWidened⟩ | ⟨-, isMerged⟩
    · rw [isWidened.namedTypes_eq]
      exact ofFields direct directMem
    · rcases isMerged.adopted with ⟨source, sourceMem, adopts⟩
      rcases List.mem_flatMap.mp sourceMem with ⟨tree, treeMem, sourceMem⟩
      rcases List.mem_map.mp treeMem with ⟨occurrence, isSource, rfl⟩
      have isRegistered := (SelectionSet.mem_seen.mp (List.mem_filter.mp isSource).1).1
      have parts := SelectionTree.namedTypes_subset_of_parts (registered occurrence isRegistered)
      exact adopts.namedTypes_subset here (parts.1 source sourceMem)
  · rw [branches, isDirect]
    refine List.forall_mem_append.mpr ⟨ofBranches, fun branch mem => ?_⟩
    rcases merged.branches.places branch mem with ⟨isMerged, narrowed⟩
    rcases exists_occurrence_of_branch run mem with ⟨occurrence, isRegistered, ofKey⟩
    have ofOccurrence := SelectionTree.place_namedTypes_subset (registered occurrence isRegistered)
    rw [SelectionSet.namedTypes, isMerged]
    exact Place.namedTypes_subset_of_narrowed narrowed here
      fun type isType => ofOccurrence (ofKey type isType)
  · rw [spreads, isDirect]
    refine List.forall_mem_append.mpr
      ⟨ofSpreads, forall_added_spreads (·.namedTypes ⊆ types) run ?_⟩
    intro occurrence isRegistered
    exact (SelectionTree.namedTypes_subset_of_parts (registered occurrence isRegistered)).2.2
  · refine forall_contributors (·.namedTypes ⊆ types) run fun occurrence isRegistered => ?_
    exact SelectionTree.place_namedTypes_subset (registered occurrence isRegistered)

end Runs

end ResponseShape
