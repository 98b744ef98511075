import ResponseShape.Proofs.Definition.Taking
import ResponseShape.Proofs.Entity.NamedTypes
import ResponseShape.Proofs.Ordered

/-!
# Types that definitions refer to

A compilation collects the types that its definitions select on or return, one definition after the
other and without following spreads (`Compilation.referencedTypes`). Whichever document it is in, a
fragment that is spread is one of these definitions, so nothing is missed: all that a tree names
which depicts selections of a definition is collected (`Depicts.namedTypes_subset`).
-/

namespace ResponseShape

/-- Whether a compilation collects all types that a selection selects on or returns. -/
def Selection.IsCollected (compilation : Compilation) (selection : Selection) : Prop :=
  ∃ parent, Compilation.typesOfSelection parent selection ⊆ compilation.referencedTypes

/-- Whether a compilation collects a type, and those in the selections made on it. -/
structure Compilation.Collects (compilation : Compilation) (type : Name)
    (selections : List Selection) : Prop where
  type : type ∈ compilation.referencedTypes
  selections : ∀ selection ∈ selections, selection.IsCollected compilation

variable {compilation : Compilation} {selection : Selection} {selections : List Selection}
  {type parent : Name}

namespace Compilation

theorem typesOfSelection_subset (mem : selection ∈ selections) :
    typesOfSelection parent selection ⊆ typesOfSelections parent selections := by
  induction selections with
  | nil => cases mem
  | cons first rest ih =>
      rw [typesOfSelections]
      rcases List.mem_cons.mp mem with rfl | later
      · exact List.subset_append_left _ _
      · exact List.Subset.trans (ih later) (List.subset_append_right _ _)

theorem collects_of_subset
    (all : type :: typesOfSelections type selections ⊆ compilation.referencedTypes) :
    compilation.Collects type selections where
  type := (List.cons_subset.mp all).1
  selections _ mem :=
    ⟨type, List.Subset.trans (typesOfSelection_subset mem) (List.cons_subset.mp all).2⟩

theorem collects_of_operation {document : DocumentFile} {operation : Operation}
    (mem : (document, operation) ∈ compilation.operations) :
    compilation.Collects operation.rootType operation.selections :=
  collects_of_subset fun _ named => mem_distinct.mpr
    (List.mem_append_left _ (List.mem_flatMap.mpr ⟨_, mem, named⟩))

/-- Of several fragments of one name, the one that is spread is the one that is gone through. -/
theorem collects_of_fragment {name : Name} {fragment : Fragment}
    (isFragment : compilation.spreadFragment? name = some fragment) :
    compilation.Collects fragment.typeCondition fragment.selections := by
  rw [← find?_fragments] at isFragment
  rcases List.mem_map.mp (List.mem_of_find?_eq_some isFragment) with ⟨defined, mem, rfl⟩
  exact collects_of_subset fun _ named => mem_distinct.mpr
    (List.mem_append_right _ (List.mem_flatMap.mpr ⟨_, mem, named⟩))

end Compilation

namespace Selection.IsCollected

theorem of_field {field : FieldSelection}
    (collected : IsCollected compilation (.field field selections)) :
    compilation.Collects field.type.innerName selections := by
  rcases collected with ⟨parent, all⟩
  exact Compilation.collects_of_subset (by rwa [Compilation.typesOfSelection] at all)

theorem of_inlineFragment {typeCondition : Option Name} {directives : List Directive}
    (collected : IsCollected compilation (.inlineFragment typeCondition directives selections)) :
    ∃ parent, compilation.Collects (typeCondition.getD parent) selections := by
  rcases collected with ⟨parent, all⟩
  exact ⟨parent, Compilation.collects_of_subset (by rwa [Compilation.typesOfSelection] at all)⟩

theorem of_asks {narrowing : Narrowing} (collected : selection.IsCollected compilation)
    (asks : selection.Asks compilation (some narrowing)) :
    ∀ type ∈ narrowing.typeCondition, type ∈ compilation.referencedTypes := by
  intro type isType
  cases asks with
  | inlineFragment evaluated =>
      rcases collected.of_inlineFragment with ⟨parent, collects⟩
      rw [Narrowing.typeCondition_of_ofDirectives evaluated] at isType
      rw [isType, Option.getD_some] at collects
      exact collects.type
  | fragmentSpread found evaluated =>
      rw [Narrowing.typeCondition_of_ofDirectives evaluated] at isType
      rcases Option.some.inj isType with rfl
      exact (Compilation.collects_of_fragment found).type

end Selection.IsCollected

namespace Gathered

variable {scope : Scope} {limit remaining : Nat} {gathered : Gathered}

/-- The fields that are gathered are among the selections, or in inline fragments among them. -/
theorem exists_field_of_gatherAll {property : Selection → Prop}
    (ofInlineFragment : ∀ typeCondition directives inner,
      property (.inlineFragment typeCondition directives inner) →
        ∀ selection ∈ inner, property selection)
    (all : ∀ selection ∈ selections, property selection)
    (run : gatherAll compilation limit scope remaining .empty selections = .ok gathered) :
    ∀ known ∈ gathered.fields, ∃ below, property (.field known.field below) := by
  refine gatherAll_takes (fun done gathered => (∀ selection ∈ done, property selection) →
    ∀ known ∈ gathered.fields, ∃ below, property (.field known.field below)) [] ?_ ?_
    (fun _ => List.forall_mem_nil _) run all
  · intro done selection gathered next known takes
    rw [List.forall_mem_append, List.forall_mem_singleton]
    rintro ⟨ofDone, hasProperty⟩
    cases takes with
    | skippedField => exact known ofDone
    | refusedField => exact known ofDone
    | leftOut => exact known ofDone
    | branch => exact known ofDone
    | spreadBranch => exact known ofDone
    | spread => exact known ofDone
    | field _ _ _ added =>
        rcases exists_fields_of_addField added with ⟨fields, rfl, origins⟩
        intro field mem
        rcases origins field mem with isOld | rfl | ⟨old, oldMem, -, -, rfl⟩
        · exact known ofDone field isOld
        · exact ⟨_, hasProperty⟩
        · exact known ofDone old oldMem
  · intro done typeCondition directives inner narrowing gathered _ _ known
    rw [List.forall_mem_append, List.forall_mem_singleton]
    rintro ⟨ofDone, hasProperty⟩
    exact known (List.forall_mem_append.mpr ⟨ofDone, ofInlineFragment _ _ _ hasProperty⟩)

/-- What is gathered from collected selections is collected. -/
theorem collects_gatherAll (all : ∀ selection ∈ selections, selection.IsCollected compilation)
    (run : gatherAll compilation limit scope remaining .empty selections = .ok gathered) :
    (∀ known ∈ gathered.fields, compilation.Collects known.field.type.innerName known.selections)
      ∧ ∀ branch ∈ gathered.branches,
        (∀ type ∈ branch.1.typeCondition, type ∈ compilation.referencedTypes)
          ∧ ∀ selection ∈ branch.2, selection.IsCollected compilation := by
  have ofInlineFragment (typeCondition : Option Name) (directives : List Directive)
      (inner : List Selection) (collected : Selection.IsCollected compilation
        (.inlineFragment typeCondition directives inner)) :
      ∀ selection ∈ inner, selection.IsCollected compilation := by
    rcases collected.of_inlineFragment with ⟨parent, collects⟩
    exact collects.selections
  have taken := isTakenFrom_gatherAll
    (fun _ _ collected => (Selection.IsCollected.of_field collected).selections)
    ofInlineFragment all run
  refine ⟨fun known mem => ?_, fun branch mem => ⟨?_, taken.branches branch mem⟩⟩
  · rcases exists_field_of_gatherAll ofInlineFragment all run known mem with ⟨below, collected⟩
    exact ⟨collected.of_field.type, taken.fields known mem⟩
  · rcases taken.keys branch mem with ⟨selection, narrowing, collected, asks, isKey⟩
    intro type isType
    rw [(Scope.effective?_eq_some isKey).1] at isType
    exact collected.of_asks asks type (Option.eq_some_of_filter_eq_some isType)

end Gathered

section Depictions

variable {project : Project} {below : Place → List Selection → SelectionTree → Prop}
  {levels : Nat} {place : Place} {known : GatheredField} {treeField : TreeField}
  {tree : SelectionTree}

theorem DepictsField.type_eq (depicts : DepictsField project below place known treeField) :
    treeField.toField.summary.type = known.field.type := by
  cases depicts <;> rfl

/-- A tree that depicts collected selections, at a place that names what is collected, names nothing
else. -/
theorem Depicts.namedTypes_subset (depicts : Depicts project levels place selections tree)
    (within : place.namedTypes ⊆ project.compilation.referencedTypes)
    (all : ∀ selection ∈ selections, selection.IsCollected project.compilation) :
    tree.namedTypes place ⊆ project.compilation.referencedTypes := by
  have ofMembers := depicts.forall_writtenSets (motive := fun place written _ =>
    place.namedTypes ⊆ project.compilation.referencedTypes
      ∧ ∀ selection ∈ written, selection.IsCollected project.compilation) ?_ ?_ ⟨within, all⟩
  · refine SelectionTree.namedTypes_subset.mpr fun member mem => ?_
    rcases ofMembers member mem with ⟨levels, written, depicts, here, collected⟩
    refine ⟨here, ?_, fun spread spreadMem => ?_⟩
    · rcases member with ⟨place, fields, branches, spreads⟩
      cases levels with
      | zero => cases depicts
      | succ levels =>
          rcases depicts with ⟨gathered, parts⟩
          refine List.forall_mem_map.mpr fun treeField treeFieldMem => ?_
          rcases exists_mem_of_forall₂_right parts.fields treeFieldMem with
            ⟨known, knownMem, ofField⟩
          rw [ofField.type_eq]
          exact ((Gathered.collects_gatherAll collected parts.gathers).1 known knownMem).type
    · rw [(depicts.of_mem_spreads spreadMem).1]
      exact here
  · rintro levels place written gathered fields branches spreads known summary child tree
      ⟨here, collected⟩ parts knownMem _ ofField
    have collects := (Gathered.collects_gatherAll collected parts.gathers).1 known knownMem
    cases ofField with
    | entity _ isChild _ =>
        exact ⟨isChild.namedTypes_subset here collects.type, collects.selections⟩
  · rintro levels place written gathered fields branches spreads behind key child tree
      ⟨here, collected⟩ parts behindMem _ ofBranch
    rcases (Gathered.collects_gatherAll collected parts.gathers).2 behind behindMem with
      ⟨ofKey, ofInner⟩
    cases ofBranch with
    | kept narrowed _ _ =>
        exact ⟨Place.namedTypes_subset_of_narrowed narrowed here ofKey, ofInner⟩

end Depictions

end ResponseShape
