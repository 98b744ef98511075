import ResponseShape.Definition.Placement
import ResponseShape.Proofs.Definition.Gathering

/-!
# Depictions

What the tree of a selection set has to do with the selections it is built from, level by level:
fields, branches and spreads are those gathered at the place, and each nested tree depicts what was
gathered for it. Branches whose trees are empty are left out.

`Depicts.forall_writtenSets` carries a property from a place to all that is written below it.
-/

namespace ResponseShape

variable {project : Project}

theorem Place.narrowed_eq_ok {schema : Schema} {place child : Place} {narrowing : Narrowing}
    (narrowed : place.narrowed schema narrowing = .ok child) :
    place.scope.narrow schema narrowing = .ok child.scope ∧ child.entity = place.entity
      ∧ child.enclosing = place.enclosing := by
  simp only [Place.narrowed] at narrowed
  cases inner : place.scope.narrow schema narrowing with
  | error error => simp [inner, Except.map] at narrowed
  | ok scope =>
      simp only [inner, Except.map, Except.ok.injEq] at narrowed
      subst narrowed
      exact ⟨rfl, rfl, rfl⟩

theorem Place.scope_of_narrowed {schema : Schema} {place child : Place} {narrowing : Narrowing}
    (lawful : schema.IsLawful) (reachable : Scope.Reachable schema place.scope)
    (narrowed : place.narrowed schema narrowing = .ok child) :
    Scope.Reachable schema child.scope ∧ ∀ object assignment,
      child.scope.holds schema object assignment = true ↔
        place.scope.holds schema object assignment = true
          ∧ narrowing.holds schema object assignment = true := by
  have inner := (Place.narrowed_eq_ok narrowed).1
  refine ⟨.narrow reachable inner, fun object assignment => ?_⟩
  rw [(Scope.isSound_of_reachable lawful reachable).holds_narrow inner, Bool.and_eq_true]

/-- Whether a place is one that selections on a field's objects are made at. -/
structure Place.IsChild (schema : Schema) (place : Place) (type : Name) (child : Place) : Prop where
  enclosing : child.enclosing = place.scopes
  scope : Scope.forType schema type = .ok child.scope

/-- The spread of a fragment at a place. -/
def Place.spread (place : Place) (name : Name) : Spread :=
  ⟨name, place, place.scope.knownConditions.map Alternatives.single⟩

/-- How a field of a tree depicts a gathered one, where `below` depicts the selections on it. -/
inductive DepictsField (project : Project) (below : Place → List Selection → SelectionTree → Prop)
    (place : Place) (gathered : GatheredField) : TreeField → Prop where
  | scalar (isLeaf : project.schema.isComposite gathered.field.type.innerName = .ok false) :
      DepictsField project below place gathered
        (.scalar (.ofSelection gathered.field gathered.conditions))
  | entity {child : Place} {tree : SelectionTree}
      (isComposite : project.schema.isComposite gathered.field.type.innerName = .ok true)
      (isChild : place.IsChild project.schema gathered.field.type.innerName child)
      (depicts : below child gathered.selections tree) :
      DepictsField project below place gathered
        (.entity (.ofSelection gathered.field gathered.conditions) child tree)

/-- What becomes of a gathered branch, `below` being what depicts the selections behind it. -/
inductive DepictsBranch (project : Project) (below : Place → List Selection → SelectionTree → Prop)
    (place : Place) (gathered : Narrowing × List Selection) : Option TreeBranch → Prop where
  | kept {child : Place} {tree : SelectionTree}
      (narrowed : place.narrowed project.schema gathered.1 = .ok child)
      (depicts : below child gathered.2 tree) (nonempty : tree.isEmpty = false) :
      DepictsBranch project below place gathered (some (.mk gathered.1 child tree))
  | dropped {child : Place} {tree : SelectionTree}
      (narrowed : place.narrowed project.schema gathered.1 = .ok child)
      (depicts : below child gathered.2 tree) (empty : tree.isEmpty = true) :
      DepictsBranch project below place gathered none

/-- How the parts of a tree depict the selections made at a place. -/
structure DepictsParts (project : Project) (below : Place → List Selection → SelectionTree → Prop)
    (levels : Nat) (place : Place) (selections : List Selection) (gathered : Gathered)
    (fields : List TreeField) (branches : List TreeBranch) (spreads : List Spread) : Prop where
  gathers : Gathered.gatherAll project.compilation project.config.recursionLimit place.scope levels
    .empty selections = .ok gathered
  fields : List.Forall₂ (DepictsField project below place) gathered.fields fields
  branches : ∃ outcomes, List.Forall₂ (DepictsBranch project below place) gathered.branches outcomes
    ∧ branches = outcomes.filterMap id
  spreads : spreads = gathered.spreads.map place.spread

/-- Whether a tree depicts the selections made at a place, nested in at most so many levels. -/
def Depicts (project : Project) : Nat → Place → List Selection → SelectionTree → Prop
  | 0, _, _, _ => False
  | levels + 1, place, selections, .mk fields branches spreads =>
      ∃ gathered, DepictsParts project (Depicts project levels) levels place selections gathered
        fields branches spreads

namespace DepictsParts

variable {below : Place → List Selection → SelectionTree → Prop} {levels : Nat} {place : Place}
  {selections : List Selection} {gathered : Gathered} {fields : List TreeField}
  {branches : List TreeBranch} {spreads : List Spread}

theorem exists_branch
    (parts : DepictsParts project below levels place selections gathered fields branches spreads)
    {branch : Narrowing × List Selection} (mem : branch ∈ gathered.branches) :
    ∃ outcome, DepictsBranch project below place branch outcome
      ∧ ∀ kept, outcome = some kept → kept ∈ branches := by
  rcases parts.branches with ⟨outcomes, pairs, rfl⟩
  rcases exists_mem_of_forall₂ pairs mem with ⟨outcome, outcomeMem, depicts⟩
  refine ⟨outcome, depicts, ?_⟩
  rintro kept rfl
  exact List.mem_filterMap.mpr ⟨_, outcomeMem, rfl⟩

theorem exists_gathered_branch
    (parts : DepictsParts project below levels place selections gathered fields branches spreads)
    {kept : TreeBranch} (mem : kept ∈ branches) :
    ∃ branch ∈ gathered.branches, DepictsBranch project below place branch (some kept) := by
  rcases parts.branches with ⟨outcomes, pairs, rfl⟩
  rcases List.mem_filterMap.mp mem with ⟨outcome, outcomeMem, isKept⟩
  rcases exists_mem_of_forall₂_right pairs outcomeMem with ⟨branch, branchMem, depicts⟩
  rw [show outcome = some kept from isKept] at depicts
  exact ⟨branch, branchMem, depicts⟩

theorem responseKeys
    (parts : DepictsParts project below levels place selections gathered fields branches spreads) :
    fields.map (·.toField.responseKey) = gathered.fields.map (·.responseKey) := by
  have pairs := parts.fields
  clear parts
  generalize gathered.fields = known at pairs ⊢
  induction pairs with
  | nil => rfl
  | cons depicts _ ih =>
      simp only [List.map_cons, ih, List.cons.injEq, and_true]
      cases depicts <;> rfl

theorem sublist_keys
    (parts : DepictsParts project below levels place selections gathered fields branches spreads) :
    (branches.map (·.toBranch.key)).Sublist (gathered.branches.map (·.1)) := by
  rcases parts.branches with ⟨outcomes, pairs, rfl⟩
  clear parts
  generalize gathered.branches = known at pairs ⊢
  induction pairs with
  | nil => exact .slnil
  | cons depicts _ ih =>
      cases depicts with
      | kept => simpa [TreeBranch.toBranch] using ih
      | dropped => simpa using ih.cons _

end DepictsParts

/-- Whether a tree has one field for each response key, one branch for each narrowing and one spread
for each fragment. -/
structure SelectionTree.IsOrderly (tree : SelectionTree) : Prop where
  fields : (tree.fields.map (·.responseKey)).Nodup
  branches : (tree.branches.map (·.key)).Pairwise fun key later => (key == later) = false
  spreads : (tree.spreads.map (·.name)).Nodup

namespace Depicts

variable {levels : Nat} {place : Place} {selections : List Selection} {tree : SelectionTree}

theorem isOrderly (depicts : Depicts project levels place selections tree) : tree.IsOrderly := by
  cases levels with
  | zero => cases depicts
  | succ levels =>
      rcases tree with ⟨fields, branches, spreads⟩
      rcases depicts with ⟨gathered, parts⟩
      have orderly := Gathered.isOrderly_gatherAll parts.gathers
      constructor
      · simpa [SelectionTree.fields, Function.comp_def, parts.responseKeys] using orderly.fields
      · have keys := parts.sublist_keys
        have pairwise : (gathered.branches.map (·.1)).Pairwise
            fun key later => (key == later) = false := List.pairwise_map.mpr orderly.branches
        simpa [SelectionTree.branches, Function.comp_def] using pairwise.sublist keys
      · have names : spreads.map (·.name) = gathered.spreads := by
          simp [parts.spreads, Place.spread, Function.comp_def]
        simpa [SelectionTree.spreads, names] using orderly.spreads

/-- Fragments spread in a tree are defined, and spread at the place of the tree. -/
theorem of_mem_spreads (depicts : Depicts project levels place selections tree) {spread : Spread}
    (mem : spread ∈ tree.spreads) : spread = place.spread spread.name
      ∧ ∃ fragment, project.compilation.spreadFragment? spread.name = some fragment := by
  cases levels with
  | zero => cases depicts
  | succ levels =>
      rcases tree with ⟨fields, branches, spreads⟩
      rcases depicts with ⟨gathered, parts⟩
      have orderly := Gathered.isOrderly_gatherAll parts.gathers
      rw [SelectionTree.spreads, parts.spreads] at mem
      rcases List.mem_map.mp mem with ⟨name, nameMem, rfl⟩
      exact ⟨rfl, orderly.known name nameMem⟩

end Depicts

namespace SelectionTree

variable {place : Place} {member : Place × SelectionTree}

theorem mem_writtenSetsOfFields {fields : List TreeField} :
    member ∈ writtenSetsOfFields fields ↔ ∃ summary child tree,
      .entity summary child tree ∈ fields ∧ member ∈ writtenSets child tree := by
  induction fields with
  | nil => simp [writtenSetsOfFields]
  | cons field rest ih =>
      cases field with
      | scalar summary => simp [writtenSetsOfFields, ih]
      | entity summary child tree =>
          simp only [writtenSetsOfFields, List.mem_append, ih, List.mem_cons,
            TreeField.entity.injEq]
          constructor
          · rintro (here | ⟨_, _, _, mem, below⟩)
            · exact ⟨summary, child, tree, Or.inl ⟨rfl, rfl, rfl⟩, here⟩
            · exact ⟨_, _, _, Or.inr mem, below⟩
          · rintro ⟨_, _, _, ⟨rfl, rfl, rfl⟩ | mem, below⟩
            · exact Or.inl below
            · exact Or.inr ⟨_, _, _, mem, below⟩

theorem mem_writtenSetsOfBranches {branches : List TreeBranch} :
    member ∈ writtenSetsOfBranches branches ↔ ∃ key child tree,
      .mk key child tree ∈ branches ∧ member ∈ writtenSets child tree := by
  induction branches with
  | nil => simp [writtenSetsOfBranches]
  | cons branch rest ih =>
      rcases branch with ⟨key, child, tree⟩
      simp only [writtenSetsOfBranches, List.mem_append, ih, List.mem_cons, TreeBranch.mk.injEq]
      constructor
      · rintro (here | ⟨_, _, _, mem, below⟩)
        · exact ⟨key, child, tree, Or.inl ⟨rfl, rfl, rfl⟩, here⟩
        · exact ⟨_, _, _, Or.inr mem, below⟩
      · rintro ⟨_, _, _, ⟨rfl, rfl, rfl⟩ | mem, below⟩
        · exact Or.inl below
        · exact Or.inr ⟨_, _, _, mem, below⟩

/-- What is written at or below a place stands there, below a field or behind a branch. -/
theorem mem_writtenSets {fields : List TreeField} {branches : List TreeBranch}
    {spreads : List Spread} :
    member ∈ writtenSets place (.mk fields branches spreads) ↔
      member = (place, .mk fields branches spreads)
        ∨ (∃ summary child tree, .entity summary child tree ∈ fields
          ∧ member ∈ writtenSets child tree)
        ∨ ∃ key child tree, .mk key child tree ∈ branches ∧ member ∈ writtenSets child tree := by
  rw [writtenSets, List.mem_cons, List.mem_append, mem_writtenSetsOfFields,
    mem_writtenSetsOfBranches]

theorem self_mem_writtenSets (place : Place) (tree : SelectionTree) :
    (place, tree) ∈ writtenSets place tree := by
  rcases tree with ⟨fields, branches, spreads⟩
  exact mem_writtenSets.mpr (Or.inl rfl)

end SelectionTree

/-- What holds at a place, and goes over from a place to those of its fields and branches, holds for
all that is written. -/
theorem Depicts.forall_writtenSets {motive : Place → List Selection → SelectionTree → Prop}
    {levels : Nat} {place : Place} {selections : List Selection} {tree : SelectionTree}
    (field : ∀ {levels place selections gathered fields branches spreads known summary child tree},
      motive place selections (.mk fields branches spreads) →
      DepictsParts project (Depicts project levels) levels place selections gathered fields branches
        spreads → known ∈ gathered.fields → .entity summary child tree ∈ fields →
      DepictsField project (Depicts project levels) place known (.entity summary child tree) →
      motive child known.selections tree)
    (branch : ∀ {levels place selections gathered fields branches spreads behind key child tree},
      motive place selections (.mk fields branches spreads) →
      DepictsParts project (Depicts project levels) levels place selections gathered fields branches
        spreads → behind ∈ gathered.branches → .mk key child tree ∈ branches →
      DepictsBranch project (Depicts project levels) place behind (some (.mk key child tree)) →
      motive child behind.2 tree)
    (depicts : Depicts project levels place selections tree)
    (start : motive place selections tree) :
    ∀ member ∈ tree.writtenSets place, ∃ levels selections,
      Depicts project levels member.1 selections member.2
        ∧ motive member.1 selections member.2 := by
  induction levels generalizing place selections tree with
  | zero => cases depicts
  | succ levels ih =>
      rcases tree with ⟨fields, branches, spreads⟩
      intro member mem
      have here := depicts
      rcases depicts with ⟨gathered, parts⟩
      rcases SelectionTree.mem_writtenSets.mp mem with
        rfl | ⟨summary, child, tree, fieldMem, below⟩ | ⟨key, child, tree, branchMem, below⟩
      · exact ⟨levels + 1, selections, here, start⟩
      · rcases exists_mem_of_forall₂_right parts.fields fieldMem with ⟨known, knownMem, ofField⟩
        have next := field start parts knownMem fieldMem ofField
        cases ofField with
        | entity _ _ depicts => exact ih depicts next member below
      · rcases parts.exists_gathered_branch branchMem with ⟨behind, behindMem, ofBranch⟩
        have next := branch start parts behindMem branchMem ofBranch
        cases ofBranch with
        | kept _ depicts _ => exact ih depicts next member below

/-- What is written below something that is written in a tree is written in the tree. -/
theorem Depicts.subset_writtenSets {levels : Nat} {place : Place} {selections : List Selection}
    {tree : SelectionTree} (depicts : Depicts project levels place selections tree)
    {member : Place × SelectionTree} (mem : member ∈ tree.writtenSets place) :
    ∀ below ∈ member.2.writtenSets member.1, below ∈ tree.writtenSets place := by
  have all := depicts.forall_writtenSets (motive := fun inner _ innerTree =>
    ∀ below ∈ innerTree.writtenSets inner, below ∈ tree.writtenSets place) ?_ ?_ fun _ mem => mem
  · rcases all member mem with ⟨_, _, -, subset⟩
    exact subset
  · intro levels inner written gathered fields branches spreads known summary child childTree
      subset _ _ fieldMem _ below belowMem
    exact subset below
      (SelectionTree.mem_writtenSets.mpr (Or.inr (Or.inl ⟨_, _, _, fieldMem, belowMem⟩)))
  · intro levels inner written gathered fields branches spreads behind key child childTree
      subset _ _ branchMem _ below belowMem
    exact subset below
      (SelectionTree.mem_writtenSets.mpr (Or.inr (Or.inr ⟨_, _, _, branchMem, belowMem⟩)))

namespace Depicts

variable {levels : Nat} {place : Place} {selections : List Selection} {tree : SelectionTree}

/-- What is selected on the objects of a field of a tree is written in the tree. -/
theorem of_field {field : Field} {inner : SelectionSet}
    (depicts : Depicts project levels place selections tree) (mem : field ∈ tree.fields)
    (isInner : field.selectionSet = some inner) :
    place.IsChild project.schema field.summary.type.innerName inner.place
      ∧ ∃ below, inner.direct = some below ∧ (inner.place, below) ∈ tree.writtenSets place
        ∧ ∃ levels selections, Depicts project levels inner.place selections below := by
  cases levels with
  | zero => cases depicts
  | succ levels =>
      rcases tree with ⟨fields, branches, spreads⟩
      rcases depicts with ⟨gathered, parts⟩
      rcases List.mem_map.mp mem with ⟨treeField, treeFieldMem, rfl⟩
      rcases exists_mem_of_forall₂_right parts.fields treeFieldMem with ⟨known, -, ofField⟩
      cases ofField with
      | scalar => cases isInner
      | entity _ isChild depicts =>
          rcases Option.some.inj isInner with rfl
          refine ⟨isChild, _, rfl, ?_, _, _, depicts⟩
          exact SelectionTree.mem_writtenSets.mpr
            (Or.inr (Or.inl ⟨_, _, _, treeFieldMem, SelectionTree.self_mem_writtenSets _ _⟩))

/-- What is selected behind a branch of a tree is written in the tree. -/
theorem of_branch {branch : Branch} (depicts : Depicts project levels place selections tree)
    (mem : branch ∈ tree.branches) :
    place.narrowed project.schema branch.key = .ok branch.selectionSet.place
      ∧ ∃ below, branch.selectionSet.direct = some below
        ∧ (branch.selectionSet.place, below) ∈ tree.writtenSets place
        ∧ ∃ levels selections,
          Depicts project levels branch.selectionSet.place selections below := by
  cases levels with
  | zero => cases depicts
  | succ levels =>
      rcases tree with ⟨fields, branches, spreads⟩
      rcases depicts with ⟨gathered, parts⟩
      rcases List.mem_map.mp mem with ⟨kept, keptMem, rfl⟩
      rcases parts.exists_gathered_branch keptMem with ⟨behind, -, ofBranch⟩
      cases ofBranch with
      | kept narrowed depicts _ =>
          refine ⟨narrowed, _, rfl, ?_, _, _, depicts⟩
          exact SelectionTree.mem_writtenSets.mpr
            (Or.inr (Or.inr ⟨_, _, _, keptMem, SelectionTree.self_mem_writtenSets _ _⟩))

end Depicts

end ResponseShape
