import ResponseShape.Proofs.Definition.Composition
import ResponseShape.Proofs.Definition.Depiction

/-!
# Trees as they are built

Building the selection set at a place gives a tree that depicts the selections made there, in any
workspace and whatever builds the fragments (`Build.ensures_selections`). Besides, whatever is
ensured of the entities that fields get and of the fragments that spreads ask for holds throughout
the tree: the tree is grounded.
-/

namespace ResponseShape

/-- Whether the entities of fields and the fragments of spreads are as required, throughout a
tree. -/
structure SelectionTree.IsGrounded (located : Location → Entity → Prop) (known : Name → Prop)
    (place : Place) (tree : SelectionTree) : Prop where
  located : ∀ member ∈ tree.writtenSets place, ∀ field ∈ member.2.fields,
    ∀ set, field.selectionSet = some set →
      located (member.1.entity.location.child field.responseKey field.summary.type.innerName)
        set.place.entity
  known : ∀ member ∈ tree.writtenSets place, ∀ spread ∈ member.2.spreads, known spread.name

/-- Whether a field of a tree, and what is below it, is grounded. -/
def TreeField.IsGrounded (located : Location → Entity → Prop) (known : Name → Prop)
    (place : Place) : TreeField → Prop
  | .scalar _ => True
  | .entity summary child tree =>
      located (place.entity.location.child summary.responseKey summary.type.innerName) child.entity
        ∧ tree.IsGrounded located known child

/-- Whether what is behind a branch of a tree is grounded. -/
def TreeBranch.IsGrounded (located : Location → Entity → Prop) (known : Name → Prop) :
    TreeBranch → Prop
  | .mk _ child tree => tree.IsGrounded located known child

section Grounded

variable {located : Location → Entity → Prop} {known more : Name → Prop} {place : Place}

theorem SelectionTree.IsGrounded.mono {tree : SelectionTree}
    (grounded : tree.IsGrounded located known place) (grows : ∀ name, known name → more name) :
    tree.IsGrounded located more place where
  located := grounded.located
  known member mem spread spreadMem := grows _ (grounded.known member mem spread spreadMem)

theorem TreeField.IsGrounded.mono {field : TreeField}
    (grounded : field.IsGrounded located known place) (grows : ∀ name, known name → more name) :
    field.IsGrounded located more place := by
  cases field with
  | scalar => trivial
  | entity summary child tree => exact ⟨grounded.1, grounded.2.mono grows⟩

theorem TreeBranch.IsGrounded.mono {branch : TreeBranch}
    (grounded : branch.IsGrounded located known) (grows : ∀ name, known name → more name) :
    branch.IsGrounded located more := by
  rcases branch with ⟨key, child, tree⟩
  exact SelectionTree.IsGrounded.mono grounded grows

theorem SelectionTree.isGrounded_mk {fields : List TreeField} {branches : List TreeBranch}
    {spreads : List Spread} (ofFields : ∀ field ∈ fields, field.IsGrounded located known place)
    (ofBranches : ∀ branch ∈ branches, branch.IsGrounded located known)
    (ofSpreads : ∀ spread ∈ spreads, known spread.name) :
    (SelectionTree.mk fields branches spreads).IsGrounded located known place := by
  constructor
  · intro member mem field fieldMem set isSet
    rcases mem_writtenSets.mp mem with
      rfl | ⟨summary, child, tree, treeMem, below⟩ | ⟨key, child, tree, treeMem, below⟩
    · rcases List.mem_map.mp fieldMem with ⟨treeField, treeFieldMem, rfl⟩
      cases treeField with
      | scalar => cases isSet
      | entity summary child tree =>
          rcases Option.some.inj isSet with rfl
          exact (ofFields _ treeFieldMem).1
    · exact (ofFields _ treeMem).2.located member below field fieldMem set isSet
    · exact (ofBranches _ treeMem).located member below field fieldMem set isSet
  · intro member mem spread spreadMem
    rcases mem_writtenSets.mp mem with
      rfl | ⟨summary, child, tree, treeMem, below⟩ | ⟨key, child, tree, treeMem, below⟩
    · exact ofSpreads spread spreadMem
    · exact (ofFields _ treeMem).2.known member below spread spreadMem
    · exact (ofBranches _ treeMem).known member below spread spreadMem

end Grounded

namespace Build

variable {project : Project} {law : Law} {located : Location → Entity → Prop}
  {known : Name → Workspace → Prop} {fragment : Name → Build FragmentShape} {nested : Nested}
  {below : Place → List Selection → SelectionTree → Prop} {path : List Name} {place : Place}

theorem ensures_field {gathered : GatheredField}
    (ofEntity : ∀ location typePath, Ensures law (fun _ => True) (entityAt location typePath)
      fun entity _ => located location entity)
    (ofNested : ∀ path place selections, Ensures law (fun _ => True) (nested path place selections)
      fun built workspace => below place selections built.value
        ∧ built.value.IsGrounded located (known · workspace) place) :
    Ensures law (fun _ => True) (field project nested path place gathered)
      fun built workspace => DepictsField project below place gathered built.value
        ∧ built.value.IsGrounded located (known · workspace) place := by
  simp only [field]
  apply Ensures.bind (.ofExcept _)
  intro isComposite
  apply Ensures.given
  intro composite
  split
  next isTrue =>
    rw [isTrue] at composite
    apply Ensures.bind (ofEntity _ _)
    intro entity
    apply Ensures.given
    intro isLocated
    apply Ensures.bind (.ofExcept _)
    intro child
    apply Ensures.given
    intro isBelow
    apply Ensures.bind (ofNested _ child gathered.selections)
    intro built
    apply Ensures.pure
    rintro workspace ⟨depicts, grounded⟩
    simp only [Place.below, Except.map] at isBelow
    split at isBelow
    next => cases isBelow
    next scope isRoot =>
      rcases Except.ok.inj isBelow with rfl
      exact ⟨.entity composite ⟨rfl, isRoot⟩ depicts, isLocated, grounded⟩
  next isFalse =>
    apply Ensures.pure
    intro workspace _
    rw [Bool.not_eq_true] at isFalse
    rw [isFalse] at composite
    exact ⟨.scalar composite, trivial⟩

theorem ensures_branch {gathered : Narrowing × List Selection}
    (ofNested : ∀ path place selections, Ensures law (fun _ => True) (nested path place selections)
      fun built workspace => below place selections built.value
        ∧ built.value.IsGrounded located (known · workspace) place) :
    Ensures law (fun _ => True) (branch project nested path place gathered)
      fun outcome workspace => DepictsBranch project below place gathered (outcome.map (·.value))
        ∧ ∀ built ∈ outcome, built.value.IsGrounded located (known · workspace) := by
  rcases gathered with ⟨key, selections⟩
  simp only [branch]
  apply Ensures.bind (.ofExcept _)
  intro child
  apply Ensures.given
  intro narrowed
  apply Ensures.bind (ofNested path child selections)
  intro built
  split
  next empty =>
    apply Ensures.pure
    rintro workspace ⟨depicts, -⟩
    exact ⟨.dropped narrowed depicts empty, by simp⟩
  next nonempty =>
    apply Ensures.pure
    rintro workspace ⟨depicts, grounded⟩
    refine ⟨.kept narrowed depicts (by simpa using nonempty), ?_⟩
    intro other same
    rcases Option.some.inj same with rfl
    exact grounded

theorem ensures_spread {name : Name}
    (ofFragment : Ensures law (fun _ => True) (fragment name) fun _ workspace =>
      known name workspace) :
    Ensures law (fun _ => True) (spread fragment path place name)
      fun built workspace => built.value = place.spread name ∧ known name workspace := by
  simp only [spread]
  apply Ensures.bind ofFragment
  intro shape
  apply Ensures.pure
  exact fun workspace isKnown => ⟨rfl, isKnown⟩

theorem Built.map_value_filterMap {α : Type} (outcomes : List (Option (Built α))) :
    (outcomes.filterMap id).map (·.value)
      = (outcomes.map fun outcome => outcome.map (·.value)).filterMap id := by
  simp [List.map_filterMap, List.filterMap_map]

/-- A tree that is built at a place depicts the selections made there, and is grounded in what is
ensured of entities and fragments. -/
theorem ensures_selections
    (stable : ∀ name first second, law.grows first second → known name first → known name second)
    (ofEntity : ∀ location typePath, Ensures law (fun _ => True) (entityAt location typePath)
      fun entity _ => located location entity)
    (ofFragment : ∀ name, Ensures law (fun _ => True) (fragment name) fun _ workspace =>
      known name workspace)
    (levels : Nat) (path : List Name) (place : Place) (written : List Selection) :
    Ensures law (fun _ => True) (selections project fragment levels path place written)
      fun built workspace => Depicts project levels place written built.value
        ∧ built.value.IsGrounded located (known · workspace) place := by
  induction levels generalizing path place written with
  | zero => exact .throw _
  | succ levels ih =>
      have grows {first second : Workspace} (growth : law.grows first second) (name : Name) :
          known name first → known name second := stable name first second growth
      refine ensures_selections_of_parts (fun _ => ensures_field ofEntity ih)
        (fun _ => ensures_branch ih) (fun name => ensures_spread (ofFragment name)) ?_ ?_ ?_ ?_
      · rintro member built first second growth ⟨depicts, grounded⟩
        exact ⟨depicts, grounded.mono (grows growth)⟩
      · rintro member outcome first second growth ⟨depicts, grounded⟩
        exact ⟨depicts, fun built isBuilt => (grounded built isBuilt).mono (grows growth)⟩
      · rintro name built first second growth ⟨same, isKnown⟩
        exact ⟨same, grows growth name isKnown⟩
      · intro gathered fields branches spreads workspace gathers ofFields ofBranches ofSpreads
        constructor
        · refine ⟨gathered, gathers, ?_,
            ⟨branches.map fun outcome => outcome.map (·.value), ?_, ?_⟩, ?_⟩
          · exact List.forall₂_map_right_iff.mpr (ofFields.imp fun _ _ same => same.1)
          · exact List.forall₂_map_right_iff.mpr (ofBranches.imp fun _ _ same => same.1)
          · exact Built.map_value_filterMap branches
          · have pairs : List.Forall₂ (· = ·) (spreads.map (·.value))
                (gathered.spreads.map place.spread) := by
              apply List.Forall₂.flip
              apply List.forall₂_map_left_iff.mpr
              apply List.forall₂_map_right_iff.mpr
              exact ofSpreads.imp fun _ _ same => same.1
            rwa [List.forall₂_eq_eq_eq] at pairs
        · apply SelectionTree.isGrounded_mk
          · intro field mem
            rcases List.mem_map.mp mem with ⟨built, builtMem, rfl⟩
            rcases exists_mem_of_forall₂_right ofFields builtMem with ⟨_, -, -, grounded⟩
            exact grounded
          · intro branch mem
            rcases List.mem_map.mp mem with ⟨built, builtMem, rfl⟩
            rcases List.mem_filterMap.mp builtMem with ⟨outcome, outcomeMem, isBuilt⟩
            rcases exists_mem_of_forall₂_right ofBranches outcomeMem with ⟨_, -, -, grounded⟩
            exact grounded built isBuilt
          · intro spread mem
            rcases List.mem_map.mp mem with ⟨built, builtMem, rfl⟩
            rcases exists_mem_of_forall₂_right ofSpreads builtMem with ⟨name, -, same, isKnown⟩
            rw [same]
            exact isKnown

end Build

end ResponseShape
