import Mathlib.Data.List.Pairwise
import ResponseShape.Proofs.Definition.Depiction
import ResponseShape.Proofs.Scope.Equality

/-!
# Places tell written sets apart

No two sets of a tree are written at equal places: what is below different fields has different
locations, and what is behind different branches has different scopes
(`Depicts.pairwise_writtenSets`).
-/

namespace ResponseShape

variable {project : Project}

/-- Whether the entities in a tree are where its fields lead. -/
def SelectionTree.IsLocated (place : Place) (tree : SelectionTree) : Prop :=
  ∀ member ∈ tree.writtenSets place, ∀ field ∈ member.2.fields,
    ∀ set, field.selectionSet = some set → set.place.entity.location
      = member.1.entity.location.child field.responseKey field.summary.type.innerName

section Located

variable {place child : Place} {fields : List TreeField} {branches : List TreeBranch}
  {spreads : List Spread} {tree : SelectionTree} {summary : FieldSummary} {key : Narrowing}

theorem SelectionTree.IsLocated.of_field (located : (mk fields branches spreads).IsLocated place)
    (mem : .entity summary child tree ∈ fields) :
    child.entity.location
        = place.entity.location.child summary.responseKey summary.type.innerName
      ∧ tree.IsLocated child := by
  constructor
  · exact located _ (self_mem_writtenSets _ _) _ (List.mem_map_of_mem mem) _ rfl
  · intro member memberMem
    exact located member (mem_writtenSets.mpr (Or.inr (Or.inl ⟨_, _, _, mem, memberMem⟩)))

theorem SelectionTree.IsLocated.of_branch (located : (mk fields branches spreads).IsLocated place)
    (mem : .mk key child tree ∈ branches) : tree.IsLocated child :=
  fun member memberMem =>
    located member (mem_writtenSets.mpr (Or.inr (Or.inr ⟨_, _, _, mem, memberMem⟩)))

end Located

/-- Whether a place lies at or below another: the scopes of the one start like those of the other,
and lead on. -/
def Place.LeadsTo (place member : Place) : Prop :=
  ∃ scope rest, member.scopes = place.enclosing ++ scope :: rest
    ∧ place.scope.path <+: scope.path
    ∧ place.entity.location.steps <+: member.entity.location.steps

/-- The sets written below a field. -/
def TreeField.writtenSets : TreeField → List (Place × SelectionTree)
  | .scalar _ => []
  | .entity _ place selections => selections.writtenSets place

/-- The sets written behind a branch. -/
def TreeBranch.writtenSets : TreeBranch → List (Place × SelectionTree)
  | .mk _ place selections => selections.writtenSets place

theorem SelectionTree.writtenSetsOfFields_eq_flatMap (fields : List TreeField) :
    writtenSetsOfFields fields = fields.flatMap (·.writtenSets) := by
  induction fields with
  | nil => rfl
  | cons field rest ih =>
      cases field <;> simp [writtenSetsOfFields, TreeField.writtenSets, ih]

theorem SelectionTree.writtenSetsOfBranches_eq_flatMap (branches : List TreeBranch) :
    writtenSetsOfBranches branches = branches.flatMap (·.writtenSets) := by
  induction branches with
  | nil => rfl
  | cons branch rest ih =>
      rcases branch with ⟨_, _, _⟩
      simp [writtenSetsOfBranches, TreeBranch.writtenSets, ih]

section Below

variable {levels : Nat} {place child : Place} {selections : List Selection} {tree : SelectionTree}
  {gathered : Gathered} {fields : List TreeField} {branches : List TreeBranch}
  {spreads : List Spread} {member other : Place × SelectionTree} {summary : FieldSummary}
  {key : Narrowing}

/-- Where what is below a field is written: behind the scope of the field's set. -/
theorem Place.LeadsTo.of_field {member : Place} (leads : child.LeadsTo member)
    (enclosing : child.enclosing = place.scopes)
    (location : child.entity.location
      = place.entity.location.child summary.responseKey summary.type.innerName) :
    (∃ rest, member.scopes = place.enclosing ++ place.scope :: rest)
      ∧ place.entity.location.steps ++ [⟨summary.responseKey, summary.type.innerName⟩]
        <+: member.entity.location.steps := by
  rcases leads with ⟨scope, rest, scopes, -, steps⟩
  rw [location] at steps
  refine ⟨⟨scope :: rest, ?_⟩, steps⟩
  rw [scopes, enclosing, Place.scopes, List.append_assoc, List.singleton_append]

/-- Where what is behind a branch is written: in scopes with the branch's key on their paths. -/
theorem Place.LeadsTo.of_branch {schema : Schema} {member : Place} (leads : child.LeadsTo member)
    (effective : place.scope.effective? key = some key)
    (narrowed : place.narrowed schema key = .ok child) :
    (∃ scope rest more, member.scopes = place.enclosing ++ scope :: rest
        ∧ scope.path = place.scope.path ++ key :: more)
      ∧ place.entity.location.steps <+: member.entity.location.steps := by
  rcases leads with ⟨scope, rest, scopes, ⟨more, path⟩, steps⟩
  rcases Place.narrowed_eq_ok narrowed with ⟨inner, sameEntity, sameEnclosing⟩
  rw [Scope.path_narrow_effective effective inner, List.append_assoc, List.singleton_append]
    at path
  rw [sameEntity] at steps
  exact ⟨⟨scope, rest, more, by rw [scopes, sameEnclosing], path.symm⟩, steps⟩

theorem Depicts.leadsTo (depicts : Depicts project levels place selections tree)
    (located : tree.IsLocated place) (mem : member ∈ tree.writtenSets place) :
    place.LeadsTo member.1 := by
  induction levels generalizing place selections tree with
  | zero => cases depicts
  | succ levels ih =>
      rcases tree with ⟨fields, branches, spreads⟩
      rcases depicts with ⟨gathered, parts⟩
      rcases SelectionTree.mem_writtenSets.mp mem with
        rfl | ⟨summary, child, tree, fieldMem, below⟩ | ⟨key, child, tree, branchMem, below⟩
      · exact ⟨place.scope, [], rfl, List.prefix_rfl, List.prefix_rfl⟩
      · rcases exists_mem_of_forall₂_right parts.fields fieldMem with ⟨known, -, ofField⟩
        rcases located.of_field fieldMem with ⟨location, childLocated⟩
        cases ofField with
        | entity _ isChild childDepicts =>
            have leads := ih childDepicts childLocated below
            rcases leads.of_field isChild.enclosing location with ⟨⟨rest, scopes⟩, steps⟩
            exact ⟨place.scope, rest, scopes, List.prefix_rfl,
              (List.prefix_append _ _).trans steps⟩
      · rcases parts.exists_gathered_branch branchMem with ⟨behind, behindMem, ofBranch⟩
        have orderly := Gathered.isOrderly_gatherAll parts.gathers
        cases ofBranch with
        | kept narrowed childDepicts _ =>
            have leads := ih childDepicts (located.of_branch branchMem) below
            rcases leads.of_branch (orderly.effective _ behindMem) narrowed with
              ⟨⟨scope, rest, more, scopes, path⟩, steps⟩
            exact ⟨scope, rest, scopes, ⟨_, path.symm⟩, steps⟩

theorem map_length_of_beq {scopes others : List Scope}
    (same : List.Forall₂ (fun scope other => (scope == other) = true) scopes others) :
    scopes.map (·.path.length) = others.map (·.path.length) := by
  induction same with
  | nil => rfl
  | cons here _ ih => rw [List.map_cons, List.map_cons, (Scope.forall₂_of_beq here).length_eq, ih]

theorem Place.not_stays_and_leaves {scopes others rest later : List Scope} {scope : Scope}
    {more : List Narrowing} (same : scopes.map (·.path.length) = others.map (·.path.length))
    (stays : scopes = place.enclosing ++ place.scope :: rest)
    (leaves : others = place.enclosing ++ scope :: later)
    (path : scope.path = place.scope.path ++ key :: more) : False := by
  rw [stays, leaves, List.map_append, List.map_append, List.append_cancel_left_eq, List.map_cons,
    List.map_cons, List.cons.injEq, path, List.length_append, List.length_cons] at same
  omega

section Parts

variable
  (parts : DepictsParts project (Depicts project levels) levels place selections gathered fields
    branches spreads)
  (located : (SelectionTree.mk fields branches spreads).IsLocated place)

include parts located

/-- What is written below a field depicts selections, and stands behind the scope of the place. -/
theorem DepictsParts.stays (fieldMem : .entity summary child tree ∈ fields) :
    (∃ inner, Depicts project levels child inner tree) ∧ tree.IsLocated child
      ∧ ∀ member ∈ tree.writtenSets child,
        (∃ rest, member.1.scopes = place.enclosing ++ place.scope :: rest)
          ∧ place.entity.location.steps ++ [⟨summary.responseKey, summary.type.innerName⟩]
            <+: member.1.entity.location.steps := by
  rcases exists_mem_of_forall₂_right parts.fields fieldMem with ⟨known, -, ofField⟩
  rcases located.of_field fieldMem with ⟨location, childLocated⟩
  cases ofField with
  | entity _ isChild depicts =>
      refine ⟨⟨_, depicts⟩, childLocated, fun member below => ?_⟩
      exact (depicts.leadsTo childLocated below).of_field isChild.enclosing location

/-- What is written behind a branch depicts selections, and has the branch's key on its way. -/
theorem DepictsParts.leaves (branchMem : .mk key child tree ∈ branches) :
    (∃ inner, Depicts project levels child inner tree) ∧ tree.IsLocated child
      ∧ ∀ member ∈ tree.writtenSets child, ∃ scope rest more,
        member.1.scopes = place.enclosing ++ scope :: rest
          ∧ scope.path = place.scope.path ++ key :: more := by
  rcases parts.exists_gathered_branch branchMem with ⟨behind, behindMem, ofBranch⟩
  have orderly := Gathered.isOrderly_gatherAll parts.gathers
  have childLocated := located.of_branch branchMem
  cases ofBranch with
  | kept narrowed depicts _ =>
      refine ⟨⟨_, depicts⟩, childLocated, fun member below => ?_⟩
      exact ((depicts.leadsTo childLocated below).of_branch (orderly.effective _ behindMem)
        narrowed).1

end Parts

/-- What is written below different fields differs in the locations. -/
theorem DepictsParts.pairwise_fields
    (parts : DepictsParts project (Depicts project levels) levels place selections gathered fields
      branches spreads)
    (located : (SelectionTree.mk fields branches spreads).IsLocated place)
    (keys : (fields.map (·.toField.responseKey)).Nodup) :
    fields.Pairwise fun field later => ∀ member ∈ field.writtenSets, ∀ other ∈ later.writtenSets,
      (member.1 == other.1) = false := by
  refine (List.pairwise_map.mp keys).imp_of_mem ?_
  intro field later fieldMem laterMem differ member mem other otherMem
  rcases field with _ | ⟨summary, child, tree⟩
  · cases mem
  rcases later with _ | ⟨otherSummary, otherChild, otherTree⟩
  · cases otherMem
  rw [Bool.eq_false_iff]
  intro same
  have steps := ((parts.stays located fieldMem).2.2 member mem).2
  have otherSteps := ((parts.stays located laterMem).2.2 other otherMem).2
  rw [← (Place.of_beq same).1] at otherSteps
  have sameSteps := List.prefix_of_prefix_length_le steps otherSteps (by simp)
  have sameStep := sameSteps.eq_of_length (by simp)
  rw [List.append_cancel_left_eq, List.singleton_inj, FieldStep.mk.injEq] at sameStep
  exact differ sameStep.1

/-- What is written behind different branches differs in the scopes. -/
theorem DepictsParts.pairwise_branches
    (parts : DepictsParts project (Depicts project levels) levels place selections gathered fields
      branches spreads)
    (located : (SelectionTree.mk fields branches spreads).IsLocated place)
    (keys : (branches.map (·.toBranch.key)).Pairwise fun key later => (key == later) = false) :
    branches.Pairwise fun branch later => ∀ member ∈ branch.writtenSets,
      ∀ other ∈ later.writtenSets, (member.1 == other.1) = false := by
  refine (List.pairwise_map.mp keys).imp_of_mem ?_
  intro branch later branchMem laterMem differ member mem other otherMem
  rcases branch with ⟨key, child, tree⟩
  rcases later with ⟨otherKey, otherChild, otherTree⟩
  rw [Bool.eq_false_iff]
  intro same
  have scopes := Place.forall₂_scopes_of_beq same
  rcases (parts.leaves located branchMem).2.2 member mem with ⟨_, _, _, leaves, path⟩
  rcases (parts.leaves located laterMem).2.2 other otherMem with ⟨_, _, _, otherLeaves, otherPath⟩
  rw [leaves, otherLeaves] at scopes
  rcases forall₂_behind scopes with _ | ⟨sameScope, -⟩
  have samePath := Scope.forall₂_of_beq sameScope
  rw [path, otherPath] at samePath
  rcases forall₂_behind samePath with _ | ⟨sameKey, -⟩
  simp only [TreeBranch.toBranch, sameKey, Bool.true_eq_false] at differ

/-- No two sets are written in a tree at equal places. -/
theorem Depicts.pairwise_writtenSets (depicts : Depicts project levels place selections tree)
    (located : tree.IsLocated place) :
    (tree.writtenSets place).Pairwise fun member other => (member.1 == other.1) = false := by
  induction levels generalizing place selections tree with
  | zero => cases depicts
  | succ levels ih =>
      have orderly := depicts.isOrderly
      rcases tree with ⟨fields, branches, spreads⟩
      rcases depicts with ⟨gathered, parts⟩
      rw [SelectionTree.writtenSets, List.pairwise_cons, List.pairwise_append,
        SelectionTree.writtenSetsOfFields_eq_flatMap,
        SelectionTree.writtenSetsOfBranches_eq_flatMap, List.pairwise_flatMap,
        List.pairwise_flatMap]
      have fieldKeys : (fields.map (·.toField.responseKey)).Nodup := by
        simpa [SelectionTree.fields, Function.comp_def] using orderly.fields
      have branchKeys : (branches.map (·.toBranch.key)).Pairwise
          fun key later => (key == later) = false := by
        simpa [SelectionTree.branches, Function.comp_def] using orderly.branches
      -- A set below a field is further down than the place. One behind a branch is where the place
      -- is, but with the branch's key on its path.
      refine ⟨?_, ⟨?_, parts.pairwise_fields located fieldKeys⟩,
        ⟨?_, parts.pairwise_branches located branchKeys⟩, ?_⟩
      · intro other mem
        rw [Bool.eq_false_iff]
        intro same
        rcases List.mem_append.mp mem with inFields | inBranches
        · rcases List.mem_flatMap.mp inFields with ⟨_ | ⟨summary, child, tree⟩, fieldMem, below⟩
          · cases below
          have length := ((parts.stays located fieldMem).2.2 other below).2.length_le
          simp only [← (Place.of_beq same).1, List.length_append, List.length_singleton] at length
          omega
        · rcases List.mem_flatMap.mp inBranches with ⟨⟨key, child, tree⟩, branchMem, behind⟩
          rcases (parts.leaves located branchMem).2.2 other behind with ⟨_, _, _, leaves, path⟩
          exact Place.not_stays_and_leaves (map_length_of_beq (Place.forall₂_scopes_of_beq same))
            rfl leaves path
      · rintro (_ | ⟨summary, child, tree⟩) fieldMem
        · exact .nil
        · rcases parts.stays located fieldMem with ⟨⟨_, depicts⟩, childLocated, -⟩
          exact ih depicts childLocated
      · rintro ⟨key, child, tree⟩ branchMem
        rcases parts.leaves located branchMem with ⟨⟨_, depicts⟩, childLocated, -⟩
        exact ih depicts childLocated
      · intro member inFields other inBranches
        rw [Bool.eq_false_iff]
        intro same
        rcases List.mem_flatMap.mp inFields with ⟨_ | ⟨summary, child, tree⟩, fieldMem, below⟩
        · cases below
        rcases List.mem_flatMap.mp inBranches with ⟨⟨key, other, otherTree⟩, branchMem, behind⟩
        rcases ((parts.stays located fieldMem).2.2 member below).1 with ⟨_, stays⟩
        rcases (parts.leaves located branchMem).2.2 _ behind with ⟨_, _, _, leaves, path⟩
        exact Place.not_stays_and_leaves (map_length_of_beq (Place.forall₂_scopes_of_beq same))
          stays leaves path

/-- Sets written in a tree at equal places are the same. -/
theorem Depicts.eq_of_beq_place (depicts : Depicts project levels place selections tree)
    (located : tree.IsLocated place) (mem : member ∈ tree.writtenSets place)
    (otherMem : other ∈ tree.writtenSets place) (same : (member.1 == other.1) = true) :
    member.2 = other.2 := by
  have : Std.Symm fun member other : Place × SelectionTree => (member.1 == other.1) = false :=
    ⟨fun member other differ => by rwa [BEq.comm]⟩
  by_contra different
  have differ := (depicts.pairwise_writtenSets located).forall mem otherMem
    fun same => different (congrArg Prod.snd same)
  rw [same] at differ
  cases differ

end Below

end ResponseShape
