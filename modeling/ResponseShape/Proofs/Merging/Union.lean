import ResponseShape.Proofs.Merging.Additions
import ResponseShape.Proofs.Merging.Sources
import ResponseShape.Proofs.Definition.Reading
import ResponseShape.Proofs.Workspace.Reachable

/-!
# Visible selections are a union

What is visible at a place is what is written there together with what its sources select: the same
keys, each under the disjunction of its conditions, the same spreads, and a branch towards whatever
else is seen (`SelectionSet.Offered.isUnionOf_visible`). This holds for every set that a project
offers, in every workspace it can be in.
-/

namespace ResponseShape

namespace SelectionSet

/-- What a set's place takes to merge into it. -/
def mergeTarget (schema : Schema) (entities : EntityTable) (set : SelectionSet) : MergeTarget :=
  ⟨schema, entities, set.place, set.direct⟩

/-- The fields written at a set's place. -/
def directFields (set : SelectionSet) : List Field := (set.direct.map (·.fields)).getD []

/-- The branches written at a set's place. -/
def directBranches (set : SelectionSet) : List Branch := (set.direct.map (·.branches)).getD []

/-- The spreads written at a set's place. -/
def directSpreads (set : SelectionSet) : List Spread := (set.direct.map (·.spreads)).getD []

variable {set : SelectionSet}

theorem mem_directFields {field : Field} :
    field ∈ set.directFields ↔ ∃ tree, set.direct = some tree ∧ field ∈ tree.fields := by
  rw [directFields]
  cases set.direct <;> simp

theorem mem_directBranches {branch : Branch} :
    branch ∈ set.directBranches ↔ ∃ tree, set.direct = some tree ∧ branch ∈ tree.branches := by
  rw [directBranches]
  cases set.direct <;> simp

/-- Whether what is written at a set's place, if anything is, has distinct keys. -/
def IsOrderly (set : SelectionSet) : Prop := ∀ tree, set.direct = some tree → tree.IsOrderly

end SelectionSet

section Runs

variable {target : MergeTarget} {trees : List SelectionTree} {keys : List Narrowing}
  {additions next : Additions} {contributors nextContributors : List Contributor}
  {sighting : Sighting}

theorem MergeTarget.HasMerged.mergeSighting (has : target.HasMerged trees keys additions)
    (run : target.mergeSighting (additions, contributors) sighting
      = .ok (next, nextContributors)) :
    target.HasMerged (trees ++ [sighting].filterMap (·.selections?))
      (keys ++ [sighting].filterMap (·.key?)) next := by
  simp only [MergeTarget.mergeSighting, bind, Except.bind, pure, Except.pure] at run
  cases isContribution : sighting.contribution with
  | selections =>
      simp only [isContribution] at run
      split at run
      next => cases run
      next merged mergedRun =>
        rcases Prod.mk.inj (Except.ok.inj run) with ⟨rfl, -⟩
        simpa [Sighting.selections?, Sighting.key?, isContribution]
          using has.mergeSelections mergedRun
  | branch narrowing =>
      simp only [isContribution] at run
      split at run
      next => cases run
      next merged mergedRun =>
        rcases Prod.mk.inj (Except.ok.inj run) with ⟨rfl, -⟩
        rcases has.branches.mergeBranch mergedRun with ⟨ofBranches, fields, widened, spreads⟩
        simp only [Sighting.selections?, Sighting.key?, isContribution, List.filterMap_cons,
          List.filterMap_nil, List.append_nil]
        exact ⟨has.fields.congr fields widened, has.spreads.congr spreads, ofBranches⟩

variable {schema : Schema} {entities : EntityTable} {set : SelectionSet}
  {strategy : MergingStrategy} {visible : VisibleSelections}

theorem MergeTarget.hasMerged_of_foldlM {sightings : List Sighting}
    (run : sightings.foldlM target.mergeSighting (.empty, []) = .ok (additions, contributors)) :
    target.HasMerged (sightings.filterMap (·.selections?)) (sightings.filterMap (·.key?))
      additions := by
  apply foldlM_induction
    (motive := fun done (state : Additions × List Contributor) =>
      target.HasMerged (done.filterMap (·.selections?)) (done.filterMap (·.key?)) state.1) ?_ ?_ run
  · exact MergeTarget.hasMerged_empty
  · rintro done sighting ⟨before, contributors⟩ ⟨after, later⟩ has step
    rw [List.filterMap_append, List.filterMap_append]
    exact has.mergeSighting step

/-- What is visible is what is direct with an account of what was merged. -/
theorem SelectionSet.hasMerged_of_visible
    (run : set.visible schema entities strategy = .ok visible) :
    visible.place = set.place ∧ visible.direct = set.direct
      ∧ (set.mergeTarget schema entities).HasMerged
        ((set.sources entities strategy).map (·.selections))
        ((set.seen entities strategy).filterMap fun occurrence =>
          set.place.scope.branchTowards? schema occurrence.place.scope)
        visible.additions := by
  rcases visible_eq_ok run with
    ⟨additions, contributors, sightings, rfl, merges, selections, keys, -⟩
  refine ⟨rfl, rfl, ?_⟩
  rw [← selections, ← keys]
  exact MergeTarget.hasMerged_of_foldlM merges

/-- A branch that is added leads towards something that the set sees. -/
theorem VisibleSelections.exists_towards {branch : Branch}
    (run : set.visible schema entities strategy = .ok visible)
    (mem : branch ∈ visible.additions.branches) :
    ∃ occurrence ∈ set.seen entities strategy,
      set.place.scope.branchTowards? schema occurrence.place.scope = some branch.key := by
  rcases SelectionSet.hasMerged_of_visible run with ⟨-, -, merged⟩
  have isKey := List.mem_map_of_mem (f := (·.key)) mem
  rw [merged.branches.keys] at isKey
  exact List.mem_filterMap.mp (List.mem_filter.mp (mem_of_mem_distinct isKey)).1

end Runs

section Parts

variable {schema : Schema} {entities : EntityTable} {set : SelectionSet}
  {strategy : MergingStrategy} {visible : VisibleSelections} {field direct : Field}

theorem SelectionSet.IsOrderly.directField? (orderly : set.IsOrderly)
    (mem : direct ∈ set.directFields) :
    (set.mergeTarget schema entities).directField? direct.responseKey = some direct := by
  simp only [MergeTarget.directField?, mergeTarget, directFields] at mem ⊢
  cases isTree : set.direct with
  | none => simp [isTree] at mem
  | some tree =>
      rw [isTree, Option.map_some, Option.getD_some] at mem
      rw [Option.bind_some, SelectionTree.field?, List.find?_eq_some_iff_append]
      rcases List.append_of_mem mem with ⟨before, after, split⟩
      refine ⟨by simp, before, after, split, ?_⟩
      intro earlier earlierMem
      have nodup := (orderly tree isTree).fields
      rw [split, List.map_append, List.map_cons, List.nodup_append] at nodup
      have differs := nodup.2.2 _ (List.mem_map_of_mem earlierMem) _ List.mem_cons_self
      simpa using differs

theorem SelectionSet.mem_of_directField? {key : Name}
    (isDirect : (set.mergeTarget schema entities).directField? key = some direct) :
    direct ∈ set.directFields := by
  rcases Option.bind_eq_some_iff.mp isDirect with ⟨tree, isTree, found⟩
  exact mem_directFields.mpr ⟨tree, isTree, List.mem_of_find?_eq_some found⟩

theorem SelectionSet.directField?_eq_none {key : Name} :
    (set.mergeTarget schema entities).directField? key = none ↔
      ∀ direct ∈ set.directFields, direct.responseKey ≠ key := by
  simp only [MergeTarget.directField?, mergeTarget, directFields]
  cases set.direct with
  | none => simp
  | some tree => simp [SelectionTree.field?, List.find?_eq_none]

/-- The visible fields are the direct ones, widened by their sources, and those added. -/
theorem VisibleSelections.mem_fields (orderly : set.IsOrderly)
    (run : set.visible schema entities strategy = .ok visible) (mem : field ∈ visible.fields) :
    (∃ direct ∈ set.directFields, (set.mergeTarget schema entities).IsWidened
        (((set.sources entities strategy).map (·.selections)).flatMap (·.fields)) direct field)
      ∨ (set.mergeTarget schema entities).directField? field.responseKey = none
        ∧ (set.mergeTarget schema entities).IsMerged
          (((set.sources entities strategy).map (·.selections)).flatMap (·.fields)) field := by
  rcases SelectionSet.hasMerged_of_visible run with ⟨-, isDirect, merged⟩
  rw [fields, isDirect, List.mem_append] at mem
  rcases mem with ofDirect | isAdded
  · rcases List.mem_map.mp ofDirect with ⟨direct, directMem, rfl⟩
    exact Or.inl ⟨direct, directMem,
      merged.fields.widened _ _ (orderly.directField? directMem)⟩
  · exact Or.inr ⟨merged.fields.notDirect isAdded, merged.fields.added field isAdded⟩

end Parts

section Spreads

variable {project : Project} {occurrence : Occurrence} {scope : Scope} {spread : Spread}

/-- What a scope imposes, every scope within it imposes. -/
theorem Scope.IsTracked.isKnownIn_of_isWithin {other : Scope} (tracked : other.IsTracked)
    (isWithin : scope.isWithin other = true) : other.IsKnownIn scope := by
  intro test known
  rcases (tracked.tests test).mp known with ⟨narrowing, onPath, group, isGroup, made⟩
  have implied := List.all_eq_true.mp isWithin narrowing onPath
  exact (implies_iff.mp implied).2.1 group isGroup test made

/-- Nothing is left of the conditions of a spread within the scope that it occurs in. -/
theorem Occurrence.IsSound.remainder_eq_none (sound : occurrence.IsSound project)
    (isWithin : scope.isWithin occurrence.place.scope = true)
    (mem : spread ∈ occurrence.selections.spreads) :
    spread.conditions.bind (·.remainderIn scope.knownConditions) = none := by
  rcases sound.depicts with ⟨levels, place, selections, depicts, -, isKnownIn⟩
  have tracked := Scope.isTracked_of_reachable sound.scope
  rw [(depicts.of_mem_spreads mem).1, Place.spread]
  cases known : place.scope.knownConditions with
  | none => rfl
  | some group =>
      have subset (test : VariableTest) (made : test ∈ group.tests) :
          ∃ group ∈ scope.knownConditions, test ∈ group.tests :=
        tracked.isKnownIn_of_isWithin isWithin test (isKnownIn test ⟨group, known, made⟩)
      have remains : group.remainderIn scope.knownConditions = none :=
        ConditionGroup.remainderIn_eq_none_iff.mpr (Scope.knowsGroup_iff.mpr subset)
      simp only [Option.map_some, Option.bind_some, Alternatives.remainderIn, Alternatives.single,
        List.filter_cons, List.filter_nil]
      split
      next => simp [Alternatives.reduceFrom, remains]
      next => rfl

end Spreads

/-- Whether visible selections are the union of those that are direct in a set and those of its
sources under a strategy, with a branch towards everything else that is seen. -/
structure VisibleSelections.IsUnionOf (schema : Schema) (entities : EntityTable)
    (set : SelectionSet) (strategy : MergingStrategy) (visible : VisibleSelections) : Prop where
  keys : visible.fields.map (·.responseKey) = set.directFields.map (·.responseKey)
    ++ distinct ((((set.sources entities strategy).flatMap (·.selections.fields)).filter
      fun field => field.canHoldIn set.place.scope.knownConditions
        && !set.directFields.any (·.responseKey == field.responseKey)).map (·.responseKey))
  conditions : ∀ field ∈ visible.fields, ∀ assignment,
    set.place.scope.knownConditions.all (·.holds assignment) = true →
      (field.holds assignment = true ↔
        (∃ direct ∈ set.directFields,
          direct.responseKey = field.responseKey ∧ direct.holds assignment = true)
        ∨ ∃ occurrence ∈ set.sources entities strategy, ∃ source ∈ occurrence.selections.fields,
          source.responseKey = field.responseKey ∧ source.holds assignment = true)
  spreads : ∃ merged, visible.spreads = set.directSpreads ++ merged
    ∧ (∀ spread ∈ merged, spread.conditions = none)
    ∧ merged.map (·.name) = distinct ((((set.sources entities strategy).flatMap
      (·.selections.spreads)).filter fun spread =>
        !set.directSpreads.any (·.name == spread.name)).map (·.name))
  branches : visible.branches.map (·.key) = set.directBranches.map (·.key)
    ++ distinct (((set.seen entities strategy).filterMap fun occurrence =>
      set.place.scope.branchTowards? schema occurrence.place.scope).filter
        fun key => !set.directBranches.any (·.key == key))

/-- The selection sets that a project offers: those written in what is built, and those behind the
fields and branches of what is visible at an offered set. -/
inductive SelectionSet.Offered (project : Project) : SelectionSet → Prop where
  | operation {workspace : Workspace} {key : OperationKey} {shape : OperationShape}
      {member : Place × SelectionTree} (reachable : Workspace.Reachable project workspace)
      (isBuilt : (key, shape) ∈ workspace.operations) (mem : member ∈ shape.root.writtenSets) :
      Offered project ⟨member.1, some member.2⟩
  | fragment {workspace : Workspace} {shape : FragmentShape} {member : Place × SelectionTree}
      (reachable : Workspace.Reachable project workspace) (isBuilt : shape ∈ workspace.fragments)
      (mem : member ∈ shape.root.writtenSets) : Offered project ⟨member.1, some member.2⟩
  | field {workspace : Workspace} {set inner : SelectionSet} {strategy : MergingStrategy}
      {visible : VisibleSelections} {field : Field} (offered : Offered project set)
      (reachable : Workspace.Reachable project workspace)
      (run : set.visible project.schema workspace.entities strategy = .ok visible)
      (mem : field ∈ visible.fields) (isInner : field.selectionSet = some inner) :
      Offered project inner
  | branch {workspace : Workspace} {set : SelectionSet} {strategy : MergingStrategy}
      {visible : VisibleSelections} {branch : Branch} (offered : Offered project set)
      (reachable : Workspace.Reachable project workspace)
      (run : set.visible project.schema workspace.entities strategy = .ok visible)
      (mem : branch ∈ visible.branches) : Offered project branch.selectionSet

namespace SelectionSet

variable {project : Project} {set : SelectionSet} {workspace : Workspace}
  {strategy : MergingStrategy} {visible : VisibleSelections}

/-- Whether what is written at a set's place, if anything is, depicts some selections. -/
def IsDepiction (project : Project) (set : SelectionSet) : Prop :=
  ∀ tree, set.direct = some tree → ∃ levels place selections,
    Depicts project levels place selections tree

theorem IsDepiction.isOrderly (depiction : set.IsDepiction project) : set.IsOrderly := by
  intro tree isTree
  rcases depiction tree isTree with ⟨levels, place, selections, depicts⟩
  exact depicts.isOrderly

/-- What is below a direct field, or behind a direct branch, depicts selections if the set does. -/
theorem IsDepiction.of_directField (depiction : set.IsDepiction project) {direct : Field}
    {inner : SelectionSet} (mem : direct ∈ set.directFields)
    (isInner : direct.selectionSet = some inner) : inner.IsDepiction project := by
  rcases mem_directFields.mp mem with ⟨tree, isTree, fieldMem⟩
  rcases depiction tree isTree with ⟨levels, place, selections, depicts⟩
  rcases depicts.of_field fieldMem isInner with ⟨-, below, isBelow, -, rest⟩
  intro other isOther
  rcases Option.some.inj (isBelow.symm.trans isOther) with rfl
  rcases rest with ⟨levels, selections, depicts⟩
  exact ⟨levels, inner.place, selections, depicts⟩

theorem IsDepiction.of_directBranch (depiction : set.IsDepiction project) {branch : Branch}
    (mem : branch ∈ set.directBranches) : branch.selectionSet.IsDepiction project := by
  rcases mem_directBranches.mp mem with ⟨tree, isTree, branchMem⟩
  rcases depiction tree isTree with ⟨levels, place, selections, depicts⟩
  rcases depicts.of_branch branchMem with ⟨-, below, isBelow, -, rest⟩
  intro other isOther
  rcases Option.some.inj (isBelow.symm.trans isOther) with rfl
  rcases rest with ⟨levels, selections, depicts⟩
  exact ⟨levels, branch.selectionSet.place, selections, depicts⟩

/-- Merging itself offers nothing that is direct. -/
theorem Offered.isDepiction (offered : set.Offered project) : set.IsDepiction project := by
  have ofWritten {root : RootField} {definition : DefinitionId} {type : Name}
      {selections : List Selection}
      (depiction : root.IsDepiction project definition type selections)
      {member : Place × SelectionTree} (mem : member ∈ root.writtenSets) :
      (SelectionSet.mk member.1 (some member.2)).IsDepiction project := by
    rintro tree ⟨⟩
    rcases (depiction.forall_writtenSets member mem).1 with ⟨levels, selections, depicts⟩
    exact ⟨levels, member.1, selections, depicts⟩
  induction offered with
  | operation reachable isBuilt mem =>
      have sound := Workspace.isSound_of_reachable reachable
      rcases sound.operations _ _ isBuilt with ⟨_, _, _, -, -, -, built, -⟩
      exact ofWritten built.depiction mem
  | fragment reachable isBuilt mem =>
      have sound := Workspace.isSound_of_reachable reachable
      rcases List.append_of_mem isBuilt with ⟨before, after, split⟩
      rcases sound.fragments before _ after split with ⟨_, _, -, built⟩
      exact ofWritten built.depiction mem
  | field _ _ run mem isInner depiction =>
      rcases VisibleSelections.mem_fields depiction.isOrderly run mem with
        ⟨direct, directMem, widened⟩ | ⟨-, added⟩
      · rw [widened.isUnder] at isInner
        exact depiction.of_directField directMem isInner
      · rcases added.adopted with ⟨_, -, adopts⟩
        rcases adopts.selectionSet with ⟨-, none⟩ | ⟨_, _, _, -, -, -, isMerged⟩
        · rw [none] at isInner
          cases isInner
        · rw [isMerged, Option.some.injEq] at isInner
          rw [← isInner]
          exact fun _ isTree => by cases isTree
  | @branch _ set _ _ branch _ _ run mem depiction =>
      rcases hasMerged_of_visible run with ⟨-, isDirect, merged⟩
      rw [VisibleSelections.branches, isDirect, List.mem_append] at mem
      rcases mem with ofDirect | isAdded
      · exact depiction.of_directBranch ofDirect
      · intro tree isTree
        rw [(merged.branches.places branch isAdded).1] at isTree
        cases isTree

/-- Whatever a project offers, and in whichever workspace it is asked for: what is visible at a set
is the union of what is direct and what its sources select. -/
theorem Offered.isUnionOf_visible (offered : set.Offered project)
    (reachable : Workspace.Reachable project workspace)
    (run : set.visible project.schema workspace.entities strategy = .ok visible) :
    visible.IsUnionOf project.schema workspace.entities set strategy := by
  have orderly := offered.isDepiction.isOrderly
  have sound := Workspace.isSound_of_reachable reachable
  rcases hasMerged_of_visible run with ⟨-, isDirect, merged⟩
  have sourceFields : ((set.sources workspace.entities strategy).map (·.selections)).flatMap
      (·.fields) = (set.sources workspace.entities strategy).flatMap (·.selections.fields) :=
    List.flatMap_map _ _ _
  have sourceSpreads : ((set.sources workspace.entities strategy).map (·.selections)).flatMap
      (·.spreads) = (set.sources workspace.entities strategy).flatMap (·.selections.spreads) :=
    List.flatMap_map _ _ _
  constructor
  · rw [VisibleSelections.fields, isDirect, List.map_append, merged.fields.keys, sourceFields]
    congr 1
    · rw [List.map_map]
      apply List.map_congr_left
      intro direct mem
      have widened := merged.fields.widened _ _ (orderly.directField? mem)
      rw [Function.comp_apply, widened.isUnder]
      rfl
    · congr 3
      funext field
      rw [MergeTarget.isNew, Bool.eq_iff_iff, Bool.and_eq_true, Bool.and_eq_true,
        Option.isNone_iff_eq_none, directField?_eq_none, Bool.not_eq_true', List.any_eq_false]
      simp [mergeTarget, MergeTarget.known]
  · intro field mem assignment known
    have sources : (∃ source ∈ ((set.sources workspace.entities strategy).map
        (·.selections)).flatMap (·.fields),
          source.responseKey = field.responseKey ∧ source.holds assignment = true) ↔
        ∃ occurrence ∈ set.sources workspace.entities strategy,
          ∃ source ∈ occurrence.selections.fields,
            source.responseKey = field.responseKey ∧ source.holds assignment = true := by
      rw [sourceFields]
      simp only [List.mem_flatMap]
      grind
    rw [← sources]
    rcases VisibleSelections.mem_fields orderly run mem with
      ⟨direct, directMem, widened⟩ | ⟨notDirect, added⟩
    · have isKey : field.responseKey = direct.responseKey := by
        rw [widened.isUnder]
        rfl
      rw [widened.conditions assignment known, isKey]
      refine or_congr_left ⟨fun holds => ⟨direct, directMem, rfl, holds⟩, ?_⟩
      rintro ⟨other, otherMem, sameKey, holds⟩
      have isOther := @SelectionSet.IsOrderly.directField? project.schema workspace.entities _ _
        orderly otherMem
      rw [sameKey, orderly.directField? directMem, Option.some.injEq] at isOther
      rwa [isOther]
    · rw [added.conditions assignment known]
      refine (or_iff_right ?_).symm
      rintro ⟨direct, directMem, isKey, -⟩
      exact directField?_eq_none.mp notDirect direct directMem isKey
  · refine ⟨visible.additions.spreads, ?_, ?_, ?_⟩
    · rw [VisibleSelections.spreads, isDirect]
      rfl
    · intro spread mem
      rcases merged.spreads.origin spread mem with ⟨source, sourceMem, left⟩
      rw [sourceSpreads, List.mem_flatMap] at sourceMem
      rcases sourceMem with ⟨occurrence, occurrenceMem, spreadMem⟩
      rcases List.mem_filter.mp occurrenceMem with ⟨isSeen, isWithin⟩
      rw [left]
      exact ((sound.registered _ _ (mem_seen.mp isSeen).1).1).remainder_eq_none isWithin spreadMem
    · rw [merged.spreads.names, sourceSpreads]
      congr 3
      funext spread
      simp only [mergeTarget, directSpreads]
      cases set.direct with
      | none => rfl
      | some tree =>
          rw [Option.bind_some, Bool.eq_iff_iff, Option.isNone_iff_eq_none]
          simp [SelectionTree.spread?]
  · rw [VisibleSelections.branches, isDirect, List.map_append, merged.branches.keys]
    congr 3
    funext key
    simp only [mergeTarget, directBranches]
    cases set.direct with
    | none => rfl
    | some tree =>
        rw [Option.bind_some, Bool.eq_iff_iff, Option.isNone_iff_eq_none]
        simp [SelectionTree.branch?]

end SelectionSet

theorem SelectionSet.isUnionOf_visible_heroes : ∃ (set : SelectionSet)
    (visible : VisibleSelections), set.Offered Heroes.project
    ∧ set.visible Heroes.project.schema Heroes.workspace.entities .all = .ok visible
    ∧ visible.fields.map (·.responseKey) = ["name", "age", "id"]
    ∧ visible.IsUnionOf Heroes.project.schema Heroes.workspace.entities set .all := by
  have computes : (Heroes.workspace.operations.any fun operation =>
      operation.2.root.writtenSets.any fun member =>
        ((SelectionSet.mk member.1 (some member.2)).visible Heroes.project.schema
          Heroes.workspace.entities .all).toOption.any fun visible =>
            visible.fields.map (·.responseKey) == ["name", "age", "id"]) = true := by
    rewrite [Heroes.workspace_eq, Heroes.project_eq]
    decide +kernel
  simp only [List.any_eq_true, Option.any_eq_true, beq_iff_eq] at computes
  rcases computes with ⟨⟨key, shape⟩, isBuilt, member, mem, visible, isVisible, keys⟩
  have offered := SelectionSet.Offered.operation Heroes.reachable isBuilt mem
  have run := Build.eq_ok_of_toOption isVisible
  exact ⟨_, visible, offered, run, keys, offered.isUnionOf_visible Heroes.reachable run⟩

end ResponseShape
