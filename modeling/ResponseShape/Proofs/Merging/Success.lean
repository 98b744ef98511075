import ResponseShape.Proofs.Merging.SoleContributors

/-!
# When merging succeeds

Whether merging succeeds depends on what is merged, but not on the order. It does if and only if the
merged fields agree with those written at the place and with each other, the entities of those that
are added are known, and the place can be narrowed by all it can branch by
(`SelectionSet.exists_visible_iff`). So whatever merges less than a merge that succeeds, succeeds
as well (`MergeTarget.Accepts.mono`).
-/

namespace ResponseShape

/-- Whether a field has selections of its own just if its type is composite. -/
def Field.FitsType (schema : Schema) (field : Field) : Prop :=
  field.selectionSet.isSome = true ↔
    schema.isComposite field.summary.type.innerName = .ok true

/-- The fields of a tree have selections of their own where their types ask for them. -/
theorem Depicts.fitsType {project : Project} {levels : Nat} {place : Place}
    {selections : List Selection} {tree : SelectionTree} {field : Field}
    (depicts : Depicts project levels place selections tree) (mem : field ∈ tree.fields) :
    field.FitsType project.schema := by
  cases levels with
  | zero => cases depicts
  | succ levels =>
      rcases tree with ⟨fields, branches, spreads⟩
      rcases depicts with ⟨gathered, parts⟩
      rcases List.mem_map.mp mem with ⟨treeField, treeFieldMem, rfl⟩
      rcases exists_mem_of_forall₂_right parts.fields treeFieldMem with ⟨known, -, ofField⟩
      cases ofField with
      | scalar isLeaf => simp [Field.FitsType, TreeField.toField, FieldSummary.ofSelection, isLeaf]
      | entity isComposite =>
          simp [Field.FitsType, TreeField.toField, FieldSummary.ofSelection, isComposite]

namespace FieldSummary

theorem selectsSame_refl (field : FieldSummary) : field.selectsSame field = true :=
  selectsSame_iff.mpr ⟨rfl, rfl, rfl, rfl⟩

theorem selectsSame_symm {field other : FieldSummary} (same : field.selectsSame other = true) :
    other.selectsSame field = true := by
  rw [selectsSame_iff] at same ⊢
  exact ⟨same.1.symm, same.2.1.symm, same.2.2.1.symm, same.2.2.2.symm⟩

theorem selectsSame_trans {first second third : FieldSummary}
    (same : first.selectsSame second = true) (further : second.selectsSame third = true) :
    first.selectsSame third = true := by
  rw [selectsSame_iff] at same further ⊢
  exact ⟨same.1.trans further.1, same.2.1.trans further.2.1, same.2.2.1.trans further.2.2.1,
    same.2.2.2.trans further.2.2.2⟩

end FieldSummary

theorem Field.responseKey_of_selectsSame {field other : Field}
    (same : field.summary.selectsSame other.summary = true) :
    field.responseKey = other.responseKey := by
  rcases FieldSummary.selectsSame_iff.mp same with ⟨sameName, sameAlias, -, -⟩
  rw [responseKey, responseKey, FieldSummary.responseKey, FieldSummary.responseKey, sameName,
    sameAlias]

/-- Fields that select the same data both have selections of their own, or neither has. -/
theorem Field.FitsType.isSome_eq {schema : Schema} {field other : Field}
    (fits : field.FitsType schema) (otherFits : other.FitsType schema)
    (same : field.summary.selectsSame other.summary = true) :
    field.selectionSet.isSome = other.selectionSet.isSome := by
  rw [FitsType, (FieldSummary.selectsSame_iff.mp same).2.2.1] at fits
  rw [Bool.eq_iff_iff]
  exact fits.trans otherFits.symm

/-- Whether each added field selects the same data as one of those that are merged. -/
def Additions.StemFrom (target : MergeTarget) (fields : List Field) (additions : Additions) :
    Prop :=
  ∀ added ∈ additions.fields, ∃ source ∈ fields, target.isNew source = true
    ∧ added.summary.selectsSame source.summary = true

theorem Additions.StemFrom.widen {target : MergeTarget} {fields : List Field}
    {additions : Additions} (stem : additions.StemFrom target fields) (direct : Field)
    (incoming : Option Alternatives) :
    (MergeTarget.widen additions direct incoming).1.StemFrom target fields := by
  simp only [MergeTarget.widen]
  split
  next => exact stem
  next => split <;> exact stem

namespace MergeTarget

variable {target : MergeTarget} {field other : Field} {fields more : List Field}
  {keys others : List Narrowing} {additions : Additions}

/-- Whether a field can be added at the place: a composite one needs its entity there. -/
def CanAdopt (target : MergeTarget) (field : Field) : Prop :=
  ∃ fresh, target.adopted field none = .ok fresh

/-- Under whatever conditions, fields that select the same data can be added if one of them can. -/
theorem CanAdopt.exists_adopted (canAdopt : target.CanAdopt other)
    (same : field.summary.selectsSame other.summary = true)
    (isSome : field.selectionSet.isSome = other.selectionSet.isSome)
    (conditions : Option Alternatives) :
    ∃ fresh, target.adopted field conditions = .ok fresh := by
  rcases canAdopt with ⟨fresh, adopted⟩
  cases isInner : field.selectionSet with
  | none => exact ⟨_, by simp only [MergeTarget.adopted, isInner]; rfl⟩
  | some inner =>
      rw [isInner, Option.isSome_some] at isSome
      rcases Option.isSome_iff_exists.mp isSome.symm with ⟨otherInner, isOther⟩
      rcases (adopts_of_adopted adopted).1.selectionSet with
        ⟨none, -⟩ | ⟨set, entity, place, -, found, isBelow, -⟩
      · rw [isOther] at none
        cases none
      · rw [← Field.responseKey_of_selectsSame same,
          ← (FieldSummary.selectsSame_iff.mp same).2.2.1] at found
        rw [← (FieldSummary.selectsSame_iff.mp same).2.2.1] at isBelow
        exact ⟨_, by simp only [MergeTarget.adopted, isInner, found, isBelow]; rfl⟩

theorem Adopts.isSome_eq {source : Field} (adopts : target.Adopts source field) :
    source.selectionSet.isSome = field.selectionSet.isSome := by
  rcases adopts.selectionSet with ⟨isLeaf, alsoLeaf⟩ | ⟨_, _, _, isComposite, -, -, isMerged⟩
  · rw [isLeaf, alsoLeaf]
  · rw [isComposite, isMerged]
    rfl

theorem Adopts.canAdopt {source : Field} (adopts : target.Adopts source field) :
    target.CanAdopt field := by
  rcases adopts.selectionSet with ⟨-, isLeaf⟩ | ⟨set, entity, place, -, found, isBelow, isMerged⟩
  · exact ⟨_, by simp only [MergeTarget.adopted, isLeaf]; rfl⟩
  · have sameType := (FieldSummary.selectsSame_iff.mp adopts.selectsSame).2.2.1
    rw [← adopts.responseKey, ← sameType] at found
    rw [← sameType] at isBelow
    exact ⟨_, by simp only [MergeTarget.adopted, isMerged, found, isBelow]; rfl⟩

/-- Whether fields, and narrowings to branch by, can be merged at the place. -/
structure Accepts (target : MergeTarget) (fields : List Field) (keys : List Narrowing) :
    Prop where
  direct : ∀ field ∈ fields, field.canHoldIn target.known = true →
    ∀ direct, target.directField? field.responseKey = some direct →
      direct.summary.selectsSame field.summary = true
  agree : ∀ field ∈ fields, target.isNew field = true → ∀ other ∈ fields,
    target.isNew other = true → field.responseKey = other.responseKey →
      field.summary.selectsSame other.summary = true
  adoptable : ∀ field ∈ fields, target.isNew field = true → target.CanAdopt field
  branches : ∀ key ∈ keys, target.direct.bind (·.branch? key) = none →
    ∃ place, target.place.narrowed target.schema key = .ok place

/-- What can be merged, can be merged in part. -/
theorem Accepts.mono (accepts : target.Accepts more others) (fewer : fields ⊆ more)
    (fewerKeys : keys ⊆ others) : target.Accepts fields keys where
  direct field mem := accepts.direct field (fewer mem)
  agree field mem isNew other otherMem :=
    accepts.agree field (fewer mem) isNew other (fewer otherMem)
  adoptable field mem := accepts.adoptable field (fewer mem)
  branches key mem := accepts.branches key (fewerKeys mem)

section Progress

variable {tree : SelectionTree} {key : Narrowing} (accepts : target.Accepts fields keys)
  (stem : additions.StemFrom target fields)

include accepts stem

theorem Accepts.mergeField (mem : field ∈ fields) : Yields (fun _ => False)
    (fun merged => merged.1.StemFrom target fields) (target.mergeField additions field) := by
  simp only [MergeTarget.mergeField, Field.any_not_canHoldIn]
  split
  next => exact stem
  next possible =>
    have canHold : field.canHoldIn target.known = true := by simpa using possible
    split
    next direct isDirect =>
      rw [ensureSame, if_pos (accepts.direct field mem canHold direct isDirect)]
      exact stem.widen _ _
    next notDirect =>
      have isNew : target.isNew field = true := by
        rw [MergeTarget.isNew, canHold, directField?, notDirect]
        rfl
      split
      next existing isAdded =>
        have existingMem := List.mem_of_find?_eq_some isAdded
        have isKey : existing.responseKey = field.responseKey := by
          simpa using List.find?_some isAdded
        rcases stem existing existingMem with ⟨source, sourceMem, sourceNew, same⟩
        have sourceSame := accepts.agree source sourceMem sourceNew field mem isNew
          ((Field.responseKey_of_selectsSame same).symm.trans isKey)
        rw [ensureSame, if_pos (FieldSummary.selectsSame_trans same sourceSame)]
        exact forall_mem_updateOrAppend stem (stem existing existingMem) fun _ stems => stems
      next =>
        rcases (accepts.adoptable field mem isNew).exists_adopted
          (FieldSummary.selectsSame_refl _) rfl
          (field.summary.conditions.bind (·.remainderIn target.known)) with ⟨fresh, adopted⟩
        rw [adopted]
        refine List.forall_mem_append.mpr ⟨stem, List.forall_mem_singleton.mpr ?_⟩
        exact ⟨field, mem, isNew, (adopts_of_adopted adopted).1.selectsSame⟩

theorem Accepts.mergeSelections (mem : ∀ field ∈ tree.fields, field ∈ fields) :
    Yields (fun _ => False) (fun merged => merged.1.StemFrom target fields)
      (target.mergeSelections additions tree) := by
  refine yields_mergeSelections_of_steps stem
    (fun _ before field inTree => accepts.mergeField before (mem field inTree))
    fun _ before spread _ => ?_
  simp only [mergeSpread]
  split <;> exact before

theorem Accepts.mergeBranch (mem : key ∈ keys) : Yields (fun _ => False)
    (fun merged => merged.1.StemFrom target fields) (target.mergeBranch additions key) := by
  simp only [MergeTarget.mergeBranch]
  split
  next => exact stem
  next isNew =>
    rw [Bool.or_eq_true, not_or, Option.not_isSome_iff_eq_none] at isNew
    rcases accepts.branches key mem isNew.1 with ⟨place, narrowed⟩
    rw [narrowed]
    exact stem

theorem Accepts.mergeSighting {sighting : Sighting} {contributors : List Contributor}
    (ofSelections : ∀ tree, sighting.selections? = some tree →
      ∀ field ∈ tree.fields, field ∈ fields)
    (ofKey : ∀ key, sighting.key? = some key → key ∈ keys) :
    Yields (fun _ => False) (fun merged => merged.1.StemFrom target fields)
      (target.mergeSighting (additions, contributors) sighting) := by
  have merges : Yields (fun _ => False) (fun merged => merged.1.StemFrom target fields)
      (target.mergeContribution additions sighting) := by
    simp only [mergeContribution]
    cases contribution : sighting.contribution with
    | selections =>
        refine accepts.mergeSelections stem (ofSelections _ ?_)
        rw [Sighting.selections?, contribution]
    | branch key =>
        refine accepts.mergeBranch stem (ofKey key ?_)
        rw [Sighting.key?, contribution]
  rw [mergeSighting_eq]
  exact merges.map fun _ => id

end Progress

/-- What is accepted is merged, in whatever order. -/
theorem Accepts.exists_foldlM {sightings : List Sighting} (accepts : target.Accepts
      ((sightings.filterMap (·.selections?)).flatMap (·.fields)) (sightings.filterMap (·.key?))) :
    ∃ merged, sightings.foldlM target.mergeSighting (.empty, []) = .ok merged := by
  have yields : Yields (fun _ => False) (fun merged : Additions × List Contributor =>
      merged.1.StemFrom target ((sightings.filterMap (·.selections?)).flatMap (·.fields)))
      (sightings.foldlM target.mergeSighting (.empty, [])) := by
    refine Yields.foldlM (fun _ mem => by cases mem) fun merged stem sighting mem => ?_
    refine accepts.mergeSighting stem (fun tree isTree field fieldMem => ?_) fun key isKey => ?_
    · exact List.mem_flatMap.mpr ⟨tree, List.mem_filterMap.mpr ⟨sighting, mem, isTree⟩, fieldMem⟩
    · exact List.mem_filterMap.mpr ⟨sighting, mem, isKey⟩
  cases outcome : sightings.foldlM target.mergeSighting (.empty, []) with
  | ok merged => exact ⟨merged, rfl⟩
  | error error =>
      rw [outcome] at yields
      exact yields.elim

/-- A place that can be narrowed by a key can be narrowed by an equal one that its scope admits. -/
theorem exists_narrowed_of_beq {schema : Schema} {place narrower : Place} {key other : Narrowing}
    (same : (key == other) = true)
    (effective : place.scope.effective? key = some key)
    (otherEffective : place.scope.effective? other = some other)
    (otherAdmitted : place.scope.admits other = true)
    (narrowed : place.narrowed schema key = .ok narrower) :
    ∃ result, place.narrowed schema other = .ok result := by
  rcases Scope.narrow_cases (Place.narrowed_eq_ok narrowed).1 with
    ⟨isKnown, -⟩ | ⟨_, supertypes, _, isEffective, known, -, -⟩
  · rw [effective] at isKnown
    cases isKnown
  · rcases Option.some.inj (effective.symm.trans isEffective) with rfl
    rcases Scope.exists_conditionsWith_of_admits otherAdmitted with ⟨conditions, compatible⟩
    rw [(Narrowing.of_beq same).1] at known
    rw [Place.narrowed, Scope.narrow, otherEffective]
    cases condition : other.typeCondition with
    | none => exact ⟨_, by simp only [condition, compatible]; rfl⟩
    | some type =>
        rw [condition] at known
        have isKnown : schema.supertypes type = .ok supertypes := known
        exact ⟨_, by simp only [condition, isKnown, compatible]; rfl⟩

/-- What was merged is accepted, if the fields fit their types and the place branches only by what
it does not know and admits. -/
theorem HasMerged.accepts {trees : List SelectionTree}
    (has : target.HasMerged trees keys additions)
    (fits : ∀ tree ∈ trees, ∀ field ∈ tree.fields, field.FitsType target.schema)
    (admits : ∀ key ∈ keys, target.place.scope.effective? key = some key
      ∧ target.place.scope.admits key = true) :
    target.Accepts (trees.flatMap (·.fields)) keys := by
  have isFit {field : Field} (mem : field ∈ trees.flatMap (·.fields)) :
      field.FitsType target.schema := by
    rcases List.mem_flatMap.mp mem with ⟨tree, treeMem, fieldMem⟩
    exact fits tree treeMem field fieldMem
  -- what is added under the key of a new field selects the same data
  have exists_added {field : Field} (mem : field ∈ trees.flatMap (·.fields))
      (isNew : target.isNew field = true) : ∃ added ∈ additions.fields,
        added.responseKey = field.responseKey ∧ target.IsMerged (trees.flatMap (·.fields)) added
          ∧ added.summary.selectsSame field.summary = true := by
    rw [MergeTarget.isNew, Bool.and_eq_true, Option.isNone_iff_eq_none] at isNew
    rcases has.fields.exists_field? mem isNew.1 isNew.2 with ⟨added, found⟩
    have addedMem := List.mem_of_find?_eq_some found
    have isKey : added.responseKey = field.responseKey := by simpa using List.find?_some found
    have isMerged := has.fields.added added addedMem
    exact ⟨added, addedMem, isKey, isMerged, isMerged.agrees field mem isNew.1 isKey.symm⟩
  constructor
  · intro field mem canHold direct isDirect
    exact (has.fields.widened _ _ isDirect).agrees field mem canHold
      (responseKey_of_directField? isDirect).symm
  · intro field mem isNew other otherMem otherNew sameKey
    rcases exists_added mem isNew with ⟨added, addedMem, isKey, isMerged, same⟩
    rw [MergeTarget.isNew, Bool.and_eq_true] at otherNew
    have otherSame := isMerged.agrees other otherMem otherNew.1 (sameKey.symm.trans isKey.symm)
    exact FieldSummary.selectsSame_trans (FieldSummary.selectsSame_symm same) otherSame
  · intro field mem isNew
    rcases exists_added mem isNew with ⟨added, -, -, isMerged, same⟩
    rcases isMerged.adopted with ⟨source, sourceMem, adopts⟩
    have sameAsSource := FieldSummary.selectsSame_trans (FieldSummary.selectsSame_symm same)
      adopts.selectsSame
    have isSome : field.selectionSet.isSome = added.selectionSet.isSome := by
      rw [(isFit mem).isSome_eq (isFit sourceMem) sameAsSource]
      exact adopts.isSome_eq
    exact adopts.canAdopt.exists_adopted (FieldSummary.selectsSame_symm same) isSome none
  · intro key mem notDirect
    have isNew : key ∈ keys.filter fun key => (target.direct.bind (·.branch? key)).isNone :=
      List.mem_filter.mpr ⟨mem, by rw [notDirect]; rfl⟩
    rcases exists_beq_mem_distinct Narrowing.beq_refl isNew with ⟨kept, keptMem, same⟩
    have keptIsKey := (List.mem_filter.mp (mem_of_mem_distinct keptMem)).1
    rw [← has.branches.keys, List.mem_map] at keptMem
    rcases keptMem with ⟨branch, branchMem, rfl⟩
    rcases admits key mem with ⟨effective, admitted⟩
    exact exists_narrowed_of_beq (BEq.symm same) (admits _ keptIsKey).1 effective admitted
      (has.branches.places branch branchMem).2

end MergeTarget

namespace SelectionSet

variable {schema : Schema} {entities : EntityTable} {set : SelectionSet}
  {strategy : MergingStrategy}

/-- The fields that a set's sources select. -/
def sourceFields (entities : EntityTable) (set : SelectionSet) (strategy : MergingStrategy) :
    List Field :=
  (set.sources entities strategy).flatMap (·.selections.fields)

/-- The narrowings by which a set can branch towards what it sees. -/
def branchKeys (schema : Schema) (entities : EntityTable) (set : SelectionSet)
    (strategy : MergingStrategy) : List Narrowing :=
  (set.seen entities strategy).filterMap fun occurrence =>
    set.place.scope.branchTowards? schema occurrence.place.scope

/-- Whether the types needed to see an entity's occurrences from the set's place are known. -/
def SeesAll (schema : Schema) (entities : EntityTable) (set : SelectionSet) : Prop :=
  ∀ occurrence ∈ entities.occurrences set.place.entity.location,
    set.isItself occurrence = false →
      ∃ outcome, set.place.sighting? schema occurrence = .ok outcome

/-- Where all can be seen, what is visible is what is merged in order. -/
theorem SeesAll.visible_eq (sees : set.SeesAll schema entities) (strategy : MergingStrategy) :
    set.visible schema entities strategy
      = (((set.seen entities strategy).filterMap (set.place.view? schema)).foldlM
          (set.mergeTarget schema entities).mergeSighting (.empty, [])).map fun merged =>
            ⟨set.place, strategy, set.direct, merged.1, merged.2⟩ := by
  have each (occurrence : Occurrence) (mem : occurrence ∈
      (entities.occurrences set.place.entity.location).filter fun occurrence =>
        !(set.mergeTarget schema entities).isSelf occurrence) :
      ∃ outcome, set.place.sighting? schema occurrence = .ok outcome := by
    rw [List.mem_filter, Bool.not_eq_true'] at mem
    exact sees occurrence mem.1 mem.2
  rcases exists_mapM_eq_ok each with ⟨outcomes, isRun⟩
  have isSeen : (set.mergeTarget schema entities).sightings
      (entities.occurrences set.place.entity.location) = .ok (outcomes.filterMap id) := by
    simp only [MergeTarget.sightings]
    rw [show ((entities.occurrences set.place.entity.location).filter fun occurrence =>
      !(set.mergeTarget schema entities).isSelf occurrence).mapM
        ((set.mergeTarget schema entities).place.sighting? (set.mergeTarget schema entities).schema)
          = .ok outcomes from isRun]
    rfl
  have order : Sighting.byRank ((outcomes.filterMap id).filter (·.origin.isEnabled strategy))
      = (set.seen entities strategy).filterMap (set.place.view? schema) := by
    rw [(filterMap_view?_of_sightings isSeen).1]
    exact byRank_filterMap_view?
  simp only [← visibleAmong_occurrences, visibleAmong, isSeen, bind, Except.bind, order]
  split <;> rename_i merged <;> rw [merged] <;> rfl

theorem seesAll_of_visible {visible : VisibleSelections}
    (run : set.visible schema entities strategy = .ok visible) : set.SeesAll schema entities := by
  simp only [SelectionSet.visible] at run
  cases isSeen : (MergeTarget.mk schema entities set.place set.direct).sightings
      (entities.occurrences set.place.entity.location) with
  | error error => simp [isSeen, bind, Except.bind] at run
  | ok seen => exact (filterMap_view?_of_sightings isSeen).2

/-- Something is visible at a set's place just if all that occurs there can be seen, and the set
accepts the fields of its sources and the narrowings towards all else that it sees. -/
theorem exists_visible_iff
    (fits : ∀ occurrence ∈ entities.occurrences set.place.entity.location,
      ∀ field ∈ occurrence.selections.fields, field.FitsType schema) :
    (∃ visible, set.visible schema entities strategy = .ok visible) ↔
      set.SeesAll schema entities ∧ (set.mergeTarget schema entities).Accepts
        (set.sourceFields entities strategy) (set.branchKeys schema entities strategy) := by
  have sourceFields_eq : set.sourceFields entities strategy
      = ((set.sources entities strategy).map (·.selections)).flatMap (·.fields) :=
    (List.flatMap_map _ _ _).symm
  rw [sourceFields_eq]
  constructor
  · rintro ⟨visible, run⟩
    refine ⟨seesAll_of_visible run, (hasMerged_of_visible run).2.2.accepts ?_ ?_⟩
    · intro tree mem field fieldMem
      rcases List.mem_map.mp mem with ⟨occurrence, occurrenceMem, rfl⟩
      have isSeen := (List.mem_filter.mp occurrenceMem).1
      exact fits occurrence (mem_seen.mp isSeen).1 field fieldMem
    · intro key mem
      rcases List.mem_filterMap.mp mem with ⟨occurrence, -, towards⟩
      exact Scope.of_branchTowards? towards
  · rintro ⟨sees, accepts⟩
    rcases filterMap_view?_seen fun occurrence mem =>
      sees occurrence (mem_seen.mp mem).1 (mem_seen.mp mem).2.1 with ⟨trees, keys⟩
    rw [← trees, branchKeys, ← keys] at accepts
    rcases accepts.exists_foldlM with ⟨merged, isMerged⟩
    rw [sees.visible_eq, isMerged]
    exact ⟨_, rfl⟩

end SelectionSet

end ResponseShape
