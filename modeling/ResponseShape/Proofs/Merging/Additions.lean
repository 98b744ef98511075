import ResponseShape.Merging.Merge
import ResponseShape.Proofs.Document.Equality
import ResponseShape.Proofs.Inclusion.Disjunction
import ResponseShape.Proofs.Ordered
import ResponseShape.Proofs.Scope.Satisfaction

/-!
# What merging adds

Invariants of merging, in the fields, spreads and branches merged so far. Each step keeps them
(`MergeTarget.HasFields.mergeField` and the like), so they hold of all that is merged
(`MergeTarget.hasMerged_of_foldlM`): conditions are those of all merged fields of a key together,
keys are those of the merged parts in the order of their first appearance, and nothing that is
direct is added again.
-/

namespace ResponseShape

/-- Fields select the same data if they agree in all that says which data that is. -/
theorem FieldSummary.selectsSame_iff {field other : FieldSummary} :
    field.selectsSame other = true ↔ field.name = other.name ∧ field.aliasName = other.aliasName
      ∧ field.type = other.type ∧ field.arguments = other.arguments := by
  simp only [selectsSame, Bool.and_eq_true, beq_iff_eq, and_assoc]

namespace Field

/-- The field under other conditions. -/
def under (field : Field) (conditions : Option Alternatives) : Field :=
  { field with summary := { field.summary with conditions } }

/-- Whether the conditions of the field hold. -/
def holds (assignment : Assignment) (field : Field) : Bool :=
  field.summary.conditions.all (·.holds assignment)

/-- Whether the conditions of the field can hold where the given ones do. -/
def canHoldIn (known : Option ConditionGroup) (field : Field) : Bool :=
  field.summary.conditions.all (·.canHoldIn known)

variable {field : Field} {known : Option ConditionGroup} {assignment : Assignment}

theorem any_not_canHoldIn : (field.summary.conditions.any fun conditions =>
    !conditions.canHoldIn known) = !field.canHoldIn known := by
  simp only [canHoldIn]
  cases field.summary.conditions <;> rfl

theorem canHoldIn_iff : field.canHoldIn known = true ↔
    ∃ assignment, known.all (·.holds assignment) = true ∧ field.holds assignment = true := by
  simp only [canHoldIn, holds]
  cases field.summary.conditions with
  | none =>
      refine iff_of_true rfl ?_
      cases known with
      | none => exact ⟨fun _ => true, rfl, rfl⟩
      | some group =>
          rcases group.exists_holds with ⟨assignment, groupHolds⟩
          exact ⟨assignment, groupHolds, rfl⟩
  | some conditions => simp [Alternatives.canHoldIn_iff]

/-- Where the given conditions hold, what is left of those of a field says what they say. -/
theorem holds_remainder (canHold : field.canHoldIn known = true)
    (knownHolds : known.all (·.holds assignment) = true) :
    (field.summary.conditions.bind (·.remainderIn known)).all (·.holds assignment)
      = field.holds assignment := by
  simp only [canHoldIn, holds] at canHold ⊢
  cases isConditions : field.summary.conditions with
  | none => rfl
  | some conditions =>
      rw [isConditions, Option.all_some] at canHold
      exact Alternatives.holds_remainderIn canHold knownHolds

end Field

namespace MergeTarget

variable {target : MergeTarget} {additions next : Additions} {field existing direct : Field}
  {contributed : Bool} {conditions : Option Alternatives} {assignment : Assignment}

/-- The direct field of a response key. -/
def directField? (target : MergeTarget) (responseKey : Name) : Option Field :=
  target.direct.bind (·.field? responseKey)

/-- All that merging a field can do. -/
inductive MergesField (target : MergeTarget) (additions : Additions) (field : Field) :
    Additions → Prop where
  | refused (refuses : field.canHoldIn target.known = false) :
      MergesField target additions field additions
  | widened {direct : Field} (canHold : field.canHoldIn target.known = true)
      (isDirect : target.directField? field.responseKey = some direct)
      (same : direct.summary.selectsSame field.summary = true) :
      MergesField target additions field
        (widen additions direct (field.summary.conditions.bind (·.remainderIn target.known))).1
  | united {existing : Field} (canHold : field.canHoldIn target.known = true)
      (notDirect : target.directField? field.responseKey = none)
      (isAdded : additions.field? field.responseKey = some existing)
      (same : existing.summary.selectsSame field.summary = true) :
      MergesField target additions field
        (unite additions existing (field.summary.conditions.bind (·.remainderIn target.known)))
  | added {fresh : Field} (canHold : field.canHoldIn target.known = true)
      (notDirect : target.directField? field.responseKey = none)
      (notAdded : additions.field? field.responseKey = none)
      (adopted : target.adopted field (field.summary.conditions.bind (·.remainderIn target.known))
        = .ok fresh) :
      MergesField target additions field { additions with fields := additions.fields ++ [fresh] }

theorem ensureSame_eq_ok {done : Unit} (run : target.ensureSame existing field = .ok done) :
    existing.summary.selectsSame field.summary = true := by
  simp only [ensureSame] at run
  split at run
  next same => exact same
  next => cases run

theorem mergesField_of_mergeField
    (run : target.mergeField additions field = .ok (next, contributed)) :
    target.MergesField additions field next := by
  simp only [mergeField, Field.any_not_canHoldIn, bind, Except.bind, pure, Except.pure] at run
  cases canHold : field.canHoldIn target.known with
  | false =>
      rw [canHold] at run
      rcases Prod.mk.inj (Except.ok.inj run) with ⟨rfl, -⟩
      exact .refused canHold
  | true =>
      simp only [canHold, Bool.not_true, Bool.false_eq_true, if_false] at run
      split at run
      next direct isDirect =>
        split at run
        next => cases run
        next done same =>
          have isNext : _ = next := congrArg Prod.fst (Except.ok.inj run)
          rw [← isNext]
          exact .widened canHold isDirect (ensureSame_eq_ok same)
      next notDirect =>
        split at run
        next existing isAdded =>
          split at run
          next => cases run
          next done same =>
            rcases Prod.mk.inj (Except.ok.inj run) with ⟨rfl, -⟩
            exact .united canHold notDirect isAdded (ensureSame_eq_ok same)
        next notAdded =>
          split at run
          next => cases run
          next fresh adopts =>
            rcases Prod.mk.inj (Except.ok.inj run) with ⟨rfl, -⟩
            exact .added canHold notDirect notAdded adopts

theorem responseKey_of_directField? {key : Name}
    (isDirect : target.directField? key = some direct) :
    direct.responseKey = key := by
  simp only [directField?, Option.bind_eq_some_iff] at isDirect
  rcases isDirect with ⟨tree, -, found⟩
  simpa using List.find?_some found

section Widening

variable {incoming : Option Alternatives}

theorem widened?_update {value : Field} {key : Name} (isKey : value.responseKey = key)
    (other : Name) :
    Additions.widened? { additions with
        widened := updateOrAppend (·.responseKey == key) (fun _ => value) value additions.widened }
      other = if other = key then some value else additions.widened? other :=
  find?_updateOrAppend isKey _ other

/-- All that widening can do: nothing, where that makes no difference, or put the field under wider
conditions. -/
theorem widen_cases
    (isUnder : (additions.widened? direct.responseKey).getD direct = direct.under conditions) :
    ∃ wider, (∀ assignment, wider.all (·.holds assignment)
        = (conditions.all (·.holds assignment) || incoming.all (·.holds assignment)))
      ∧ (((widen additions direct incoming).1 = additions ∧ wider = conditions)
        ∨ (widen additions direct incoming).1 = { additions with
          widened := updateOrAppend (·.responseKey == direct.responseKey)
            (fun _ => direct.under wider) (direct.under wider) additions.widened }) := by
  simp only [widen, isUnder]
  split
  next isNone =>
    have : conditions = none := isNone
    subst this
    exact ⟨none, fun _ => rfl, Or.inl ⟨rfl, rfl⟩⟩
  next known isSome =>
    have : conditions = some known := isSome
    subst this
    split
    next same =>
      refine ⟨some known, fun assignment => ?_, Or.inl ⟨rfl, rfl⟩⟩
      rw [← Alternatives.holds_union]
      cases union : Alternatives.union (some known) incoming with
      | none => simp [union] at same
      | some wider =>
          rw [union] at same
          exact (Alternatives.holds_of_beq (by simpa using same)).symm
    next => exact ⟨_, fun _ => Alternatives.holds_union _ _, Or.inr rfl⟩

end Widening

/-- Whether a field is a merged one as seen from the place. -/
structure Adopts (target : MergeTarget) (source field : Field) : Prop where
  summary : field.summary = { source.summary with conditions := field.summary.conditions }
  selectionSet : (source.selectionSet = none ∧ field.selectionSet = none)
    ∨ ∃ set entity place, source.selectionSet = some set
      ∧ target.entities.entity? (target.place.entity.location.child source.responseKey
        source.summary.type.innerName) = some entity
      ∧ target.place.below target.schema entity source.summary.type.innerName = .ok place
      ∧ field.selectionSet = some ⟨place, none⟩

theorem Adopts.responseKey {source : Field} (adopts : target.Adopts source field) :
    field.responseKey = source.responseKey := by
  rw [Field.responseKey, adopts.summary]
  rfl

theorem Adopts.selectsSame {source : Field} (adopts : target.Adopts source field) :
    field.summary.selectsSame source.summary = true := by
  rw [FieldSummary.selectsSame_iff, adopts.summary]
  exact ⟨rfl, rfl, rfl, rfl⟩

theorem adopts_of_adopted {fresh : Field} (adopted : target.adopted field conditions = .ok fresh) :
    target.Adopts field fresh ∧ fresh.summary.conditions = conditions := by
  simp only [MergeTarget.adopted, bind, Except.bind, pure, Except.pure] at adopted
  split at adopted
  next isLeaf =>
    rcases Except.ok.inj adopted with rfl
    exact ⟨⟨rfl, Or.inl ⟨isLeaf, rfl⟩⟩, rfl⟩
  next set isComposite =>
    split at adopted
    next => cases adopted
    next entity found =>
      split at adopted
      next => cases adopted
      next place isBelow =>
        rcases Except.ok.inj adopted with rfl
        exact ⟨⟨rfl, Or.inr ⟨set, entity, place, isComposite, found, isBelow, rfl⟩⟩, rfl⟩

/-- Whether a field can hold at the place and is not a direct one. -/
def isNew (target : MergeTarget) (field : Field) : Bool :=
  field.canHoldIn target.known && (target.directField? field.responseKey).isNone

/-- What an added field has to do with the fields merged so far. -/
structure IsMerged (target : MergeTarget) (merged : List Field) (added : Field) : Prop where
  adopted : ∃ source ∈ merged, target.Adopts source added
  conditions : ∀ assignment, target.known.all (·.holds assignment) = true →
    (added.holds assignment = true ↔ ∃ source ∈ merged,
      source.responseKey = added.responseKey ∧ source.holds assignment = true)
  agrees : ∀ source ∈ merged, source.canHoldIn target.known = true →
    source.responseKey = added.responseKey →
      added.summary.selectsSame source.summary = true

/-- What a direct field, as it is now, has to do with the fields merged so far. -/
structure IsWidened (target : MergeTarget) (merged : List Field) (direct current : Field) :
    Prop where
  isUnder : current = direct.under current.summary.conditions
  conditions : ∀ assignment, target.known.all (·.holds assignment) = true →
    (current.holds assignment = true ↔ direct.holds assignment = true ∨ ∃ source ∈ merged,
      source.responseKey = direct.responseKey ∧ source.holds assignment = true)
  agrees : ∀ source ∈ merged, source.canHoldIn target.known = true →
    source.responseKey = direct.responseKey →
      direct.summary.selectsSame source.summary = true

/-- What was added and widened once some fields are merged. -/
structure HasFields (target : MergeTarget) (merged : List Field) (additions : Additions) :
    Prop where
  keys : additions.fields.map (·.responseKey)
    = distinct ((merged.filter target.isNew).map (·.responseKey))
  added : ∀ field ∈ additions.fields, target.IsMerged merged field
  widened : ∀ key direct, target.directField? key = some direct →
    target.IsWidened merged direct ((additions.widened? key).getD direct)

theorem hasFields_empty : target.HasFields [] .empty where
  keys := rfl
  added := by simp [Additions.empty]
  widened key direct _ := ⟨rfl, by simp [Additions.widened?, Additions.empty], by simp⟩

section Fields

variable {merged : List Field} {source added current : Field}

theorem exists_merged_append {key : Name} :
    (∃ source ∈ merged ++ [field], source.responseKey = key ∧ source.holds assignment = true) ↔
      (∃ source ∈ merged, source.responseKey = key ∧ source.holds assignment = true)
        ∨ (field.responseKey = key ∧ field.holds assignment = true) := by
  simp [or_and_right, exists_or]

/-- A field that has another key, or cannot hold, takes no part in what is said of a key. -/
theorem not_holds_of_other {key : Name}
    (isOther : field.canHoldIn target.known = true → field.responseKey ≠ key)
    (knownHolds : target.known.all (·.holds assignment) = true) :
    ¬(field.responseKey = key ∧ field.holds assignment = true) := by
  rintro ⟨isKey, holds⟩
  exact isOther (Field.canHoldIn_iff.mpr ⟨assignment, knownHolds, holds⟩) isKey

theorem IsMerged.append_other (isMerged : target.IsMerged merged added)
    (isOther : field.canHoldIn target.known = true → field.responseKey ≠ added.responseKey) :
    target.IsMerged (merged ++ [field]) added := by
  constructor
  · rcases isMerged.adopted with ⟨source, sourceMem, adopts⟩
    exact ⟨source, List.mem_append_left _ sourceMem, adopts⟩
  · intro assignment knownHolds
    rw [exists_merged_append, isMerged.conditions assignment knownHolds,
      or_iff_left (not_holds_of_other isOther knownHolds)]
  · intro source mem canHold isKey
    rcases List.mem_append.mp mem with old | isField
    · exact isMerged.agrees source old canHold isKey
    · rw [List.mem_singleton.mp isField] at canHold isKey
      exact absurd isKey (isOther canHold)

theorem IsWidened.append_other (isWidened : target.IsWidened merged direct current)
    (isOther : field.canHoldIn target.known = true → field.responseKey ≠ direct.responseKey) :
    target.IsWidened (merged ++ [field]) direct current := by
  constructor
  · exact isWidened.isUnder
  · intro assignment knownHolds
    rw [exists_merged_append, isWidened.conditions assignment knownHolds,
      or_iff_left (not_holds_of_other isOther knownHolds)]
  · intro source mem canHold isKey
    rcases List.mem_append.mp mem with old | isField
    · exact isWidened.agrees source old canHold isKey
    · rw [List.mem_singleton.mp isField] at canHold isKey
      exact absurd isKey (isOther canHold)

/-- A field of the same key weakens what was added. -/
theorem IsMerged.append_same (isMerged : target.IsMerged merged added)
    (canHold : field.canHoldIn target.known = true)
    (isKey : field.responseKey = added.responseKey)
    (same : added.summary.selectsSame field.summary = true) :
    target.IsMerged (merged ++ [field]) (added.under (Alternatives.union added.summary.conditions
      (field.summary.conditions.bind (·.remainderIn target.known)))) := by
  constructor
  · rcases isMerged.adopted with ⟨source, sourceMem, adopts⟩
    refine ⟨source, List.mem_append_left _ sourceMem, ?_, adopts.selectionSet⟩
    rw [Field.under, adopts.summary]
  · intro assignment knownHolds
    have ofField := Field.holds_remainder canHold knownHolds
    have ofAdded := isMerged.conditions assignment knownHolds
    rw [exists_merged_append, Field.holds, Field.under, Alternatives.holds_union, Bool.or_eq_true,
      ofField]
    exact or_congr ofAdded (and_iff_right isKey).symm
  · intro source mem sourceCanHold sourceKey
    rcases List.mem_append.mp mem with old | isField
    · exact isMerged.agrees source old sourceCanHold sourceKey
    · rw [List.mem_singleton.mp isField]
      exact same

/-- A field of the same key widens the direct field. -/
theorem IsWidened.append_same {wider : Option Alternatives}
    (isWidened : target.IsWidened merged direct current)
    (canHold : field.canHoldIn target.known = true)
    (isKey : field.responseKey = direct.responseKey)
    (same : direct.summary.selectsSame field.summary = true)
    (holdsWider : ∀ assignment, wider.all (·.holds assignment) = (current.holds assignment
      || (field.summary.conditions.bind (·.remainderIn target.known)).all (·.holds assignment))) :
    target.IsWidened (merged ++ [field]) direct (direct.under wider) := by
  constructor
  · rfl
  · intro assignment knownHolds
    have ofField := Field.holds_remainder canHold knownHolds
    have ofCurrent := isWidened.conditions assignment knownHolds
    rw [exists_merged_append, Field.holds, Field.under, holdsWider, Bool.or_eq_true, ofField,
      ← or_assoc]
    exact or_congr ofCurrent (and_iff_right isKey).symm
  · intro source mem sourceCanHold sourceKey
    rcases List.mem_append.mp mem with old | isField
    · exact isWidened.agrees source old sourceCanHold sourceKey
    · rw [List.mem_singleton.mp isField]
      exact same

namespace HasFields

theorem nodup (has : target.HasFields merged additions) :
    (additions.fields.map (·.responseKey)).Nodup := by
  rw [has.keys]
  exact nodup_distinct _

theorem notDirect (has : target.HasFields merged additions) (mem : field ∈ additions.fields) :
    target.directField? field.responseKey = none := by
  have isKey := List.mem_map_of_mem (f := (·.responseKey)) mem
  rw [has.keys, mem_distinct, List.mem_map] at isKey
  rcases isKey with ⟨source, sourceMem, same⟩
  have isNew := (List.mem_filter.mp sourceMem).2
  rw [MergeTarget.isNew, Bool.and_eq_true, Option.isNone_iff_eq_none, same] at isNew
  exact isNew.2

/-- A merged field that can hold is direct or was added. -/
theorem exists_field? (has : target.HasFields merged additions) (mem : source ∈ merged)
    (canHold : source.canHoldIn target.known = true)
    (notDirect : target.directField? source.responseKey = none) :
    ∃ field, additions.field? source.responseKey = some field := by
  have isKey : source.responseKey ∈ additions.fields.map (·.responseKey) := by
    rw [has.keys, mem_distinct]
    exact List.mem_map_of_mem (List.mem_filter.mpr ⟨mem, by simp [isNew, canHold, notDirect]⟩)
  rcases List.mem_map.mp isKey with ⟨field, fieldMem, same⟩
  rw [← Option.isSome_iff_exists, Additions.field?, List.find?_isSome]
  exact ⟨field, fieldMem, by simpa using same⟩

/-- A field that cannot hold at the place changes nothing. -/
theorem refuse (has : target.HasFields merged additions)
    (refuses : field.canHoldIn target.known = false) :
    target.HasFields (merged ++ [field]) additions := by
  have never {key : Name} (canHold : field.canHoldIn target.known = true) :
      field.responseKey ≠ key := by
    rw [refuses] at canHold
    cases canHold
  constructor
  · rw [distinct_map_filter_append, has.keys]
    simp [isNew, refuses]
  · exact fun added mem => (has.added added mem).append_other never
  · exact fun key direct isDirect => (has.widened key direct isDirect).append_other never

/-- A field that is also direct widens the direct one. -/
theorem widen (has : target.HasFields merged additions)
    (canHold : field.canHoldIn target.known = true)
    (isDirect : target.directField? field.responseKey = some direct)
    (same : direct.summary.selectsSame field.summary = true) :
    target.HasFields (merged ++ [field]) (MergeTarget.widen additions direct
      (field.summary.conditions.bind (·.remainderIn target.known))).1 := by
  have sameKey := responseKey_of_directField? isDirect
  have isWidened := has.widened _ _ isDirect
  have isUnder := isWidened.isUnder
  rw [← sameKey] at isUnder isWidened
  rcases @widen_cases additions direct _
    (field.summary.conditions.bind (·.remainderIn target.known)) isUnder with
    ⟨wider, holdsWider, changes⟩
  generalize (MergeTarget.widen additions direct
    (field.summary.conditions.bind (·.remainderIn target.known))).1 = next at changes ⊢
  have underKey : (direct.under wider).responseKey = direct.responseKey := rfl
  have sameFields : next.fields = additions.fields := by
    rcases changes with ⟨rfl, -⟩ | rfl <;> rfl
  have isWider : (next.widened? direct.responseKey).getD direct = direct.under wider := by
    rcases changes with ⟨rfl, rfl⟩ | rfl
    · exact isUnder
    · rw [widened?_update underKey, if_pos rfl, Option.getD_some]
  -- What is said of other direct fields stays.
  have others {key : Name} (differs : key ≠ direct.responseKey) :
      next.widened? key = additions.widened? key := by
    rcases changes with ⟨rfl, -⟩ | rfl
    · rfl
    · rw [widened?_update underKey, if_neg differs]
  constructor
  · rw [sameFields, distinct_map_filter_append, has.keys]
    simp [isNew, isDirect]
  · intro added mem
    rw [sameFields] at mem
    apply (has.added added mem).append_other
    intro _ isSame
    have notDirect := has.notDirect mem
    rw [← isSame, isDirect] at notDirect
    cases notDirect
  · intro key known isKnown
    by_cases isKey : key = direct.responseKey
    · subst isKey
      rw [sameKey, isDirect, Option.some.injEq] at isKnown
      subst isKnown
      rw [isWider]
      exact isWidened.append_same canHold sameKey.symm same holdsWider
    · rw [others isKey]
      apply (has.widened key known isKnown).append_other
      intro _ isSame
      rw [responseKey_of_directField? isKnown, ← sameKey] at isSame
      exact isKey isSame.symm

/-- A field that was added before is weakened. -/
theorem unite (has : target.HasFields merged additions)
    (canHold : field.canHoldIn target.known = true)
    (notDirect : target.directField? field.responseKey = none)
    (isAdded : additions.field? field.responseKey = some existing)
    (same : existing.summary.selectsSame field.summary = true) :
    target.HasFields (merged ++ [field]) (MergeTarget.unite additions existing
      (field.summary.conditions.bind (·.remainderIn target.known))) := by
  have isKey : existing.responseKey = field.responseKey := by simpa using List.find?_some isAdded
  have existingMem := List.mem_of_find?_eq_some isAdded
  rcases updateOrAppend_cases (·.responseKey == existing.responseKey)
      (fun added : Field => added.under (Alternatives.union added.summary.conditions
        (field.summary.conditions.bind (·.remainderIn target.known))))
      existing additions.fields with
    ⟨none, -⟩ | ⟨before, known, after, split, -, isFirst, result⟩
  · have notFound := none existing existingMem
    simp at notFound
  have knownMem : known ∈ additions.fields := by simp [split]
  have isExisting : known = existing :=
    List.inj_on_of_nodup_map has.nodup knownMem existingMem (by simpa using isFirst)
  subst isExisting
  have others {added : Field} (mem : added ∈ before ++ after) :
      target.IsMerged (merged ++ [field]) added := by
    have nodup := has.nodup
    rw [split, List.map_append, List.map_cons, List.nodup_middle, ← List.map_append,
      List.nodup_cons] at nodup
    apply IsMerged.append_other
    · apply has.added
      rw [split]
      exact List.perm_middle.symm.subset (List.mem_cons_of_mem _ mem)
    · intro _ isSame
      exact nodup.1 (isKey.trans isSame ▸ List.mem_map_of_mem mem)
  constructor
  · rw [distinct_map_filter_append, ← has.keys, if_pos (by simp [isNew, canHold, notDirect]),
      appendNew_map_key (fun _ _ => Bool.beq_comm), if_pos]
    · have sameKeys := @map_updateOrAppend _ _ (·.responseKey == known.responseKey)
        (fun added : Field => added.under (Alternatives.union added.summary.conditions
          (field.summary.conditions.bind (·.remainderIn target.known)))) known
        additions.fields (·.responseKey) fun _ _ _ => rfl
      rcases sameKeys with same | ⟨none, -⟩
      · exact same
      · have notFound := none known knownMem
        simp at notFound
    · rw [List.find?_isSome]
      exact ⟨known, knownMem, by simpa using isKey⟩
  · intro added mem
    have isChanged : added ∈ before ++ known.under (Alternatives.union known.summary.conditions
        (field.summary.conditions.bind (·.remainderIn target.known))) :: after := by
      rw [← result]
      exact mem
    rcases List.mem_cons.mp (List.perm_middle.subset isChanged) with rfl | isOther
    · exact (has.added known knownMem).append_same canHold isKey.symm same
    · exact others isOther
  · intro key direct isDirect
    apply (has.widened key direct isDirect).append_other
    intro _ isSame
    rw [responseKey_of_directField? isDirect] at isSame
    rw [isSame, isDirect] at notDirect
    cases notDirect

/-- A field of a new key is added. -/
theorem add {fresh : Field} (has : target.HasFields merged additions)
    (canHold : field.canHoldIn target.known = true)
    (notDirect : target.directField? field.responseKey = none)
    (notAdded : additions.field? field.responseKey = none)
    (adopted : target.adopted field (field.summary.conditions.bind (·.remainderIn target.known))
      = .ok fresh) :
    target.HasFields (merged ++ [field])
      { additions with fields := additions.fields ++ [fresh] } := by
  rcases adopts_of_adopted adopted with ⟨adopts, isLeft⟩
  have isKey := adopts.responseKey
  have isFirst {source : Field} (mem : source ∈ merged)
      (sourceCanHold : source.canHoldIn target.known = true)
      (sourceKey : source.responseKey = field.responseKey) : False := by
    rw [← sourceKey] at notDirect notAdded
    rcases has.exists_field? mem sourceCanHold notDirect with ⟨known, isKnown⟩
    rw [notAdded] at isKnown
    cases isKnown
  constructor
  · rw [distinct_map_filter_append, ← has.keys, if_pos (by simp [isNew, canHold, notDirect]),
      appendNew_map_key (fun _ _ => Bool.beq_comm), if_neg, List.map_append, List.map_singleton,
      isKey]
    rw [Additions.field?] at notAdded
    simp [notAdded]
  · intro added mem
    rcases List.mem_append.mp mem with old | isFresh
    · apply (has.added added old).append_other
      intro _ isSame
      have none := List.find?_eq_none.mp notAdded added old
      simp [isSame] at none
    · rw [List.mem_singleton.mp isFresh]
      constructor
      · exact ⟨field, List.mem_append_right _ (List.mem_singleton_self _), adopts⟩
      · intro assignment knownHolds
        rw [exists_merged_append, Field.holds, isLeft, Field.holds_remainder canHold knownHolds,
          isKey]
        simp only [true_and]
        refine (or_iff_right ?_).symm
        rintro ⟨source, sourceMem, sourceKey, holds⟩
        exact isFirst sourceMem (Field.canHoldIn_iff.mpr ⟨assignment, knownHolds, holds⟩) sourceKey
      · intro source sourceMem sourceCanHold sourceKey
        rcases List.mem_append.mp sourceMem with old | isField
        · exact absurd (sourceKey.trans isKey) fun sourceKey => isFirst old sourceCanHold sourceKey
        · rw [List.mem_singleton.mp isField]
          exact adopts.selectsSame
  · intro key direct isDirect
    apply (has.widened key direct isDirect).append_other
    intro _ isSame
    rw [responseKey_of_directField? isDirect] at isSame
    rw [isSame, isDirect] at notDirect
    cases notDirect

theorem mergeField (has : target.HasFields merged additions)
    (run : target.mergeField additions field = .ok (next, contributed)) :
    target.HasFields (merged ++ [field]) next := by
  cases mergesField_of_mergeField run with
  | refused refuses => exact has.refuse refuses
  | widened canHold isDirect same => exact has.widen canHold isDirect same
  | united canHold notDirect isAdded same => exact has.unite canHold notDirect isAdded same
  | added canHold notDirect notAdded adopted => exact has.add canHold notDirect notAdded adopted

end HasFields

end Fields

theorem MergesField.others (merges : target.MergesField additions field next) :
    next.spreads = additions.spreads ∧ next.branches = additions.branches := by
  cases merges with
  | refused => exact ⟨rfl, rfl⟩
  | widened =>
      simp only [widen]
      split
      next => exact ⟨rfl, rfl⟩
      next => split <;> exact ⟨rfl, rfl⟩
  | united => exact ⟨rfl, rfl⟩
  | added => exact ⟨rfl, rfl⟩

/-- What was added once some spreads are merged. -/
structure HasSpreads (target : MergeTarget) (merged : List Spread) (additions : Additions) :
    Prop where
  names : additions.spreads.map (·.name) = distinct ((merged.filter fun spread =>
    (target.direct.bind (·.spread? spread.name)).isNone).map (·.name))
  origin : ∀ spread ∈ additions.spreads, ∃ source ∈ merged,
    spread.conditions = source.conditions.bind (·.remainderIn target.known)

theorem HasSpreads.mergeSpread {merged : List Spread} {spread : Spread}
    (has : target.HasSpreads merged additions) :
    target.HasSpreads (merged ++ [spread]) (target.mergeSpread additions spread).1 := by
  have old {known : Spread} (mem : known ∈ additions.spreads) : ∃ source ∈ merged ++ [spread],
      known.conditions = source.conditions.bind (·.remainderIn target.known) := by
    rcases has.origin known mem with ⟨source, sourceMem, same⟩
    exact ⟨source, List.mem_append_left _ sourceMem, same⟩
  have names := distinct_map_filter_append (·.name)
    (fun spread => (target.direct.bind (·.spread? spread.name)).isNone) merged spread
  have lookup : additions.spreads.find? (·.name == spread.name)
      = additions.spread? spread.name := rfl
  rw [← has.names, appendNew_map_key (fun _ _ => Bool.beq_comm), lookup] at names
  simp only [MergeTarget.mergeSpread]
  cases isDirect : target.direct.bind (·.spread? spread.name) with
  | some known =>
      rw [isDirect] at names
      exact ⟨by simpa using names.symm, fun known mem => old mem⟩
  | none =>
      rw [isDirect] at names
      cases isAdded : additions.spread? spread.name with
      | some known =>
          rw [isAdded] at names
          exact ⟨by simpa using names.symm, fun known mem => old mem⟩
      | none =>
          rw [isAdded] at names
          refine ⟨by simpa using names.symm, fun known mem => ?_⟩
          rcases List.mem_append.mp mem with isOld | isFresh
          · exact old isOld
          · rw [List.mem_singleton.mp isFresh]
            exact ⟨spread, List.mem_append_right _ (List.mem_singleton_self _), rfl⟩

/-- What was added once some narrowings are merged that the place can branch by. -/
structure HasBranches (target : MergeTarget) (merged : List Narrowing) (additions : Additions) :
    Prop where
  keys : additions.branches.map (·.key)
    = distinct (merged.filter fun key => (target.direct.bind (·.branch? key)).isNone)
  places : ∀ branch ∈ additions.branches, branch.selectionSet.direct = none
    ∧ target.place.narrowed target.schema branch.key = .ok branch.selectionSet.place

/-- Merging a branch keeps the account of branches, and changes nothing else. -/
theorem HasBranches.mergeBranch {merged : List Narrowing} {key : Narrowing}
    (has : target.HasBranches merged additions)
    (run : target.mergeBranch additions key = .ok (next, contributed)) :
    target.HasBranches (merged ++ [key]) next ∧ next.fields = additions.fields
      ∧ next.widened = additions.widened ∧ next.spreads = additions.spreads := by
  have keys := distinct_map_filter_append id
    (fun key => (target.direct.bind (·.branch? key)).isNone) merged key
  simp only [List.map_id] at keys
  have lookup : additions.branches.find? (·.key == key) = additions.branch? key := rfl
  rw [← has.keys, id_eq, appendNew_map_key (fun _ _ => Narrowing.beq_comm), lookup] at keys
  simp only [MergeTarget.mergeBranch, bind, Except.bind, pure, Except.pure] at run
  cases isDirect : target.direct.bind (·.branch? key) with
  | some known =>
      rw [isDirect] at keys run
      rcases Prod.mk.inj (Except.ok.inj run) with ⟨rfl, -⟩
      exact ⟨⟨by simpa using keys.symm, has.places⟩, rfl, rfl, rfl⟩
  | none =>
      rw [isDirect] at keys run
      cases isAdded : additions.branch? key with
      | some known =>
          rw [isAdded] at keys run
          rcases Prod.mk.inj (Except.ok.inj run) with ⟨rfl, -⟩
          exact ⟨⟨by simpa using keys.symm, has.places⟩, rfl, rfl, rfl⟩
      | none =>
          rw [isAdded] at keys run
          simp only [Option.isSome_none, Bool.or_self, Bool.false_eq_true, if_false] at run
          split at run
          next => cases run
          next place narrowed =>
            rcases Prod.mk.inj (Except.ok.inj run) with ⟨rfl, -⟩
            refine ⟨⟨by simpa using keys.symm, ?_⟩, rfl, rfl, rfl⟩
            intro branch mem
            rcases List.mem_append.mp mem with isOld | isFresh
            · exact has.places branch isOld
            · rw [List.mem_singleton.mp isFresh]
              exact ⟨rfl, narrowed⟩

/-- What was added once some trees, and narrowings that the place can branch by, are merged. -/
structure HasMerged (target : MergeTarget) (trees : List SelectionTree) (keys : List Narrowing)
    (additions : Additions) : Prop where
  fields : target.HasFields (trees.flatMap (·.fields)) additions
  spreads : target.HasSpreads (trees.flatMap (·.spreads)) additions
  branches : target.HasBranches keys additions

theorem hasMerged_empty : target.HasMerged [] [] .empty where
  fields := hasFields_empty
  spreads := ⟨rfl, by simp [Additions.empty]⟩
  branches := ⟨rfl, by simp [Additions.empty]⟩

theorem HasFields.congr {merged : List Field} (has : target.HasFields merged additions)
    (fields : next.fields = additions.fields) (widened : next.widened = additions.widened) :
    target.HasFields merged next where
  keys := by rw [fields, has.keys]
  added field mem := has.added field (by rwa [← fields])
  widened key direct isDirect := by
    have same : next.widened? key = additions.widened? key := by
      simp only [Additions.widened?, widened]
    rw [same]
    exact has.widened key direct isDirect

theorem HasSpreads.congr {merged : List Spread} (has : target.HasSpreads merged additions)
    (spreads : next.spreads = additions.spreads) : target.HasSpreads merged next where
  names := by rw [spreads, has.names]
  origin spread mem := has.origin spread (by rwa [← spreads])

theorem HasBranches.congr {merged : List Narrowing} (has : target.HasBranches merged additions)
    (branches : next.branches = additions.branches) : target.HasBranches merged next where
  keys := by rw [branches, has.keys]
  places branch mem := has.places branch (by rwa [← branches])

section Runs

variable {trees : List SelectionTree} {keys : List Narrowing} {contributors : List Contributor}

theorem HasMerged.mergeSelections {tree : SelectionTree}
    (has : target.HasMerged trees keys additions)
    (run : target.mergeSelections additions tree = .ok (next, contributed)) :
    target.HasMerged (trees ++ [tree]) keys next := by
  simp only [MergeTarget.mergeSelections, bind, Except.bind, pure, Except.pure] at run
  split at run
  next => cases run
  next withFields fieldsRun =>
    have ofFields := foldlM_induction
      (motive := fun done (state : Additions × Bool) =>
        target.HasFields (trees.flatMap (·.fields) ++ done) state.1
          ∧ state.1.spreads = additions.spreads ∧ state.1.branches = additions.branches)
      ⟨by simpa using has.fields, rfl, rfl⟩ ?_ fieldsRun
    · rcases ofFields with ⟨hasFields, sameSpreads, sameBranches⟩
      have isNext : _ = next := congrArg Prod.fst (Except.ok.inj run)
      have ofSpreads := @foldl_induction Spread (Additions × Bool)
        (fun done state => target.HasSpreads (trees.flatMap (·.spreads) ++ done) state.1
          ∧ state.1.fields = withFields.1.fields ∧ state.1.widened = withFields.1.widened
          ∧ state.1.branches = withFields.1.branches) withFields tree.spreads
        (fun state spread =>
          ((target.mergeSpread state.1 spread).1, state.2 || (target.mergeSpread state.1 spread).2))
        ⟨by simpa using has.spreads.congr sameSpreads, rfl, rfl, rfl⟩ ?_
      · rw [isNext] at ofSpreads
        rcases ofSpreads with ⟨hasSpreads, keepsFields, keepsWidened, keepsBranches⟩
        constructor
        · rw [List.flatMap_append, List.flatMap_singleton]
          exact hasFields.congr keepsFields keepsWidened
        · rw [List.flatMap_append, List.flatMap_singleton]
          exact hasSpreads
        · exact has.branches.congr (keepsBranches.trans sameBranches)
      · rintro done spread before ⟨hasSpreads, keepsFields, keepsWidened, keepsBranches⟩
        rw [← List.append_assoc]
        refine ⟨hasSpreads.mergeSpread, ?_⟩
        simp only [MergeTarget.mergeSpread]
        split <;> exact ⟨keepsFields, keepsWidened, keepsBranches⟩
    · rintro done field before after ⟨hasFields, sameSpreads, sameBranches⟩ step
      split at step
      next => cases step
      next merged mergedRun =>
        rcases Except.ok.inj step with rfl
        rcases (mergesField_of_mergeField mergedRun).others with ⟨keepsSpreads, keepsBranches⟩
        rw [← List.append_assoc]
        exact ⟨hasFields.mergeField mergedRun, keepsSpreads.trans sameSpreads,
          keepsBranches.trans sameBranches⟩

end Runs

end MergeTarget

end ResponseShape
