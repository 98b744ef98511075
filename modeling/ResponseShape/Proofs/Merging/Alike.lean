import ResponseShape.Proofs.Merging.SideBySide
import ResponseShape.Proofs.Scope.Equality

/-!
# What is visible at equal places

Places compare without the order of tests, so sets can stand at equal places and yet differ. What is
visible at them is alike nonetheless (`SelectionSet.matches_visible`): the fields, with their
conditions, the branches, the spreads and the contributors are the same, in the same order, and the
sets behind fields and branches stand at equal places again. The entities need not be the same in
all that is registered either, only in what is registered for the sets' own entity.
-/

namespace ResponseShape

/-- Whether sets stand at equal places, with the same selections there. -/
structure SelectionSet.IsAlike (set other : SelectionSet) : Prop where
  place : (set.place == other.place) = true
  direct : set.direct = other.direct

/-- Whether fields are the same but for the places of their sets, which are equal. -/
structure Field.IsAlike (field other : Field) : Prop where
  summary : field.summary = other.summary
  selectionSet : Option.Rel SelectionSet.IsAlike field.selectionSet other.selectionSet

/-- Whether branches are the same but for the places of their sets, which are equal. -/
structure Branch.IsAlike (branch other : Branch) : Prop where
  key : branch.key = other.key
  selectionSet : branch.selectionSet.IsAlike other.selectionSet

/-- Whether the same was added in the same order. -/
structure Additions.IsAlike (additions other : Additions) : Prop where
  widened : additions.widened = other.widened
  fields : List.Forall₂ Field.IsAlike additions.fields other.fields
  branches : List.Forall₂ Branch.IsAlike additions.branches other.branches
  spreads : additions.spreads = other.spreads

/-- Whether the same is visible, and the same of it is direct or comes from elsewhere. -/
structure VisibleSelections.IsAlike (visible other : VisibleSelections) : Prop where
  place : (visible.place == other.place) = true
  strategy : visible.strategy = other.strategy
  fields : List.Forall₂ Field.IsAlike visible.fields other.fields
  branches : List.Forall₂ Branch.IsAlike visible.branches other.branches
  spreads : visible.spreads = other.spreads
  direct : visible.direct = other.direct
  additions : visible.additions.IsAlike other.additions
  contributors : visible.contributors = other.contributors

theorem SelectionSet.IsAlike.refl (set : SelectionSet) : set.IsAlike set := ⟨BEq.rfl, rfl⟩

theorem Field.IsAlike.refl (field : Field) : field.IsAlike field := by
  refine ⟨rfl, ?_⟩
  cases field.selectionSet with
  | none => exact .none
  | some set => exact .some (.refl set)

theorem Field.IsAlike.responseKey {field other : Field} (alike : field.IsAlike other) :
    field.responseKey = other.responseKey := by
  rw [Field.responseKey, alike.summary, Field.responseKey]

section Seeing

variable {schema : Schema} {place other : Place}

theorem Scope.IsAlike.contributionFrom_eq {scope other : Scope} (alike : scope.IsAlike other)
    (inside : Scope) :
    scope.contributionFrom schema inside = other.contributionFrom schema inside := by
  simp only [contributionFrom, branchBy, alike.implies_eq, alike.admits_eq, alike.effective?_eq,
    alike.type]

namespace Place.IsAlike

variable (alike : place.IsAlike other)

include alike

theorem isEnclosedLike_eq (candidate : Place) :
    place.isEnclosedLike candidate = other.isEnclosedLike candidate := by
  rw [isEnclosedLike, isEnclosedLike, alike.enclosing.length_eq]
  congr 1
  exact all_zip_congr (alike.enclosing.imp fun _ _ same mate => same.isWithin_eq mate) _

theorem originOf_eq (occurrence : Occurrence) :
    place.originOf occurrence = other.originOf occurrence := by
  have inLine : place.isInLineWith occurrence.place = other.isInLineWith occurrence.place := by
    rcases Scope.isAncestorOf_congr alike.scope.path occurrence.place.scope with ⟨above, below⟩
    rw [isInLineWith, isInLineWith, above, below]
    congr 1
    exact all_zip_congr (alike.enclosing.imp fun _ _ same mate =>
      (Scope.isAncestorOf_congr same.path mate).2) _
  rw [originOf, originOf, inLine]

theorem sighting?_eq : place.sighting? schema = other.sighting? schema := by
  funext occurrence
  rw [sighting?, sighting?, alike.isEnclosedLike_eq, alike.originOf_eq,
    alike.scope.contributionFrom_eq]

end Place.IsAlike

theorem Place.admits_of_view? {sighting : Sighting} {key : Narrowing}
    (sees : place.view? schema sighting.occurrence = some sighting)
    (branches : sighting.contribution = .branch key) : place.scope.admits key = true := by
  have towards := (Sighting.of_view? sees).2
  rw [Sighting.key?, branches] at towards
  exact (Scope.of_branchTowards? towards.symm).2

end Seeing

theorem Branch.IsAlike.refl (branch : Branch) : branch.IsAlike branch :=
  ⟨rfl, .refl branch.selectionSet⟩

/-- Alike additions to the same direct selections show the same. -/
theorem VisibleSelections.isAlike {visible other : VisibleSelections}
    (place : (visible.place == other.place) = true) (strategy : visible.strategy = other.strategy)
    (direct : visible.direct = other.direct) (additions : visible.additions.IsAlike other.additions)
    (contributors : visible.contributors = other.contributors) : visible.IsAlike other where
  place := place
  strategy := strategy
  fields := by
    have same (key : Name) : visible.additions.widened? key = other.additions.widened? key := by
      rw [Additions.widened?, Additions.widened?, additions.widened]
    simp only [fields, direct, same]
    exact List.rel_append (List.forall₂_same.mpr fun field _ => .refl field) additions.fields
  branches := by
    rw [branches, branches, direct]
    exact List.rel_append (List.forall₂_same.mpr fun branch _ => .refl branch) additions.branches
  spreads := by rw [spreads, spreads, direct, additions.spreads]
  direct := direct
  additions := additions
  contributors := contributors

/-- Whether targets of merging stand at equal places, with the same selections there. -/
structure MergeTarget.IsAlike (target other : MergeTarget) : Prop where
  schema : target.schema = other.schema
  place : target.place.IsAlike other.place
  direct : target.direct = other.direct

/-- Whether the entity of a composite field is there for a target to adopt the field. -/
def MergeTarget.Reaches (target : MergeTarget) (field : Field) : Prop :=
  field.selectionSet.isSome → ∃ entity, target.entities.entity?
      (target.place.entity.location.child field.responseKey field.summary.type.innerName)
        = some entity
    ∧ entity.location
      = target.place.entity.location.child field.responseKey field.summary.type.innerName

theorem Additions.IsAlike.widen {own whole : Additions} (states : own.IsAlike whole)
    (direct : Field) (incoming : Option Alternatives) :
    MergeTarget.Pairs Additions.IsAlike (MergeTarget.widen own direct incoming)
      (MergeTarget.widen whole direct incoming) := by
  have same : own.widened? direct.responseKey = whole.widened? direct.responseKey := by
    rw [Additions.widened?, Additions.widened?, states.widened]
  simp only [MergeTarget.widen, same]
  split
  next => exact ⟨rfl, states⟩
  next =>
    split
    next => exact ⟨rfl, states⟩
    next => exact ⟨rfl, by rw [states.widened], states.fields, states.branches, states.spreads⟩

namespace MergeTarget.IsAlike

variable {target other : MergeTarget} {own whole : Additions} {field : Field} {key : Narrowing}

section Steps

variable (alike : target.IsAlike other)

include alike

theorem known : ConditionGroup.TestAlike target.known other.known := alike.place.scope.testAlike

theorem ensureSame_eq {existing mate : Field} (same : existing.summary = mate.summary) :
    target.ensureSame existing field = other.ensureSame mate field := by
  rw [ensureSame, ensureSame, same, Place.type, Place.type, alike.place.scope.type]

theorem below (entity mate : Entity) (same : entity.location = mate.location) (type : Name) :
    Matches (fun place partner => (place == partner) = true)
      (target.place.below target.schema entity type)
      (other.place.below other.schema mate type) := by
  rw [Place.below, Place.below, alike.schema]
  refine (Matches.refl (Scope.forType other.schema type)).map ?_
  rintro scope _ rfl
  exact Place.beq_iff.mpr ⟨same,
    beq_of_forall₂ (Place.forall₂_scopes_of_beq alike.place.same), BEq.rfl⟩

theorem adopted (reaches : target.Reaches field) (otherReaches : other.Reaches field)
    (conditions : Option Alternatives) :
    Matches Field.IsAlike (target.adopted field conditions) (other.adopted field conditions) := by
  simp only [MergeTarget.adopted]
  cases isInner : field.selectionSet with
  | none => exact .ok ⟨rfl, .none⟩
  | some inner =>
      have location := (Place.of_beq alike.place.same).1
      rcases reaches (by rw [isInner]; rfl) with ⟨entity, found, isHere⟩
      rcases otherReaches (by rw [isInner]; rfl) with ⟨mate, isMate, isThere⟩
      simp only [found, isMate]
      refine (alike.below entity mate ?_ field.summary.type.innerName).bind ?_
      · rw [isHere, isThere, location]
      · intro place partner same
        exact .ok ⟨rfl, .some ⟨same, rfl⟩⟩

theorem mergeField (states : own.IsAlike whole) (reaches : target.Reaches field)
    (otherReaches : other.Reaches field) :
    Matches (Pairs Additions.IsAlike) (target.mergeField own field)
      (other.mergeField whole field) := by
  simp only [MergeTarget.mergeField, alike.known.canHoldIn_eq,
    alike.known.alternatives_remainderIn_eq, alike.direct]
  split
  next => exact .ok ⟨rfl, states⟩
  next =>
    split
    next existing isDirect =>
      rw [alike.ensureSame_eq rfl]
      exact (Matches.refl _).bind fun _ _ _ => .ok (states.widen _ _)
    next =>
      have found := find?_of_forall₂ (·.responseKey == field.responseKey)
        (·.responseKey == field.responseKey) states.fields
        fun _ _ same => by rw [same.responseKey]
      simp only [Additions.field?]
      rcases found with ⟨isNew, alsoNew⟩ | ⟨existing, mate, isOwn, isMate, same⟩
      · rw [isNew, alsoNew]
        refine (alike.adopted reaches otherReaches _).bind fun fresh partner same => ?_
        exact .ok ⟨rfl, states.widened, List.rel_append states.fields (.cons same .nil),
          states.branches, states.spreads⟩
      · simp only [isOwn, isMate, alike.ensureSame_eq same.summary]
        refine (Matches.refl _).bind fun _ _ _ => .ok ⟨rfl, states.widened, ?_, states.branches,
          states.spreads⟩
        exact forall₂_updateOrAppend states.fields
          (fun _ _ related => by rw [related.responseKey, same.responseKey])
          (fun _ _ related _ => ⟨by rw [related.summary], related.selectionSet⟩) same

theorem mergeSpread (states : own.IsAlike whole) (spread : Spread) :
    Pairs Additions.IsAlike (target.mergeSpread own spread) (other.mergeSpread whole spread) := by
  have same : own.spread? spread.name = whole.spread? spread.name := by
    rw [Additions.spread?, Additions.spread?, states.spreads]
  simp only [MergeTarget.mergeSpread, same, alike.direct, alike.known.alternatives_remainderIn_eq]
  split
  next => exact ⟨rfl, states⟩
  next => exact ⟨rfl, states.widened, states.fields, states.branches, by rw [states.spreads]⟩

theorem mergeBranch (states : own.IsAlike whole)
    (admits : target.place.scope.admits key = true) :
    Matches (Pairs Additions.IsAlike) (target.mergeBranch own key)
      (other.mergeBranch whole key) := by
  have found := find?_of_forall₂ (·.key == key) (·.key == key) states.branches
    fun _ _ same => by rw [same.key]
  have isKnown : (own.branch? key).isSome = (whole.branch? key).isSome := by
    simp only [Additions.branch?]
    rcases found with ⟨isNew, alsoNew⟩ | ⟨_, _, isOwn, isMate, -⟩
    · rw [isNew, alsoNew]
    · rw [isOwn, isMate, Option.isSome_some, Option.isSome_some]
  simp only [MergeTarget.mergeBranch, alike.direct, isKnown]
  split
  next => exact Matches.ok (show Pairs _ (own, false) (whole, false) from ⟨rfl, states⟩)
  next =>
    have places : Matches (fun place partner => (place == partner) = true)
        (target.place.narrowed target.schema key) (other.place.narrowed other.schema key) := by
      rw [Place.narrowed, Place.narrowed, alike.schema]
      refine (alike.place.scope.narrow admits).map fun scope partner same => ?_
      rcases Place.of_beq alike.place.same with ⟨location, enclosing, -⟩
      exact Place.beq_iff.mpr ⟨location, enclosing, same⟩
    refine places.bind fun place partner same => Matches.ok ⟨rfl, states.widened, states.fields,
      List.rel_append states.branches (.cons ⟨rfl, same, rfl⟩ .nil), states.spreads⟩

end Steps

theorem mergeSighting (alike : target.IsAlike other) (states : own.IsAlike whole)
    {sighting : Sighting} {contributors : List Contributor}
    (sees : target.place.view? target.schema sighting.occurrence = some sighting)
    (reaches : ∀ field ∈ sighting.occurrence.selections.fields, target.Reaches field)
    (otherReaches : ∀ field ∈ sighting.occurrence.selections.fields, other.Reaches field) :
    Matches (Keeps Additions.IsAlike) (target.mergeSighting (own, contributors) sighting)
      (other.mergeSighting (whole, contributors) sighting) := by
  apply matches_mergeSighting
  simp only [mergeContribution]
  cases contribution : sighting.contribution with
  | selections =>
      exact matches_mergeSelections
        (fun _ _ states field mem =>
          alike.mergeField states (reaches field mem) (otherReaches field mem))
        (fun _ _ spread states => alike.mergeSpread states spread) states
  | branch key =>
      exact alike.mergeBranch states (Place.admits_of_view? sees contribution)

theorem sightings_eq (alike : target.IsAlike other) (occurrences : List Occurrence) :
    target.sightings occurrences = other.sightings occurrences := by
  have isSelf (occurrence : Occurrence) : target.isSelf occurrence = other.isSelf occurrence := by
    rw [MergeTarget.isSelf, MergeTarget.isSelf, alike.direct, BEq.congr_right alike.place.same]
  simp only [sightings, isSelf, alike.place.sighting?_eq, alike.schema]

end MergeTarget.IsAlike

/-- What is visible at sets that stand at equal places, with the same selections there and the same
registered for their entity, is alike. -/
theorem SelectionSet.matches_visible {schema : Schema} {entities others : EntityTable}
    {set other : SelectionSet} (place : set.place.IsAlike other.place)
    (direct : set.direct = other.direct)
    (registered : entities.occurrences set.place.entity.location
      = others.occurrences other.place.entity.location)
    (reaches : ∀ occurrence ∈ entities.occurrences set.place.entity.location,
      ∀ field ∈ occurrence.selections.fields,
        MergeTarget.Reaches ⟨schema, entities, set.place, set.direct⟩ field)
    (otherReaches : ∀ occurrence ∈ others.occurrences other.place.entity.location,
      ∀ field ∈ occurrence.selections.fields,
        MergeTarget.Reaches ⟨schema, others, other.place, other.direct⟩ field)
    (strategy : MergingStrategy) :
    Matches VisibleSelections.IsAlike (set.visible schema entities strategy)
      (other.visible schema others strategy) := by
  have alike : MergeTarget.IsAlike ⟨schema, entities, set.place, set.direct⟩
      ⟨schema, others, other.place, other.direct⟩ := ⟨rfl, place, direct⟩
  simp only [visible, ← alike.sightings_eq, ← registered]
  cases isSeen : (MergeTarget.mk schema entities set.place set.direct).sightings
      (entities.occurrences set.place.entity.location) with
  | error error => exact .error error
  | ok seen =>
      rcases filterMap_view?_of_sightings isSeen with ⟨isFound, -⟩
      -- Filtered and ordered, sightings are still what the place sees of registered occurrences.
      have sighted : ∀ sighting ∈ Sighting.byRank (seen.filter (·.origin.isEnabled strategy)),
          sighting.occurrence ∈ entities.occurrences set.place.entity.location
            ∧ set.place.view? schema sighting.occurrence = some sighting := by
        intro sighting mem
        rcases List.mem_flatMap.mp mem with ⟨rank, -, ranked⟩
        have isSeen := (List.mem_filter.mp (List.mem_filter.mp ranked).1).1
        rw [isFound] at isSeen
        rcases List.mem_filterMap.mp isSeen with ⟨occurrence, known, sees⟩
        rw [(Place.view?_eq_some sees).1]
        exact ⟨(List.mem_filter.mp known).1, sees⟩
      have pairs : List.Forall₂ (fun sighting mate => sighting = mate ∧ _)
          (Sighting.byRank (seen.filter (·.origin.isEnabled strategy))) _ :=
        List.forall₂_same.mpr fun sighting mem => ⟨rfl, sighted sighting mem⟩
      have begins : MergeTarget.Keeps Additions.IsAlike (.empty, []) (.empty, []) :=
        ⟨rfl, rfl, .nil, .nil, rfl⟩
      refine (Matches.foldlM pairs begins ?_).bind ?_
      · rintro ⟨own, contributors⟩ ⟨whole, _⟩ sighting _ ⟨rfl, states⟩ ⟨rfl, mem, sees⟩
        exact alike.mergeSighting states sees (reaches _ mem) (otherReaches _ (registered ▸ mem))
      · rintro ⟨additions, contributors⟩ ⟨others, _⟩ ⟨rfl, same⟩
        exact .ok (VisibleSelections.isAlike place.same rfl direct same rfl)

end ResponseShape
