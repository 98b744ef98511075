import Mathlib.Order.WellFounded
import ResponseShape.Entity.Table

/-!
# Laws of the entity table

Interning an entity leaves all occurrences as they are (`EntityTable.occurrences_intern`), and
registering occurrences puts each at the end of those of its entity
(`EntityTable.occurrences_registerAll`). In a sound table, and all that is built on one is sound,
every entity is found at its own location. Among the entities of a definition some are the furthest
from its root (`EntityTable.exists_isFurthest`).
-/

namespace ResponseShape

namespace EntityTree

mutual

/-- How many steps the entities of a tree are away at most. -/
def height : EntityTree → Nat
  | mk _ branches => heightOfBranches branches

/-- How many steps the entities behind several fields are away at most. -/
def heightOfBranches : List (FieldStep × EntityTree) → Nat
  | [] => 0
  | (_, tree) :: rest => max (height tree + 1) (heightOfBranches rest)

end

theorem height_lt_of_mem {branches : List (FieldStep × EntityTree)}
    {branch : FieldStep × EntityTree} (mem : branch ∈ branches) :
    branch.2.height < heightOfBranches branches := by
  induction branches with
  | nil => cases mem
  | cons first rest ih =>
      rw [heightOfBranches]
      rcases List.mem_cons.mp mem with rfl | later
      · exact Nat.le_max_left _ _
      · exact (ih later).trans_le (Nat.le_max_right _ _)

theorem length_le_height {steps : List FieldStep} {tree : EntityTree}
    (found : (tree.record? steps).isSome = true) : steps.length ≤ tree.height := by
  induction steps generalizing tree with
  | nil => exact Nat.zero_le _
  | cons step rest ih =>
      rcases tree with ⟨record, branches⟩
      rw [record?] at found
      cases isBranch : branches.lookup step with
      | none => simp [isBranch] at found
      | some tree =>
          rw [isBranch, Option.getD_some] at found
          rcases List.lookup_eq_some_iff.mp isBranch with ⟨before, after, split, -⟩
          have mem : (step, tree) ∈ branches := by simp [split]
          have below := height_lt_of_mem mem
          exact Nat.succ_le_of_lt ((ih found).trans_lt below)

end EntityTree

namespace EntityTable

variable {table : EntityTable} {location other : Location} {typePath : List Name}
  {occurrence : Occurrence}

/-- An update is found at its own location, and leaves the records of all others alone. -/
theorem record?_update (change : Option EntityRecord → EntityRecord) :
    (table.update location change).record? other
      = if other = location then some (change (table.record? location))
        else table.record? other := by
  rcases location with ⟨definition, steps⟩
  rcases other with ⟨otherDefinition, otherSteps⟩
  simp only [record?, treeOf, update, lookup_updateOrAppend, Location.mk.injEq]
  by_cases same : otherDefinition = definition
  · subst same
    simp [EntityTree.record?_update]
  · simp [same]

/-- Whether every entity is found at its own location. -/
def IsSound (table : EntityTable) : Prop :=
  ∀ location record, table.record? location = some record → record.entity.location = location

theorem isSound_empty : empty.IsSound := by
  intro location record found
  simp [record?, empty, treeOf] at found

theorem IsSound.location_of_entity? (sound : table.IsSound) {entity : Entity}
    (found : table.entity? location = some entity) : entity.location = location := by
  simp only [entity?, Option.map_eq_some_iff] at found
  rcases found with ⟨record, recordEq, rfl⟩
  exact sound location record recordEq

theorem IsSound.update (sound : table.IsSound)
    {change : Option EntityRecord → EntityRecord}
    (keeps : (change (table.record? location)).entity.location = location) :
    (table.update location change).IsSound := by
  intro other record found
  rw [record?_update] at found
  split at found
  next same =>
    rw [← Option.some.inj found, same]
    exact keeps
  next => exact sound other record found

theorem IsSound.intern (sound : table.IsSound) :
    (table.intern location typePath).1.location = location
      ∧ (table.intern location typePath).2.IsSound := by
  simp only [EntityTable.intern]
  split
  next entity found => exact ⟨sound.location_of_entity? found, sound⟩
  next => exact ⟨rfl, sound.update rfl⟩

@[simp]
theorem occurrences_intern :
    (table.intern location typePath).2.occurrences other = table.occurrences other := by
  simp only [intern]
  split
  next => rfl
  next unknown =>
    simp only [occurrences, record?_update]
    split
    next same =>
      simp only [entity?, Option.map_eq_none_iff] at unknown
      simp [same, unknown, EntityRecord.occurrences]
    next => rfl

theorem IsSound.register (sound : table.IsSound) : (table.register occurrence).IsSound := by
  refine sound.update ?_
  split
  next record found => exact sound _ record found
  next => rfl

theorem occurrences_register :
    (table.register occurrence).occurrences location = table.occurrences location
      ++ [occurrence].filter (·.place.entity.location == location) := by
  simp only [occurrences, EntityTable.register, record?_update]
  by_cases here : occurrence.place.entity.location = location
  · subst here
    simp only [if_true]
    split
    next record found => simp [found]
    next none => simp [none, EntityRecord.occurrences]
  · simp [here, Ne.symm here]

theorem IsSound.registerAll (sound : table.IsSound) (occurrences : List Occurrence) :
    (table.registerAll occurrences).IsSound := by
  induction occurrences generalizing table with
  | nil => exact sound
  | cons occurrence rest ih => exact ih sound.register

/-- Registered occurrences come last at their locations, in order. -/
theorem occurrences_registerAll (occurrences : List Occurrence) :
    (table.registerAll occurrences).occurrences location = table.occurrences location
      ++ occurrences.filter (·.place.entity.location == location) := by
  induction occurrences generalizing table with
  | nil => simp [EntityTable.registerAll]
  | cons occurrence rest ih =>
      have step : table.registerAll (occurrence :: rest)
          = (table.register occurrence).registerAll rest := rfl
      rw [step, ih, occurrences_register, List.append_assoc, ← List.filter_append,
        List.singleton_append]

/-- A registered entity was there before, or is that of an occurrence. -/
theorem entity?_registerAll {occurrences : List Occurrence} {entity : Entity}
    (found : (table.registerAll occurrences).entity? location = some entity) :
    table.entity? location = some entity
      ∨ ∃ occurrence ∈ occurrences, occurrence.place.entity.location = location
        ∧ occurrence.place.entity = entity := by
  induction occurrences generalizing table with
  | nil => exact Or.inl found
  | cons occurrence rest ih =>
      rcases @ih (table.register occurrence) found with isKnown | ⟨other, mem, isOther⟩
      · simp only [entity?, EntityTable.register, record?_update] at isKnown ⊢
        by_cases here : location = occurrence.place.entity.location
        · rw [if_pos here, Option.map_some, Option.some.injEq] at isKnown
          subst here
          split at isKnown
          next record isRecord =>
            rw [isRecord]
            exact Or.inl (congrArg some isKnown)
          next => exact Or.inr ⟨occurrence, List.mem_cons_self, rfl, isKnown⟩
        · rw [if_neg here] at isKnown
          exact Or.inl isKnown
      · exact Or.inr ⟨other, List.mem_cons_of_mem _ mem, isOther⟩

theorem entity?_intern_of_some {known : Entity} (found : table.entity? other = some known) :
    (table.intern location typePath).2.entity? other = some known := by
  simp only [intern]
  split
  next => exact found
  next unknown =>
    simp only [entity?, record?_update]
    split
    next same =>
      rw [same, unknown] at found
      cases found
    next => exact found

theorem entity?_registerAll_of_some {occurrences : List Occurrence} {known : Entity}
    (found : table.entity? location = some known) :
    (table.registerAll occurrences).entity? location = some known := by
  induction occurrences generalizing table with
  | nil => exact found
  | cons occurrence rest ih =>
      refine @ih (table.register occurrence) ?_
      simp only [entity?, Option.map_eq_some_iff] at found
      rcases found with ⟨record, isRecord, rfl⟩
      simp only [entity?, EntityTable.register, record?_update]
      split
      next here =>
        rw [← here, isRecord]
        rfl
      next =>
        rw [isRecord]
        rfl

/-- Whether there is an entity at a location, and none of its definition takes more steps. -/
structure IsFurthest (table : EntityTable) (location : Location) : Prop where
  exists_entity : (table.entity? location).isSome = true
  longest : ∀ other, other.definition = location.definition →
    (table.entity? other).isSome = true → other.steps.length ≤ location.steps.length

/-- A definition that has entities has one that takes the most steps. -/
theorem exists_isFurthest (found : (table.entity? location).isSome = true) :
    ∃ furthest, furthest.definition = location.definition ∧ table.IsFurthest furthest := by
  have bounded (other : Location) (isHere : other.definition = location.definition)
      (isEntity : (table.entity? other).isSome = true) :
      other.steps.length ≤ (table.treeOf location.definition).height := by
    rw [entity?, Option.isSome_map, record?, isHere] at isEntity
    exact EntityTree.length_le_height isEntity
  rcases WellFounded.has_min (measure fun other : Location =>
      (table.treeOf location.definition).height - other.steps.length).wf
      { other | other.definition = location.definition ∧ (table.entity? other).isSome = true }
      ⟨location, rfl, found⟩ with ⟨furthest, ⟨isHere, isEntity⟩, least⟩
  refine ⟨furthest, isHere, isEntity, fun other isOther isOtherEntity => ?_⟩
  have notLess : ¬(table.treeOf location.definition).height - other.steps.length
      < (table.treeOf location.definition).height - furthest.steps.length :=
    least other ⟨isOther.trans isHere, isOtherEntity⟩
  have bound := bounded other (isOther.trans isHere) isOtherEntity
  omega

end EntityTable

end ResponseShape
