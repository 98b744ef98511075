import ResponseShape.Proofs.Inclusion.Disjunction
import ResponseShape.Proofs.Scope.Implication

/-!
# Objects within a scope

An object lies within a scope, under an assignment, if it meets every narrowing on the scope's path.
Defer boundaries play no part in this: they say when a selection arrives, not whether.

All that a scope knows holds of the objects within it, so what a scope implies, admits or leaves
of a narrowing can be read as a statement on objects. The main one is `Scope.holds_narrow`: within
the narrower scope lie the objects of the scope that meet the narrowing, and no others.
-/

namespace ResponseShape

/-- Whether an object meets a narrowing under an assignment. -/
def Narrowing.holds (schema : Schema) (object : Name) (assignment : Assignment)
    (narrowing : Narrowing) : Bool :=
  narrowing.typeCondition.all (schema.isPossible · object)
    && narrowing.conditions.all (·.holds assignment)

/-- Whether an object lies within a scope under an assignment. -/
def Scope.holds (schema : Schema) (object : Name) (assignment : Assignment) (scope : Scope) :
    Bool :=
  scope.path.all (·.holds schema object assignment)

namespace Narrowing

variable {schema : Schema} {object : Name} {assignment : Assignment} {narrowing other : Narrowing}

theorem holds_iff : narrowing.holds schema object assignment = true ↔
    narrowing.typeCondition.all (schema.isPossible · object) = true
      ∧ narrowing.conditions.all (·.holds assignment) = true := by
  simp [holds]

theorem holds_of_beq (same : (narrowing == other) = true) :
    narrowing.holds schema object assignment = other.holds schema object assignment := by
  rcases of_beq same with ⟨sameType, sameConditions, -⟩
  rw [holds, holds, sameType]
  congr 1
  cases conditions : narrowing.conditions with
  | none => cases otherConditions : other.conditions <;> simp_all
  | some group =>
      cases otherConditions : other.conditions with
      | none => simp [conditions, otherConditions] at sameConditions
      | some otherGroup =>
          rw [conditions, otherConditions] at sameConditions
          exact ConditionGroup.holds_of_beq (by simpa using sameConditions)

end Narrowing

namespace Scope

variable {schema : Schema} {object : Name} {assignment : Assignment}
  {scope narrower inside : Scope} {narrowing effective other : Narrowing}

/-- What is known of variables and of the type in a scope is what its path says. -/
structure IsTracked (scope : Scope) : Prop where
  /-- The scope's type is one of the type conditions. -/
  type : ∃ narrowing ∈ scope.path, narrowing.typeCondition = some scope.type
  /-- The tests known to be passed are those that the path makes. -/
  tests : ∀ test, (∃ group ∈ scope.knownConditions, test ∈ group.tests) ↔
    ∃ narrowing ∈ scope.path, ∃ group ∈ narrowing.conditions, test ∈ group.tests

/-- What is known in a scope follows from its path. -/
structure IsSound (schema : Schema) (scope : Scope) : Prop extends IsTracked scope where
  types : ∀ object,
    (∀ narrowing ∈ scope.path, narrowing.typeCondition.all (schema.isPossible · object) = true) →
      ∀ known ∈ scope.knownTypes, schema.isPossible known object = true

theorem isTracked_of_reachable (reachable : Reachable schema scope) : IsTracked scope where
  type := mem_typeConditions.mp (List.mem_of_getLast? reachable.followsFromPath.type)
  tests _ := reachable.followsFromPath.exists_test_iff.trans mem_pathTests

theorem isSound_of_reachable (lawful : schema.IsLawful) (reachable : Reachable schema scope) :
    IsSound schema scope where
  toIsTracked := isTracked_of_reachable reachable
  types := by
    intro object ofPath supertype knows
    rcases reachable.followsFromPath.mem_knownTypes.mp knows with
      ⟨condition, onPath, supertypes, known, isSupertype⟩
    rcases mem_typeConditions.mp onPath with ⟨narrowing, mem, isCondition⟩
    have possible := ofPath narrowing mem
    rw [isCondition, Option.all_some] at possible
    exact lawful.isPossible_of_mem_supertypes known isSupertype possible

namespace IsSound

theorem holds_knownConditions (sound : IsSound schema scope)
    (within : scope.holds schema object assignment = true) :
    scope.knownConditions.all (·.holds assignment) = true := by
  rw [Option.all_eq_true]
  intro known isKnown
  rw [ConditionGroup.holds_iff]
  intro test mem
  rcases (sound.tests test).mp ⟨known, isKnown, mem⟩ with ⟨narrowing, onPath, group, isGroup, made⟩
  have narrowingHolds := (Narrowing.holds_iff.mp (List.all_eq_true.mp within narrowing onPath)).2
  rw [Option.all_eq_true] at narrowingHolds
  exact ConditionGroup.holds_iff.mp (narrowingHolds group isGroup) test made

theorem isPossible_of_knowsType (sound : IsSound schema scope) {type : Name}
    (within : scope.holds schema object assignment = true) (knows : scope.knowsType type = true) :
    schema.isPossible type object = true :=
  sound.types object
    (fun narrowing mem => (Narrowing.holds_iff.mp (List.all_eq_true.mp within narrowing mem)).1)
    type (by simpa [knowsType] using knows)

theorem isPossible_type (sound : IsSound schema scope)
    (within : scope.holds schema object assignment = true) :
    schema.isPossible scope.type object = true := by
  rcases sound.type with ⟨narrowing, mem, isType⟩
  have ofNarrowing := (Narrowing.holds_iff.mp (List.all_eq_true.mp within narrowing mem)).1
  simpa [isType] using ofNarrowing

/-- Within a scope, what it does not know of a narrowing says what the narrowing says. -/
theorem holds_unknownPart (sound : IsSound schema scope)
    (within : scope.holds schema object assignment = true) :
    (scope.unknownPart narrowing).holds schema object assignment =
      narrowing.holds schema object assignment := by
  have conditions : (narrowing.conditions.bind (·.remainderIn scope.knownConditions)).all
      (·.holds assignment) = narrowing.conditions.all (·.holds assignment) := by
    cases narrowing.conditions with
    | none => rfl
    | some group =>
        exact group.holds_remainderIn (sound.holds_knownConditions within)
  have types : (narrowing.typeCondition.filter fun type => !scope.knowsType type).all
      (schema.isPossible · object) =
        narrowing.typeCondition.all (schema.isPossible · object) := by
    cases narrowing.typeCondition with
    | none => rfl
    | some type =>
        cases knows : scope.knowsType type with
        | false => simp [Option.filter, knows]
        | true => simp [Option.filter, knows, sound.isPossible_of_knowsType within knows]
  simp only [Narrowing.holds, unknownPart, conditions, types]

/-- Within a scope, an effective narrowing says what the narrowing says that it is a part of. -/
theorem holds_effective (sound : IsSound schema scope)
    (within : scope.holds schema object assignment = true)
    (isEffective : scope.effective? narrowing = some effective) :
    effective.holds schema object assignment = narrowing.holds schema object assignment := by
  rw [(effective?_eq_some isEffective).1, sound.holds_unknownPart within]

end IsSound

theorem IsSound.holds_of_implies (sound : IsSound schema scope)
    (within : scope.holds schema object assignment = true)
    (implied : scope.implies narrowing = true) :
    narrowing.holds schema object assignment = true := by
  rw [← sound.holds_unknownPart within]
  have empty := unknownPart_isEmpty_iff.mpr implied
  simp only [Narrowing.isEmpty, Bool.and_eq_true, Option.isNone_iff_eq_none] at empty
  simp [Narrowing.holds, empty.1.1, empty.1.2]

/-- Within the narrower scope lie the objects of the scope that meet the narrowing. -/
theorem IsSound.holds_narrow (sound : IsSound schema scope)
    (narrowed : scope.narrow schema narrowing = .ok narrower) :
    narrower.holds schema object assignment =
      (scope.holds schema object assignment && narrowing.holds schema object assignment) := by
  cases within : scope.holds schema object assignment with
  | false =>
      rcases narrow_cases narrowed with ⟨-, rfl⟩ | ⟨effective, _, _, -, -, -, rfl⟩
      · simp [within]
      · simp only [Scope.holds] at within
        simp [Scope.holds, within]
  | true =>
      rcases narrow_cases narrowed with ⟨implied, rfl⟩ | ⟨effective, _, _, isEffective, -, -, rfl⟩
      · simp [within, sound.holds_of_implies within (effective?_eq_none_iff.mp implied)]
      · rw [← sound.holds_effective within isEffective]
        simp only [Scope.holds] at within
        simp [Scope.holds, within]

theorem IsSound.holds_of_isWithin (sound : IsSound schema scope)
    (isWithin : scope.isWithin inside = true)
    (within : scope.holds schema object assignment = true) :
    inside.holds schema object assignment = true :=
  List.all_eq_true.mpr fun narrowing mem =>
    sound.holds_of_implies within (List.all_eq_true.mp isWithin narrowing mem)

theorem IsSound.admits_of_holds (sound : IsSound schema scope)
    (within : scope.holds schema object assignment = true)
    (holds : narrowing.holds schema object assignment = true) : scope.admits narrowing = true := by
  cases conditions : narrowing.conditions with
  | none => simp [admits, conditions]
  | some group =>
      have groupHolds : group.holds assignment = true := by
        simpa [conditions] using (Narrowing.holds_iff.mp holds).2
      have compatible : group.contradicts scope.knownConditions = false :=
        ConditionGroup.contradicts_eq_false_iff.mpr
          ⟨assignment, sound.holds_knownConditions within, groupHolds⟩
      simp [admits, conditions, compatible]

theorem holds_of_forType {type : Name} (isRoot : forType schema type = .ok scope) :
    scope.holds schema object assignment = schema.isPossible type object := by
  rcases forType_eq_ok isRoot with ⟨supertypes, -, rfl⟩
  simp [Scope.holds, Narrowing.holds, Narrowing.onType]

end Scope

end ResponseShape
