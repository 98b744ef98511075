import ResponseShape.Proofs.Inclusion.Canonical
import ResponseShape.Proofs.Scope.Reachable

/-!
# What scopes imply

A scope implies a narrowing if it knows all that the narrowing asks, part by part
(`Scope.implies_iff`). What it does not know of a narrowing is the part that narrows it, and there
is none exactly if the scope implies the narrowing (`Scope.effective?_eq_none_iff`).

In a scope that knows more, what another scope leaves of a narrowing says what the narrowing says
(`Scope.IsFullyKnownIn.implies_of_unknownPart`), and the same is left of it
(`Scope.IsFullyKnownIn.unknownPart_unknownPart`).
-/

namespace ResponseShape

namespace Narrowing

variable {narrowing other : Narrowing}

theorem of_beq (same : (narrowing == other) = true) :
    narrowing.typeCondition = other.typeCondition
      ∧ (narrowing.conditions == other.conditions) = true ∧ narrowing.defer = other.defer := by
  have parts : ((narrowing.typeCondition == other.typeCondition)
      && (narrowing.conditions == other.conditions) && (narrowing.defer == other.defer))
      = true := same
  rw [Bool.and_eq_true, Bool.and_eq_true] at parts
  rcases parts with ⟨⟨type, conditions⟩, defer⟩
  exact ⟨beq_iff_eq.mp type, conditions, beq_iff_eq.mp defer⟩

theorem beq_refl (narrowing : Narrowing) : (narrowing == narrowing) = true := by
  change (_ == _ && _ == _ && _ == _) = true
  simp

theorem beq_comm : (narrowing == other) = (other == narrowing) := by
  have groups (left right : Option ConditionGroup) : (left == right) = (right == left) := by
    cases left <;> cases right <;> simp [ConditionGroup.beq_comm]
  change (_ == _ && _ == _ && _ == _) = (_ == _ && _ == _ && _ == _)
  rw [groups narrowing.conditions, Bool.beq_comm (a := narrowing.typeCondition),
    Bool.beq_comm (a := narrowing.defer)]

end Narrowing

namespace Scope

variable {schema : Schema} {scope narrower other inside : Scope} {narrowing effective : Narrowing}

theorem knowsGroup_iff {group : ConditionGroup} : scope.knowsGroup group = true ↔
    ∀ test ∈ group.tests, ∃ known ∈ scope.knownConditions, test ∈ known.tests := by
  rw [knowsGroup]
  cases scope.knownConditions with
  | none =>
      rcases List.exists_mem_of_ne_nil _ group.nonempty with ⟨test, made⟩
      simp only [Option.any_none, Bool.false_eq_true, Option.mem_def, reduceCtorEq, false_and,
        exists_const, false_iff, not_forall]
      exact ⟨test, made, id⟩
  | some known => simp [ConditionGroup.isSubset_iff]

theorem implies_iff : scope.implies narrowing = true ↔
    (∀ type ∈ narrowing.typeCondition, type ∈ scope.knownTypes)
      ∧ (∀ group ∈ narrowing.conditions, ∀ test ∈ group.tests,
        ∃ known ∈ scope.knownConditions, test ∈ known.tests)
      ∧ ∀ defer ∈ narrowing.defer, defer ∈ scope.knownDefers := by
  simp only [implies, Bool.and_eq_true, Option.all_eq_true, knowsGroup_iff, knowsType, knowsDefer,
    List.contains_eq_mem, decide_eq_true_eq, and_assoc, Option.mem_def]

theorem implies_of_beq {other : Narrowing} (same : (narrowing == other) = true)
    (implied : scope.implies other = true) : scope.implies narrowing = true := by
  rcases Narrowing.of_beq same with ⟨sameType, sameConditions, sameDefer⟩
  rcases implies_iff.mp implied with ⟨types, tests, defers⟩
  refine implies_iff.mpr ⟨by rwa [sameType], ?_, by rwa [sameDefer]⟩
  intro group isGroup test made
  rw [Option.mem_def] at isGroup
  rw [isGroup] at sameConditions
  cases otherConditions : other.conditions with
  | none => simp [otherConditions] at sameConditions
  | some otherGroup =>
      rw [otherConditions] at sameConditions
      exact tests otherGroup otherConditions test
        ((ConditionGroup.mem_tests_of_beq (by simpa using sameConditions)).mp made)

theorem implies_of_mem_path (reachable : Reachable schema scope) (mem : narrowing ∈ scope.path) :
    scope.implies narrowing = true := by
  have follows := reachable.followsFromPath
  refine implies_iff.mpr ⟨?_, ?_, ?_⟩
  · intro type isType
    have onPath := mem_typeConditions.mpr ⟨narrowing, mem, isType⟩
    rcases follows.exists_supertypes onPath with ⟨supertypes, known⟩
    exact follows.mem_knownTypes.mpr
      ⟨type, onPath, supertypes, known, Schema.mem_supertypes_self known⟩
  · intro group isGroup test made
    exact follows.exists_test_iff.mpr (mem_pathTests.mpr ⟨narrowing, mem, group, isGroup, made⟩)
  · intro defer isDefer
    exact follows.mem_knownDefers.mpr ⟨narrowing, mem, isDefer⟩

theorem isWithin_of_beq_path (reachable : Reachable schema scope)
    (same : List.Forall₂ (fun narrowing other => (narrowing == other) = true) inside.path
      scope.path) :
    scope.isWithin inside = true := by
  refine List.all_eq_true.mpr ?_
  intro narrowing mem
  rcases exists_mem_of_forall₂ same mem with ⟨other, onPath, isOther⟩
  exact implies_of_beq isOther (implies_of_mem_path reachable onPath)

theorem unknownPart_isEmpty_iff :
    (scope.unknownPart narrowing).isEmpty = true ↔ scope.implies narrowing = true := by
  rcases narrowing with ⟨type, conditions, defer⟩
  have typePart : (type.filter fun type => !scope.knowsType type) = none ↔
      type.all scope.knowsType = true := by
    cases type <;> simp [Option.filter]
  have conditionPart : conditions.bind (·.remainderIn scope.knownConditions) = none ↔
      conditions.all scope.knowsGroup = true := by
    cases conditions with
    | none => simp
    | some group =>
        simpa [knowsGroup] using ConditionGroup.remainderIn_eq_none_iff
  have deferPart : (defer.filter fun defer => !scope.knowsDefer defer) = none ↔
      defer.all scope.knowsDefer = true := by
    cases defer <;> simp [Option.filter]
  simp only [unknownPart, Narrowing.isEmpty, implies, Bool.and_eq_true, Option.isNone_iff_eq_none,
    typePart, conditionPart, deferPart]

theorem effective?_eq_none_iff :
    scope.effective? narrowing = none ↔ scope.implies narrowing = true := by
  rw [← unknownPart_isEmpty_iff, effective?]
  simp

/-- What implies a narrowing implies all that another scope leaves of it. -/
theorem implies_unknownPart (implied : scope.implies narrowing = true) :
    scope.implies (other.unknownPart narrowing) = true := by
  rcases implies_iff.mp implied with ⟨types, tests, defers⟩
  refine implies_iff.mpr ⟨?_, ?_, ?_⟩
  · intro type isLeft
    exact types type (Option.eq_some_of_filter_eq_some isLeft)
  · intro group isLeft test made
    rcases Option.bind_eq_some_iff.mp isLeft with ⟨whole, isWhole, remains⟩
    exact tests whole isWhole test (ConditionGroup.mem_of_remainderIn remains made)
  · intro defer isLeft
    exact defers defer (Option.eq_some_of_filter_eq_some isLeft)

/-- Whether all that is known in a scope is known in another: types, tests and defer boundaries. -/
structure IsFullyKnownIn (scope other : Scope) : Prop where
  types : ∀ type ∈ scope.knownTypes, type ∈ other.knownTypes
  tests : ∀ test, (∃ group ∈ scope.knownConditions, test ∈ group.tests) →
    ∃ group ∈ other.knownConditions, test ∈ group.tests
  defers : ∀ defer ∈ scope.knownDefers, defer ∈ other.knownDefers

namespace IsFullyKnownIn

theorem refl (scope : Scope) : scope.IsFullyKnownIn scope :=
  ⟨fun _ => id, fun _ => id, fun _ => id⟩

variable (known : scope.IsFullyKnownIn other)

include known

theorem implies (implied : scope.implies narrowing = true) : other.implies narrowing = true := by
  rcases implies_iff.mp implied with ⟨types, tests, defers⟩
  refine implies_iff.mpr ⟨?_, ?_, ?_⟩
  · exact fun type isType => known.types type (types type isType)
  · exact fun group isGroup test made => known.tests test (tests group isGroup test made)
  · exact fun defer isDefer => known.defers defer (defers defer isDefer)

/-- What a scope knows and what it leaves of a narrowing give the narrowing. -/
theorem implies_of_unknownPart
    (implied : other.implies (scope.unknownPart narrowing) = true) :
    other.implies narrowing = true := by
  rcases implies_iff.mp implied with ⟨types, tests, defers⟩
  refine implies_iff.mpr ⟨?_, ?_, ?_⟩
  · intro type isType
    cases knows : scope.knowsType type with
    | true => exact known.types type (by simpa [knowsType] using knows)
    | false => exact types type (Option.filter_eq_some_iff.mpr ⟨isType, by simp [knows]⟩)
  · intro group isGroup test made
    rcases ConditionGroup.mem_remainderIn_or_scope scope.knownConditions made with
      ⟨remaining, remains, kept⟩ | already
    · exact tests remaining (Option.bind_eq_some_iff.mpr ⟨group, isGroup, remains⟩) test kept
    · exact known.tests test already
  · intro defer isDefer
    cases knows : scope.knowsDefer defer with
    | true => exact known.defers defer (by simpa [knowsDefer] using knows)
    | false => exact defers defer (Option.filter_eq_some_iff.mpr ⟨isDefer, by simp [knows]⟩)

theorem knowsType {type : Name} (knows : scope.knowsType type = true) :
    other.knowsType type = true := by
  simp only [Scope.knowsType, List.contains_eq_mem, decide_eq_true_eq] at knows ⊢
  exact known.types type knows

theorem knowsDefer {defer : Defer} (knows : scope.knowsDefer defer = true) :
    other.knowsDefer defer = true := by
  simp only [Scope.knowsDefer, List.contains_eq_mem, decide_eq_true_eq] at knows ⊢
  exact known.defers defer knows

/-- A scope that knows more leaves of a narrowing what it leaves of the part that is left of it. -/
theorem unknownPart_unknownPart (narrowing : Narrowing) :
    other.unknownPart (scope.unknownPart narrowing) = other.unknownPart narrowing := by
  have types (type : Name) : (!scope.knowsType type && !other.knowsType type)
      = !other.knowsType type := by
    cases knows : scope.knowsType type with
    | false => rfl
    | true => simp [known.knowsType knows]
  have defers (defer : Defer) : (!scope.knowsDefer defer && !other.knowsDefer defer)
      = !other.knowsDefer defer := by
    cases knows : scope.knowsDefer defer with
    | false => rfl
    | true => simp [known.knowsDefer knows]
  simp only [unknownPart, Option.filter_filter, types, defers, Option.bind_assoc,
    ConditionGroup.bind_remainderIn known.tests]

end IsFullyKnownIn

theorem effective?_effective (isEffective : scope.effective? narrowing = some effective) :
    scope.effective? effective = some effective := by
  rcases effective?_eq_some isEffective with ⟨rfl, nonempty⟩
  simp [effective?, (IsFullyKnownIn.refl scope).unknownPart_unknownPart, nonempty]

/-- How a narrowing narrows a scope depends on what is effective of it only. -/
theorem narrow_congr {other : Narrowing}
    (same : scope.effective? narrowing = scope.effective? other) :
    scope.narrow schema narrowing = scope.narrow schema other := by
  simp only [narrow, same]

theorem narrow_of_implies (implied : scope.implies narrowing = true) :
    scope.narrow schema narrowing = .ok scope := by
  simp only [narrow, effective?_eq_none_iff.mpr implied]

/-- Narrowing by what is effective puts it at the end of the path. -/
theorem path_narrow_effective (isEffective : scope.effective? effective = some effective)
    (narrowed : scope.narrow schema effective = .ok narrower) :
    narrower.path = scope.path ++ [effective] := by
  rcases narrow_cases narrowed with ⟨isNone, -⟩ | ⟨other, _, _, isOther, -, -, rfl⟩
  · rw [isEffective] at isNone
    cases isNone
  · rw [isEffective, Option.some.injEq] at isOther
    rw [isOther]

end Scope

end ResponseShape
