import ResponseShape.Proofs.Inclusion.Assignment
import ResponseShape.Proofs.Schema.Supertypes
import ResponseShape.Scope.Scope

/-!
# Reachable scopes

A field opens the scope of its type, and fragments narrow it (`Scope.Reachable`). Narrowing does one
of two things: it leaves the scope as it is, or it takes one step further on the path
(`Scope.narrow_cases`).

Beside its path a scope keeps what follows from it, and each part is brought up to date in its own
way. The invariant that ties all parts to the path is `Scope.FollowsFromPath`: one step keeps it, so
it holds of every reachable scope (`Scope.Reachable.followsFromPath`). What else is known of the
parts of a scope is read off it.
-/

namespace ResponseShape.Scope

/-- The scopes that fields and the fragments below them open. -/
inductive Reachable (schema : Schema) : Scope → Prop where
  | forType {type : Name} {scope : Scope} (isRoot : Scope.forType schema type = .ok scope) :
      Reachable schema scope
  | narrow {scope narrower : Scope} {narrowing : Narrowing} (reachable : Reachable schema scope)
      (narrowed : scope.narrow schema narrowing = .ok narrower) : Reachable schema narrower

/-- The type conditions on the path. -/
def typeConditions (scope : Scope) : List Name := scope.path.filterMap (·.typeCondition)

/-- The tests that the conditions on the path make. -/
def pathTests (scope : Scope) : List VariableTest :=
  scope.path.flatMap fun narrowing => (narrowing.conditions.map (·.tests)).getD []

/-- Whether all that a scope keeps beside its path follows from the path. -/
structure FollowsFromPath (schema : Schema) (scope : Scope) : Prop where
  /-- A path starts with a type alone, and whatever joined it later asks for something. -/
  starts : ∃ type rest, scope.path = .onType type :: rest
    ∧ ∀ narrowing ∈ rest, narrowing.isEmpty = false
  /-- The scope's type is the last type condition. -/
  type : scope.typeConditions.getLast? = some scope.type
  /-- The types known are the supertypes of all type conditions, each of them once. -/
  types : ∃ supertypes, List.Forall₂ (fun type above => schema.supertypes type = .ok above)
      scope.typeConditions supertypes
    ∧ scope.knownTypes = distinct supertypes.flatten
  /-- The tests known to be passed are those on the path, in their order. -/
  tests : (scope.knownConditions.map (·.tests)).getD [] = scope.pathTests
  /-- The boundaries known to be crossed are those on the path. -/
  defers : scope.knownDefers = scope.path.filterMap (·.defer)
  /-- No boundary is crossed twice. -/
  nodup_defers : scope.knownDefers.Nodup

variable {schema : Schema} {scope narrower : Scope} {narrowing effective : Narrowing}

theorem forType_eq_ok {type : Name} (isRoot : forType schema type = .ok scope) :
    ∃ supertypes, schema.supertypes type = .ok supertypes
      ∧ scope = ⟨type, [.onType type], supertypes, none, []⟩ := by
  unfold forType at isRoot
  cases known : schema.supertypes type with
  | error error => simp [known, Except.map] at isRoot
  | ok supertypes =>
      simp only [known, Except.map, Except.ok.injEq] at isRoot
      exact ⟨supertypes, rfl, isRoot.symm⟩

theorem effective?_eq_some (isEffective : scope.effective? narrowing = some effective) :
    effective = scope.unknownPart narrowing ∧ effective.isEmpty = false := by
  unfold effective? at isEffective
  simp only at isEffective
  split at isEffective
  next => cases isEffective
  next nonempty =>
    rcases Option.some.inj isEffective with rfl
    exact ⟨rfl, by simpa using nonempty⟩

/-- What is effective of a narrowing is a step further on the path. -/
theorem narrow_eq_of_effective (isEffective : scope.effective? narrowing = some effective) :
    scope.narrow schema narrowing =
      ((effective.typeCondition.map schema.supertypes).getD (.ok [])).bind fun supertypes =>
        (scope.conditionsWith effective.conditions).map fun known =>
          { type := effective.typeCondition.getD scope.type
            path := scope.path ++ [effective]
            knownTypes := appendAllNew scope.knownTypes supertypes
            knownConditions := known
            knownDefers := scope.knownDefers ++ effective.defer.toList } := by
  simp only [narrow, isEffective]
  cases effective.typeCondition <;> rfl

/-- All that narrowing a scope can do: nothing, or one step further on the path. -/
theorem narrow_cases (narrowed : scope.narrow schema narrowing = .ok narrower) :
    (scope.effective? narrowing = none ∧ narrower = scope) ∨
      ∃ effective supertypes known, scope.effective? narrowing = some effective
        ∧ (effective.typeCondition.map schema.supertypes).getD (.ok []) = .ok supertypes
        ∧ scope.conditionsWith effective.conditions = .ok known
        ∧ narrower =
          { type := effective.typeCondition.getD scope.type
            path := scope.path ++ [effective]
            knownTypes := appendAllNew scope.knownTypes supertypes
            knownConditions := known
            knownDefers := scope.knownDefers ++ effective.defer.toList } := by
  cases isEffective : scope.effective? narrowing with
  | none =>
      simp only [narrow, isEffective, Except.ok.injEq] at narrowed
      exact Or.inl ⟨rfl, narrowed.symm⟩
  | some effective =>
      rw [narrow_eq_of_effective isEffective] at narrowed
      right
      cases types : (effective.typeCondition.map schema.supertypes).getD (.ok []) with
      | error error => simp [types, Except.bind] at narrowed
      | ok supertypes =>
          cases conditions : scope.conditionsWith effective.conditions with
          | error error => simp [types, conditions, Except.bind, Except.map] at narrowed
          | ok known =>
              simp only [types, conditions, Except.bind, Except.map, Except.ok.injEq] at narrowed
              exact ⟨effective, supertypes, known, rfl, types, conditions, narrowed.symm⟩

theorem path_prefix_of_narrow (narrowed : scope.narrow schema narrowing = .ok narrower) :
    scope.path <+: narrower.path := by
  rcases narrow_cases narrowed with ⟨-, rfl⟩ | ⟨effective, _, _, -, -, -, rfl⟩
  · exact List.prefix_rfl
  · exact List.prefix_append _ _

theorem mem_typeConditions {type : Name} : type ∈ scope.typeConditions ↔
    ∃ narrowing ∈ scope.path, narrowing.typeCondition = some type := by
  rw [typeConditions, List.mem_filterMap]

theorem mem_pathTests {test : VariableTest} : test ∈ scope.pathTests ↔
    ∃ narrowing ∈ scope.path, ∃ group ∈ narrowing.conditions, test ∈ group.tests := by
  simp only [pathTests, List.mem_flatMap]
  refine exists_congr fun narrowing => and_congr_right fun _ => ?_
  cases narrowing.conditions <;> simp

/-- The tests known within a narrower scope are those of the scope and the added ones. -/
theorem exists_test_conditionsWith {added known : Option ConditionGroup} {test : VariableTest}
    (combined : scope.conditionsWith added = .ok known) :
    (∃ group ∈ known, test ∈ group.tests) ↔
      (∃ group ∈ scope.knownConditions, test ∈ group.tests) ∨
        ∃ group ∈ added, test ∈ group.tests := by
  unfold conditionsWith at combined
  split at combined
  next =>
    rcases Except.ok.inj combined with rfl
    simp
  next group old =>
    rcases Except.ok.inj combined with rfl
    simp [old]
  next group known old =>
    split at combined
    next merged isMerged =>
      rcases Except.ok.inj combined with rfl
      simp [old, ConditionGroup.mem_merge isMerged]
    next => cases combined

theorem not_mem_of_effective {remaining known : ConditionGroup} {test : VariableTest}
    (isEffective : scope.effective? narrowing = some effective)
    (isLeft : remaining ∈ effective.conditions) (isKnown : known ∈ scope.knownConditions)
    (mem : test ∈ remaining.tests) : test ∉ known.tests := by
  rw [(effective?_eq_some isEffective).1] at isLeft
  rcases Option.bind_eq_some_iff.mp isLeft with ⟨group, -, remains⟩
  rw [Option.mem_def] at isKnown
  rw [isKnown] at remains
  exact ConditionGroup.not_mem_of_remainderIn remains mem

/-- What is known of variables in a narrower scope are the tests of the scope, then the new ones. -/
theorem tests_conditionsWith {known : Option ConditionGroup}
    (isEffective : scope.effective? narrowing = some effective)
    (combined : scope.conditionsWith effective.conditions = .ok known) :
    (known.map (·.tests)).getD [] = (scope.knownConditions.map (·.tests)).getD []
      ++ (effective.conditions.map (·.tests)).getD [] := by
  unfold conditionsWith at combined
  split at combined
  next isNone =>
    rcases Except.ok.inj combined with rfl
    simp [isNone]
  next group isLeft isNone =>
    rcases Except.ok.inj combined with rfl
    simp [isLeft, isNone]
  next group known isLeft isKnown =>
    split at combined
    next merged isMerged =>
      rcases Except.ok.inj combined with rfl
      have fresh (test : VariableTest) (mem : test ∈ group.tests) : test ∉ known.tests :=
        not_mem_of_effective isEffective isLeft isKnown mem
      simpa [isLeft, isKnown] using ConditionGroup.tests_merge isMerged fresh
    next => cases combined

namespace FollowsFromPath

theorem of_forType {type : Name} (isRoot : forType schema type = .ok scope) :
    scope.FollowsFromPath schema := by
  rcases forType_eq_ok isRoot with ⟨supertypes, known, rfl⟩
  have nodup : supertypes.Nodup := (Schema.explores_of_supertypes known).nodup
  exact {
    starts := ⟨type, [], rfl, by simp⟩
    type := rfl
    types := ⟨[supertypes], .cons known .nil, by simp [distinct_eq_self nodup]⟩
    tests := rfl
    defers := rfl
    nodup_defers := List.nodup_nil }

/-- A step further on the path keeps to it what it adds to the parts of the scope. -/
theorem narrow (follows : scope.FollowsFromPath schema)
    (narrowed : scope.narrow schema narrowing = .ok narrower) :
    narrower.FollowsFromPath schema := by
  rcases narrow_cases narrowed with
    ⟨-, rfl⟩ | ⟨effective, supertypes, known, isEffective, types, conditions, rfl⟩
  · exact follows
  · constructor
    · rcases follows.starts with ⟨type, rest, path, nonempty⟩
      refine ⟨type, rest ++ [effective], by rw [path, List.cons_append], ?_⟩
      exact List.forall_mem_append.mpr
        ⟨nonempty, List.forall_mem_singleton.mpr (effective?_eq_some isEffective).2⟩
    · have isType := follows.type
      cases condition : effective.typeCondition with
      | none => simpa [typeConditions, condition] using isType
      | some type => simp [typeConditions, condition]
    · rcases follows.types with ⟨lists, pairs, isKnown⟩
      cases condition : effective.typeCondition with
      | none =>
          simp only [condition, Option.map_none, Option.getD_none, Except.ok.injEq] at types
          refine ⟨lists, by simpa [typeConditions, condition] using pairs, ?_⟩
          rw [← types]
          exact isKnown
      | some type =>
          simp only [condition, Option.map_some, Option.getD_some] at types
          refine ⟨lists ++ [supertypes], ?_, ?_⟩
          · simpa [typeConditions, condition] using List.rel_append pairs (.cons types .nil)
          · simp only [isKnown, List.flatten_append, List.flatten_singleton, distinct_append]
    · rw [tests_conditionsWith isEffective conditions, follows.tests]
      simp [pathTests]
    · rw [follows.defers, List.filterMap_append]
      cases isDefer : effective.defer <;> simp [isDefer]
    -- A boundary that is effective was not known before, so that none is known twice.
    · have unknown (defer : Defer) (isDefer : effective.defer = some defer) :
          defer ∉ scope.knownDefers := by
        rw [(effective?_eq_some isEffective).1] at isDefer
        simpa [knowsDefer] using (Option.filter_eq_some_iff.mp isDefer).2
      cases isDefer : effective.defer with
      | none => simpa using follows.nodup_defers
      | some defer =>
          have isNew := unknown defer isDefer
          simp only [Option.toList_some, List.nodup_append]
          refine ⟨follows.nodup_defers, List.nodup_singleton _, ?_⟩
          rintro old known _ same rfl
          rw [List.mem_singleton.mp same] at known
          exact isNew known

variable (follows : scope.FollowsFromPath schema)

include follows

/-- A type is known exactly if it is a supertype of a type condition on the path. -/
theorem mem_knownTypes {type : Name} : type ∈ scope.knownTypes ↔
    ∃ condition ∈ scope.typeConditions, ∃ supertypes,
      schema.supertypes condition = .ok supertypes ∧ type ∈ supertypes := by
  rcases follows.types with ⟨lists, pairs, isKnown⟩
  rw [isKnown, mem_distinct, List.mem_flatten]
  constructor
  · rintro ⟨supertypes, mem, isSupertype⟩
    rcases exists_mem_of_forall₂_right pairs mem with ⟨condition, onPath, known⟩
    exact ⟨condition, onPath, supertypes, known, isSupertype⟩
  · rintro ⟨condition, onPath, supertypes, known, isSupertype⟩
    rcases exists_mem_of_forall₂ pairs onPath with ⟨others, mem, same⟩
    rcases Except.ok.inj (known.symm.trans same) with rfl
    exact ⟨supertypes, mem, isSupertype⟩

theorem exists_supertypes {condition : Name} (onPath : condition ∈ scope.typeConditions) :
    ∃ supertypes, schema.supertypes condition = .ok supertypes := by
  rcases follows.types with ⟨lists, pairs, -⟩
  rcases exists_mem_of_forall₂ pairs onPath with ⟨supertypes, -, known⟩
  exact ⟨supertypes, known⟩

theorem exists_test_iff {test : VariableTest} :
    (∃ known ∈ scope.knownConditions, test ∈ known.tests) ↔ test ∈ scope.pathTests := by
  rw [← follows.tests]
  cases scope.knownConditions <;> simp

theorem mem_knownDefers {defer : Defer} :
    defer ∈ scope.knownDefers ↔ ∃ narrowing ∈ scope.path, narrowing.defer = some defer := by
  rw [follows.defers, List.mem_filterMap]

theorem knownConditions_eq_none_iff :
    scope.knownConditions = none ↔ ∀ narrowing ∈ scope.path, narrowing.conditions = none := by
  have noTests : scope.pathTests = [] ↔ ∀ narrowing ∈ scope.path, narrowing.conditions = none := by
    rw [pathTests, List.flatMap_eq_nil_iff]
    refine forall₂_congr fun narrowing _ => ?_
    cases narrowing.conditions with
    | none => simp
    | some group => simp [group.nonempty]
  rw [← noTests, ← follows.tests]
  cases scope.knownConditions with
  | none => simp
  | some known => simp [known.nonempty]

theorem nodup_variables : (scope.pathTests.map (·.variableName)).Nodup := by
  rw [← follows.tests]
  cases scope.knownConditions with
  | none => exact List.nodup_nil
  | some known => exact known.nodup

end FollowsFromPath

/-- All that a reachable scope keeps beside its path follows from the path. -/
theorem Reachable.followsFromPath (reachable : Reachable schema scope) :
    scope.FollowsFromPath schema := by
  induction reachable with
  | forType isRoot => exact .of_forType isRoot
  | narrow _ narrowed ih => exact ih.narrow narrowed

end ResponseShape.Scope
