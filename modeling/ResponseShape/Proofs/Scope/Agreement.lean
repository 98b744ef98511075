import ResponseShape.Proofs.Scope.Decisions
import ResponseShape.Proofs.Scope.Equality

/-!
# What a path determines

A scope is compared by its path alone, and asked for all that it keeps beside it. That is sound, as
all of it follows from the path: of two reachable scopes with equal paths, each part of the one
compares equal to that of the other, and whatever can be asked of a scope is answered alike
(`Scope.Reachable.followsFromPath_and_agreesWith`). They hash alike, too.

The orders of types and of boundaries are those of the path. The order of tests is not: equal groups
may list them differently, so conditions of equal scopes are equal as groups only, and so are the
narrowings on their paths. Equal scopes are told apart only where tests are shown as they are
listed, as in the error of a scope that cannot be narrowed.
-/

namespace ResponseShape

section Hashing

theorem hash_eq_of_forall₂ {α : Type} [Hashable α] {members others : List α}
    (pairs : List.Forall₂ (fun member other => hash member = hash other) members others) :
    hash members = hash others := by
  have folds (start : UInt64) : members.foldl (fun code member => mixHash code (hash member)) start
      = others.foldl (fun code member => mixHash code (hash member)) start := by
    induction pairs generalizing start with
    | nil => rfl
    | cons here _ ih => rw [List.foldl_cons, List.foldl_cons, here, ih]
  exact folds 7

namespace ConditionGroup

variable {group other : ConditionGroup}

theorem perm_sorted (group : ConditionGroup) : group.sorted.Perm group.tests :=
  List.mergeSort_perm _ _

theorem pairwise_sorted (group : ConditionGroup) :
    group.sorted.Pairwise fun test later => test.variableName ≤ later.variableName := by
  have trans (first second third : VariableTest) :
      decide (first.variableName ≤ second.variableName) = true →
        decide (second.variableName ≤ third.variableName) = true →
          decide (first.variableName ≤ third.variableName) = true := by
    simpa only [decide_eq_true_eq] using String.le_trans
  have total (first second : VariableTest) :
      (decide (first.variableName ≤ second.variableName)
        || decide (second.variableName ≤ first.variableName)) = true := by
    simpa only [Bool.or_eq_true, decide_eq_true_eq] using String.le_total _ _
  have sorts := List.pairwise_mergeSort trans total group.tests
  simpa only [sorted, decide_eq_true_eq] using sorts

theorem sorted_eq_of_beq (same : (group == other) = true) : group.sorted = other.sorted := by
  have perm := perm_of_mem_iff fun _ => mem_tests_of_beq same
  refine List.Perm.eq_of_pairwise ?_ group.pairwise_sorted other.pairwise_sorted
    ((group.perm_sorted.trans perm).trans other.perm_sorted.symm)
  intro test mate made mateMade before after
  have ofGroup := group.perm_sorted.mem_iff.mp made
  have mateOfGroup := perm.mem_iff.mpr (other.perm_sorted.mem_iff.mp mateMade)
  exact List.inj_on_of_nodup_map group.nodup ofGroup mateOfGroup (String.le_antisymm before after)

end ConditionGroup

instance : LawfulHashable ConditionGroup where
  hash_eq group other same := by
    change hash group.sorted = hash other.sorted
    rw [ConditionGroup.sorted_eq_of_beq same]

instance : LawfulHashable Narrowing where
  hash_eq narrowing other same := by
    rcases Narrowing.of_beq same with ⟨type, conditions, defer⟩
    have groups : hash narrowing.conditions = hash other.conditions := by
      cases ofNarrowing : narrowing.conditions with
      | none =>
          cases ofOther : other.conditions with
          | none => rfl
          | some partner => simp [ofNarrowing, ofOther] at conditions
      | some group =>
          cases ofOther : other.conditions with
          | none => simp [ofNarrowing, ofOther] at conditions
          | some partner =>
              rw [ofNarrowing, ofOther, Option.some_beq_some] at conditions
              change mixHash (hash group) 13 = mixHash (hash partner) 13
              rw [hash_eq conditions]
    change mixHash _ (mixHash _ _) = mixHash _ (mixHash _ _)
    rw [type, groups, defer]

instance : LawfulHashable Scope where
  hash_eq _ _ same := hash_eq_of_forall₂ ((Scope.forall₂_of_beq same).imp fun _ _ => hash_eq)

end Hashing

namespace ConditionGroup.TestAlike

variable {known other : Option ConditionGroup} (alike : TestAlike known other)

include alike

theorem beq : (known == other) = true := by
  rcases alike.cases with ⟨rfl, rfl⟩ | ⟨group, partner, rfl, rfl, same⟩
  · rfl
  · exact beq_iff_mem.mpr same

end ConditionGroup.TestAlike

namespace Scope

variable {schema : Schema} {scope other : Scope} {narrowing : Narrowing} {assignment : Assignment}

/-- Whether all parts of two scopes compare equal, and all that can be asked of scopes is answered
alike by both. -/
structure AgreesWith (schema : Schema) (scope other : Scope) : Prop where
  type : scope.type = other.type
  path : (scope.path == other.path) = true
  knownTypes : scope.knownTypes = other.knownTypes
  knownConditions : (scope.knownConditions == other.knownConditions) = true
  knownDefers : scope.knownDefers = other.knownDefers
  hash : hash scope = hash other
  applied : (scope.applied == other.applied) = true
  innermost : (scope.innermost == other.innermost) = true
  isDeferred : scope.isDeferred = other.isDeferred
  knowsType : scope.knowsType = other.knowsType
  knowsGroup : scope.knowsGroup = other.knowsGroup
  knowsDefer : scope.knowsDefer = other.knowsDefer
  implies : scope.implies = other.implies
  isWithin : ∀ outer, scope.isWithin outer = other.isWithin outer
  surrounds : ∀ inside : Scope, inside.isWithin scope = inside.isWithin other
  isAncestorOf : ∀ further, scope.isAncestorOf further = other.isAncestorOf further
  descends : ∀ before : Scope, before.isAncestorOf scope = before.isAncestorOf other
  admits : scope.admits = other.admits
  effective? : scope.effective? = other.effective?
  /-- Both lead to equal scopes, fail with one error or break an invariant, in whatever words. -/
  narrow : ∀ narrowing,
    Matches (fun narrower partner => (narrower == partner) = true)
        (scope.narrow schema narrowing) (other.narrow schema narrowing)
      ∨ ∃ details otherDetails, scope.narrow schema narrowing = .error (.internal details)
        ∧ other.narrow schema narrowing = .error (.internal otherDetails)

namespace FollowsFromPath

variable (follows : scope.FollowsFromPath schema)
  (otherFollows : other.FollowsFromPath schema) (same : (scope == other) = true)

include follows otherFollows same

/-- Equal paths are on the same types, with the same supertypes. -/
theorem knownTypes_eq : scope.knownTypes = other.knownTypes := by
  rcases follows.types with ⟨supertypes, pairs, known⟩
  rcases otherFollows.types with ⟨others, otherPairs, otherKnown⟩
  rw [typeConditions_eq_of_beq same] at pairs
  have unique : Relator.RightUnique fun type above => schema.supertypes type = .ok above :=
    fun _ _ _ here there => Except.ok.inj (here.symm.trans there)
  rw [known, otherKnown, unique.forall₂ pairs otherPairs]

theorem knownDefers_eq : scope.knownDefers = other.knownDefers := by
  rw [follows.defers, otherFollows.defers]
  exact filterMap_eq_of_forall₂
    ((forall₂_of_beq same).imp fun _ _ here => (Narrowing.of_beq here).2.2)

end FollowsFromPath

theorem isWithin_congr (same : (scope == other) = true) (inside : Scope) :
    inside.isWithin scope = inside.isWithin other := by
  have around {first second : Scope} (same : (first == second) = true)
      (isWithin : inside.isWithin second = true) : inside.isWithin first = true := by
    refine List.all_eq_true.mpr fun narrowing mem => ?_
    rcases exists_mem_of_forall₂ (forall₂_of_beq same) mem with ⟨partner, onPath, isPartner⟩
    exact implies_of_beq isPartner (List.all_eq_true.mp isWithin partner onPath)
  exact Bool.eq_iff_iff.mpr ⟨around (BEq.symm same), around same⟩

theorem IsAlike.knowsGroup_eq (alike : scope.IsAlike other) :
    scope.knowsGroup = other.knowsGroup := by
  funext group
  rw [Bool.eq_iff_iff, knowsGroup_iff, knowsGroup_iff]
  exact forall₂_congr fun test _ => alike.testAlike test

/-- Equal scopes are narrowed alike. -/
theorem IsAlike.narrow_or_internal (alike : scope.IsAlike other) (narrowing : Narrowing) :
    Matches (fun narrower partner => (narrower == partner) = true)
        (scope.narrow schema narrowing) (other.narrow schema narrowing)
      ∨ ∃ details otherDetails, scope.narrow schema narrowing = .error (.internal details)
        ∧ other.narrow schema narrowing = .error (.internal otherDetails) := by
  cases admits : scope.admits narrowing with
  | true => exact Or.inl (alike.narrow admits)
  | false =>
      rcases exists_effective_of_refused admits with ⟨effective, isEffective⟩
      have otherEffective := (alike.effective?_eq narrowing).symm.trans isEffective
      have refused := (admits_effective isEffective).trans admits
      rcases conditionsWith_of_refused refused with ⟨details, failed⟩
      rcases conditionsWith_of_refused (alike.admits_eq effective ▸ refused) with
        ⟨otherDetails, otherFailed⟩
      rw [narrow_eq_of_effective isEffective, narrow_eq_of_effective otherEffective, failed,
        otherFailed]
      -- The supertypes are looked up first: a type that is not defined comes before the conflict.
      cases (effective.typeCondition.map schema.supertypes).getD (.ok []) with
      | error error => exact Or.inl (.error error)
      | ok supertypes => exact Or.inr ⟨details, otherDetails, rfl, rfl⟩

/-- Reachable scopes with equal paths agree. -/
theorem Reachable.agreesWith (reachable : Reachable schema scope)
    (otherReachable : Reachable schema other) (same : (scope == other) = true) :
    scope.AgreesWith schema other := by
  have follows := reachable.followsFromPath
  have otherFollows := otherReachable.followsFromPath
  have alike := reachable.isAlike otherReachable same
  have pairs := forall₂_of_beq same
  have knownDefers := follows.knownDefers_eq otherFollows same
  exact {
    type := alike.type
    path := same
    knownTypes := follows.knownTypes_eq otherFollows same
    knownConditions := alike.testAlike.beq
    knownDefers
    hash := hash_eq same
    applied := beq_of_forall₂ (by simpa [Scope.applied] using List.forall₂_drop 1 pairs)
    innermost := getLastD_of_forall₂ pairs BEq.rfl
    isDeferred := by rw [Scope.isDeferred, Scope.isDeferred, knownDefers]
    knowsType := alike.knowsType_eq
    knowsGroup := alike.knowsGroup_eq
    knowsDefer := alike.knowsDefer_eq
    implies := alike.implies_eq
    isWithin := alike.isWithin_eq
    surrounds := isWithin_congr same
    isAncestorOf := fun further => (isAncestorOf_congr same further).1
    descends := fun before => (isAncestorOf_congr same before).2
    admits := funext alike.admits_eq
    effective? := funext alike.effective?_eq
    narrow := alike.narrow_or_internal }

/-- All that a reachable scope keeps beside its path follows from the path: it starts with a type
alone, and all types, conditions and boundaries are those on the path, with no variable tested
twice. So reachable scopes with equal paths agree in all parts and answers. -/
theorem Reachable.followsFromPath_and_agreesWith (reachable : Reachable schema scope) :
    scope.FollowsFromPath schema
    ∧ (scope.knownConditions = none ↔ ∀ narrowing ∈ scope.path, narrowing.conditions = none)
    ∧ (∀ assignment, scope.knownConditions.all (·.holds assignment) = scope.permits assignment)
    ∧ (scope.pathTests.map (·.variableName)).Nodup
    ∧ ∀ other, Reachable schema other → (scope == other) = true →
      scope.AgreesWith schema other := by
  have follows := reachable.followsFromPath
  refine ⟨follows, follows.knownConditions_eq_none_iff, ?_, follows.nodup_variables, ?_⟩
  · exact fun assignment =>
      Bool.eq_iff_iff.mpr (isTracked_of_reachable reachable).holds_knownConditions_iff
  · exact fun other otherReachable same => reachable.agreesWith otherReachable same

end Scope

namespace Animals

/-- What narrows animals to pets, if all variables of a group are true. -/
def ontoPetsIf (group : ConditionGroup) : Narrowing := ⟨some "Pet", some group, none⟩

/-- The scope of pets, if all variables of a group are true. -/
def petsIf (group : ConditionGroup) : Scope :=
  ⟨"Pet", [.onType "Animal", ontoPetsIf group], ["Animal", "Pet"], some group, []⟩

end Animals

/-- Two scopes that list the tests on their paths in different orders are not the same, and
agree. -/
theorem Scope.Reachable.followsFromPath_and_agreesWith_petsIf :
    Animals.petsIf Animals.firstAndSecond ≠ Animals.petsIf Animals.secondAndFirst
    ∧ (Animals.petsIf Animals.firstAndSecond).AgreesWith Animals.schema
      (Animals.petsIf Animals.secondAndFirst)
    ∧ (Animals.petsIf Animals.firstAndSecond).FollowsFromPath Animals.schema := by
  have isRoot : Scope.forType Animals.schema "Animal" = .ok Animals.animals := by decide +kernel
  have narrowed : Animals.animals.narrow Animals.schema (Animals.ontoPetsIf Animals.firstAndSecond)
      = .ok (Animals.petsIf Animals.firstAndSecond) := by decide +kernel
  have otherNarrowed : Animals.animals.narrow Animals.schema
      (Animals.ontoPetsIf Animals.secondAndFirst)
      = .ok (Animals.petsIf Animals.secondAndFirst) := by decide +kernel
  have ofAnimals := Reachable.forType isRoot
  rcases followsFromPath_and_agreesWith (.narrow ofAnimals narrowed) with
    ⟨follows, -, -, -, agrees⟩
  have other := agrees _ (.narrow ofAnimals otherNarrowed) (by decide +kernel)
  exact ⟨by decide +kernel, other, follows⟩

end ResponseShape
