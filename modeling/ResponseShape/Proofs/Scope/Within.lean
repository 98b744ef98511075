import ResponseShape.Proofs.Scope.Satisfaction

/-!
# Scopes within scopes

All that a reachable scope knows comes from its path, and the types it knows are closed under
supertypes. So a scope within another knows all that the other knows
(`Scope.Reachable.isFullyKnownIn`), and to be within a scope is a preorder
(`Scope.Reachable.isWithin_self`, `Scope.Reachable.isWithin_trans`). Narrowing gives the widest
scope within both: what lies within a scope and implies a narrowing lies within the narrower scope
(`Scope.isWithin_narrow`), and is refused by none of the scopes that it lies within
(`Scope.admits_of_implies`).
-/

namespace ResponseShape.Scope

variable {schema : Schema} {scope other third narrower : Scope} {narrowing : Narrowing}
  {type : Name} {defer : Defer}

namespace Reachable

theorem supertypes_subset {supertypes : List Name} (reachable : Reachable schema scope)
    (knows : type ∈ scope.knownTypes) (known : schema.supertypes type = .ok supertypes) :
    ∀ supertype ∈ supertypes, supertype ∈ scope.knownTypes := by
  have follows := reachable.followsFromPath
  rcases follows.mem_knownTypes.mp knows with ⟨condition, onPath, all, ofCondition, isSupertype⟩
  intro supertype mem
  exact follows.mem_knownTypes.mpr ⟨condition, onPath, all, ofCondition,
    Schema.supertypes_subset ofCondition isSupertype known supertype mem⟩

theorem isFullyKnownIn (reachable : Reachable schema scope)
    (otherReachable : Reachable schema other) (isWithin : other.isWithin scope = true) :
    scope.IsFullyKnownIn other := by
  have implied {narrowing : Narrowing} (mem : narrowing ∈ scope.path) :=
    implies_iff.mp (List.all_eq_true.mp isWithin narrowing mem)
  have follows := reachable.followsFromPath
  constructor
  · intro type knows
    rcases follows.mem_knownTypes.mp knows with
      ⟨condition, onPath, supertypes, known, isSupertype⟩
    rcases mem_typeConditions.mp onPath with ⟨narrowing, mem, isCondition⟩
    exact otherReachable.supertypes_subset ((implied mem).1 condition isCondition) known type
      isSupertype
  · intro test made
    rcases mem_pathTests.mp (follows.exists_test_iff.mp made) with
      ⟨narrowing, mem, group, isGroup, inGroup⟩
    exact (implied mem).2.1 group isGroup test inGroup
  · intro defer knows
    rcases follows.mem_knownDefers.mp knows with ⟨narrowing, mem, isDefer⟩
    exact (implied mem).2.2 defer isDefer

theorem isWithin_self (reachable : Reachable schema scope) : scope.isWithin scope = true :=
  List.all_eq_true.mpr fun _ mem => implies_of_mem_path reachable mem

theorem isWithin_trans (reachable : Reachable schema scope)
    (narrowerReachable : Reachable schema narrower) (inner : narrower.isWithin scope = true)
    (outer : scope.isWithin other = true) : narrower.isWithin other = true :=
  List.all_eq_true.mpr fun narrowing mem =>
    (reachable.isFullyKnownIn narrowerReachable inner).implies
      (List.all_eq_true.mp outer narrowing mem)

theorem isWithin_trans_all {scopes others further : List Scope}
    (reachable : ∀ scope ∈ scopes, Reachable schema scope)
    (othersReachable : ∀ scope ∈ others, Reachable schema scope)
    (inner : List.Forall₂ (fun scope inside => scope.isWithin inside = true) scopes others)
    (outer : List.Forall₂ (fun scope inside => scope.isWithin inside = true) others further) :
    List.Forall₂ (fun scope inside => scope.isWithin inside = true) scopes further := by
  induction inner generalizing further with
  | nil => exact outer
  | cons here _ ih =>
      cases outer with
      | cons outerHere outerRest =>
          rw [List.forall_mem_cons] at reachable othersReachable
          exact .cons (othersReachable.1.isWithin_trans reachable.1 here outerHere)
            (ih reachable.2 othersReachable.2 outerRest)

end Reachable

/-- A scope implies a narrowing exactly if it implies what a scope around it leaves of that. -/
theorem Reachable.implies_unknownPart_iff (reachable : Reachable schema scope)
    (otherReachable : Reachable schema other) (isWithin : other.isWithin scope = true)
    (narrowing : Narrowing) :
    other.implies (scope.unknownPart narrowing) = true ↔ other.implies narrowing = true :=
  ⟨(reachable.isFullyKnownIn otherReachable isWithin).implies_of_unknownPart, implies_unknownPart⟩

theorem isWithin_of_extends (reachable : Reachable schema narrower)
    (further : scope.path <+: narrower.path) : narrower.isWithin scope = true :=
  List.all_eq_true.mpr fun _ mem => implies_of_mem_path reachable (further.subset mem)

theorem implies_of_narrow (reachable : Reachable schema scope)
    (narrowed : scope.narrow schema narrowing = .ok narrower) :
    narrower.implies narrowing = true := by
  have narrowerReachable := Reachable.narrow reachable narrowed
  have known := reachable.isFullyKnownIn narrowerReachable
    (isWithin_of_extends narrowerReachable (path_prefix_of_narrow narrowed))
  rcases narrow_cases narrowed with ⟨isNone, rfl⟩ | ⟨effective, _, _, isEffective, -, -, rfl⟩
  · exact effective?_eq_none_iff.mp isNone
  · refine known.implies_of_unknownPart ?_
    rw [← (effective?_eq_some isEffective).1]
    exact implies_of_mem_path narrowerReachable
      (List.mem_append_right _ (List.mem_singleton_self _))

/-- What lies within a scope and implies a narrowing lies within the narrower scope. -/
theorem isWithin_narrow (narrowed : scope.narrow schema narrowing = .ok narrower)
    (isWithin : other.isWithin scope = true) (implied : other.implies narrowing = true) :
    other.isWithin narrower = true := by
  rcases narrow_cases narrowed with ⟨-, rfl⟩ | ⟨effective, _, _, isEffective, -, -, rfl⟩
  · exact isWithin
  · rw [Scope.isWithin, List.all_append, Bool.and_eq_true]
    refine ⟨isWithin, ?_⟩
    rw [List.all_cons, List.all_nil, Bool.and_true, (effective?_eq_some isEffective).1]
    exact implies_unknownPart implied

theorem exists_holds_knownConditions (scope : Scope) :
    ∃ assignment, scope.knownConditions.all (·.holds assignment) = true := by
  cases scope.knownConditions with
  | none => exact ⟨fun _ => true, rfl⟩
  | some group => exact group.exists_holds.imp fun assignment holds => by simpa using holds

/-- An assignment that passes the tests a scope knows passes those that the scope implies. -/
theorem holds_of_implies {group : ConditionGroup} {assignment : Assignment}
    (known : scope.knownConditions.all (·.holds assignment) = true)
    (implied : scope.implies narrowing = true) (isGroup : group ∈ narrowing.conditions) :
    group.holds assignment = true := by
  rw [ConditionGroup.holds_iff]
  intro test made
  rcases (implies_iff.mp implied).2.1 group isGroup test made with ⟨all, isKnown, inAll⟩
  rw [Option.all_eq_true] at known
  exact ConditionGroup.holds_iff.mp (known all isKnown) test inAll

/-- An assignment that passes the tests known in a scope passes those of every scope around it. -/
theorem holds_known_of_isWithin {assignment : Assignment} (reachable : Reachable schema scope)
    (isWithin : other.isWithin scope = true)
    (known : other.knownConditions.all (·.holds assignment) = true) :
    scope.knownConditions.all (·.holds assignment) = true := by
  rw [Option.all_eq_true]
  intro all isKnown
  rw [ConditionGroup.holds_iff]
  intro test made
  rcases ((isTracked_of_reachable reachable).tests test).mp ⟨all, isKnown, made⟩ with
    ⟨onPath, mem, part, isPart, inPart⟩
  exact ConditionGroup.holds_iff.mp
    (holds_of_implies known (List.all_eq_true.mp isWithin onPath mem) isPart) test inPart

/-- A scope admits each narrowing that some scope within it implies. -/
theorem admits_of_implies (reachable : Reachable schema scope)
    (isWithin : other.isWithin scope = true) (implied : other.implies narrowing = true) :
    scope.admits narrowing = true := by
  cases conditions : narrowing.conditions with
  | none => simp [admits, conditions]
  | some group =>
      rcases other.exists_holds_knownConditions with ⟨assignment, known⟩
      have compatible : group.contradicts scope.knownConditions = false :=
        ConditionGroup.contradicts_eq_false_iff.mpr
          ⟨assignment, holds_known_of_isWithin reachable isWithin known,
            holds_of_implies known implied conditions⟩
      simp [admits, conditions, compatible]

end ResponseShape.Scope
