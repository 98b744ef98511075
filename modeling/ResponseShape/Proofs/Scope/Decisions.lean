import ResponseShape.Proofs.Scope.Within

/-!
# What scopes decide

Scopes are compared by the names of types and by lists of tests, without a look at objects or
assignments. What is decided that way is nevertheless about these: a scope within another holds only
objects of the other, a scope refuses exactly the narrowings whose conditions can never hold
together with its own, and where types do not overlap no object has both
(`Scope.Reachable.decides_objects`).

The conditions of a scope are those of all narrowings on its path. The scope itself knows their
conjunction only, which says the same (`Scope.IsTracked.holds_knownConditions_iff`).
-/

namespace ResponseShape

/-- Whether all conditions on the path hold under an assignment. -/
def Scope.permits (assignment : Assignment) (scope : Scope) : Bool :=
  scope.path.all fun narrowing => narrowing.conditions.all (·.holds assignment)

namespace Scope

variable {schema : Schema} {scope : Scope} {assignment : Assignment}

theorem permits_iff : scope.permits assignment = true ↔
    ∀ narrowing ∈ scope.path, ∀ group ∈ narrowing.conditions, group.holds assignment = true := by
  simp only [permits, List.all_eq_true, Option.all_eq_true, Option.mem_def]

theorem permits_of_holds {object : Name}
    (within : scope.holds schema object assignment = true) : scope.permits assignment = true :=
  List.all_eq_true.mpr fun narrowing mem =>
    (Narrowing.holds_iff.mp (List.all_eq_true.mp within narrowing mem)).2

/-- What a scope knows of variables says what the conditions on its path say. -/
theorem IsTracked.holds_knownConditions_iff (tracked : scope.IsTracked) :
    scope.knownConditions.all (·.holds assignment) = true ↔
      scope.permits assignment = true := by
  rw [permits_iff, Option.all_eq_true]
  constructor
  · intro known narrowing onPath group isGroup
    refine ConditionGroup.holds_iff.mpr fun test made => ?_
    rcases (tracked.tests test).mpr ⟨narrowing, onPath, group, isGroup, made⟩ with
      ⟨all, isKnown, inAll⟩
    exact ConditionGroup.holds_iff.mp (known all isKnown) test inAll
  · intro onPath all isKnown
    refine ConditionGroup.holds_iff.mpr fun test inAll => ?_
    rcases (tracked.tests test).mp ⟨all, isKnown, inAll⟩ with
      ⟨narrowing, mem, group, isGroup, made⟩
    exact ConditionGroup.holds_iff.mp (onPath narrowing mem group isGroup) test made

theorem Reachable.exists_permits (reachable : Reachable schema scope) :
    ∃ assignment, scope.permits assignment = true :=
  scope.exists_holds_knownConditions.imp fun _ known =>
    (isTracked_of_reachable reachable).holds_knownConditions_iff.mp known

/-- A scope refuses a narrowing exactly if the narrowing's conditions never hold with its own. -/
theorem IsTracked.admits_eq_false_iff (tracked : scope.IsTracked) (narrowing : Narrowing) :
    scope.admits narrowing = false ↔ ¬∃ assignment, scope.permits assignment = true
      ∧ narrowing.conditions.all (·.holds assignment) = true := by
  simp only [← tracked.holds_knownConditions_iff]
  cases conditions : narrowing.conditions with
  | none =>
      have satisfiable := scope.exists_holds_knownConditions
      simp [admits, conditions, satisfiable]
  | some group =>
      have refused : scope.admits narrowing = !group.contradicts scope.knownConditions := by
        simp [admits, conditions]
      simp only [refused, Option.all_some, ← ConditionGroup.contradicts_eq_false_iff,
        Bool.not_eq_false', Bool.not_eq_false]

/-- A scope admits a narrowing whose conditions hold together with its own. -/
theorem Reachable.admits_of_permits {narrowing : Narrowing} (reachable : Reachable schema scope)
    (permits : scope.permits assignment = true)
    (holds : narrowing.conditions.all (·.holds assignment) = true) :
    scope.admits narrowing = true := by
  rw [← Bool.not_eq_false, (isTracked_of_reachable reachable).admits_eq_false_iff, not_not]
  exact ⟨assignment, permits, holds⟩

/-- What has to hold within a narrowing is what has to hold in the scope, and the conditions. -/
theorem Reachable.permits_narrow {narrower : Scope} {narrowing : Narrowing}
    (reachable : Reachable schema scope) (narrowed : scope.narrow schema narrowing = .ok narrower) :
    narrower.permits assignment =
      (scope.permits assignment && narrowing.conditions.all (·.holds assignment)) := by
  cases outer : scope.permits assignment with
  | false =>
      rcases path_prefix_of_narrow narrowed with ⟨more, path⟩
      rw [permits] at outer
      rw [permits, ← path, List.all_append, outer, Bool.false_and, Bool.false_and]
  | true =>
      have known := (isTracked_of_reachable reachable).holds_knownConditions_iff.mpr outer
      rw [Bool.true_and]
      rcases narrow_cases narrowed with ⟨isNone, rfl⟩ | ⟨effective, _, _, isEffective, -, -, rfl⟩
      · rw [outer, eq_comm, Option.all_eq_true]
        exact fun group => holds_of_implies known (effective?_eq_none_iff.mp isNone)
      · rw [permits] at outer
        rw [permits, List.all_append, outer, Bool.true_and, List.all_cons, List.all_nil,
          Bool.and_true, (effective?_eq_some isEffective).1]
        cases conditions : narrowing.conditions with
        | none => simp [unknownPart, conditions]
        | some group => simp [unknownPart, conditions, ConditionGroup.holds_remainderIn _ known]

/-- No object of a scope has a type that does not overlap with the scope's. -/
theorem IsSound.isPossible_eq_false (sound : IsSound schema scope) {type object : Name}
    (disjoint : schema.typesOverlap scope.type type = .ok false)
    (within : scope.holds schema object assignment = true) :
    schema.isPossible type object = false := by
  cases possible : schema.isPossible type object with
  | false => rfl
  | true =>
      have overlap := Schema.typesOverlap_of_isPossible (sound.isPossible_type within) possible
      rw [disjoint] at overlap
      cases overlap

/-- What scopes decide about one another, about narrowings and about types is what it means for the
objects within them. -/
theorem Reachable.decides_objects (lawful : schema.IsLawful) (reachable : Reachable schema scope) :
    (∀ other, scope.isWithin other = true → ∀ object assignment,
      scope.holds schema object assignment = true → other.holds schema object assignment = true)
    ∧ (∀ narrowing, scope.admits narrowing = false ↔
      ¬∃ assignment, scope.permits assignment = true
        ∧ narrowing.conditions.all (·.holds assignment) = true)
    ∧ ∀ type, schema.typesOverlap scope.type type = .ok false → ∀ object assignment,
      scope.holds schema object assignment = true → schema.isPossible type object = false := by
  have sound := isSound_of_reachable lawful reachable
  refine ⟨?_, sound.toIsTracked.admits_eq_false_iff, ?_⟩
  · exact fun _ isWithin _ _ within => sound.holds_of_isWithin isWithin within
  · exact fun _ disjoint _ _ within => sound.isPossible_eq_false disjoint within

end Scope

/-! A schema in which one interface implements another, and an object only the wider one. -/

namespace Animals

/-- The one field of all animals. -/
def nameField : FieldDefinition := ⟨"name", [], .named "String" false, []⟩

/-- Dogs are pets, bears are not. -/
def schema : Schema where
  types := [
    ⟨"Query", [], .object [] [⟨"animal", [], .named "Animal" false, []⟩]⟩,
    ⟨"Animal", [], .interface [] [nameField]⟩,
    ⟨"Pet", [], .interface ["Animal"] [nameField]⟩,
    ⟨"Dog", [], .object ["Pet", "Animal"] [nameField]⟩,
    ⟨"Bear", [], .object ["Animal"] [nameField]⟩,
    ⟨"String", [], .scalar⟩]
  directives := []
  query := some "Query"
  mutation := none
  subscription := none

/-- The scope of all animals. -/
def animals : Scope := ⟨"Animal", [.onType "Animal"], ["Animal"], none, []⟩

/-- What narrows it to pets, if a variable is true. -/
def ontoPets : Narrowing := ⟨some "Pet", some (.single ⟨"a", false⟩), none⟩

/-- The scope of pets. -/
def pets : Scope :=
  ⟨"Pet", [.onType "Animal", ontoPets], ["Animal", "Pet"], some (.single ⟨"a", false⟩), []⟩

/-- Whether two variables are true. -/
def firstAndSecond : ConditionGroup := ⟨[⟨"a", false⟩, ⟨"b", false⟩], by decide, by decide⟩

/-- The same tests in the other order. -/
def secondAndFirst : ConditionGroup := ⟨[⟨"b", false⟩, ⟨"a", false⟩], by decide, by decide⟩

theorem isLawful : schema.IsLawful := ⟨by decide, by decide⟩

theorem reachable : Scope.Reachable schema pets := by
  have isRoot : Scope.forType schema "Animal" = .ok animals := by decide +kernel
  have narrowed : animals.narrow schema ontoPets = .ok pets := by decide +kernel
  exact .narrow (.forType isRoot) narrowed

end Animals

/-- Dogs are pets. All pets are animals and none is a bear, and nothing is selected on them if the
variable is false. -/
theorem Scope.Reachable.decides_objects_animals :
    Animals.pets.holds Animals.schema "Dog" (fun _ => true) = true
    ∧ (∀ object assignment, Animals.pets.holds Animals.schema object assignment = true →
      Animals.animals.holds Animals.schema object assignment = true)
    ∧ (¬∃ assignment, Animals.pets.permits assignment = true
      ∧ (ConditionGroup.single ⟨"a", true⟩).holds assignment = true)
    ∧ ∀ object assignment, Animals.pets.holds Animals.schema object assignment = true →
      Animals.schema.isPossible "Bear" object = false := by
  rcases decides_objects Animals.isLawful Animals.reachable with ⟨within, refuses, disjoint⟩
  refine ⟨by decide +kernel, within Animals.animals (by decide +kernel), ?_,
    disjoint "Bear" (by decide +kernel)⟩
  exact (refuses (.onConditions (.single ⟨"a", true⟩))).mp (by decide +kernel)

end ResponseShape
