import ResponseShape.Proofs.Scope.Decisions
import ResponseShape.Proofs.Scope.Failures

/-!
# Narrowing as a meet

To be within a scope is a preorder on reachable scopes, and narrowing is its meet: of all that lies
within a scope and implies a narrowing, the narrower scope is the widest
(`Scope.Reachable.isPreorder_and_isMeet`). There is one exactly if the scope admits the narrowing.

Narrowing several times in turn gives the meet with all narrowings
(`Scope.Reachable.isMeet_narrowAll`), and succeeds exactly if all conditions can hold together
(`Scope.Reachable.exists_narrowAll_iff`). Neither mentions an order, so the order of narrowings
decides about the path alone, not about what is known at its end.

Of a narrowing only the effective part joins the path. It is the least that has to be asked within
the scope (`Scope.Reachable.effective?_isEffectivePart`).
-/

namespace ResponseShape

/-- Whether the type condition of a narrowing, if there is one, has all its supertypes defined. -/
def Narrowing.IsDefinedIn (schema : Schema) (narrowing : Narrowing) : Prop :=
  ∀ type ∈ narrowing.typeCondition, schema.HasDefinedSupertypes type

namespace Animals

/-- What narrows pets to dogs, if two variables are true. -/
def ontoDogs : Narrowing :=
  ⟨some "Dog", some secondAndFirst, none⟩

/-- The scope of dogs. -/
def dogs : Scope where
  type := "Dog"
  path := [.onType "Animal", ontoPets, ⟨some "Dog", some (.single ⟨"b", false⟩), none⟩]
  knownTypes := ["Animal", "Pet", "Dog"]
  knownConditions := some firstAndSecond
  knownDefers := []

/-- What narrows animals to pets that come later, if two variables are true. -/
def ontoDeferredPets : Narrowing :=
  ⟨some "Pet", some firstAndSecond, some ⟨"later", none⟩⟩

end Animals

namespace Scope

/-- The scope within several narrowings, one after the other. -/
def narrowAll (schema : Schema) (scope : Scope) (narrowings : List Narrowing) :
    Except BuildError Scope :=
  narrowings.foldlM (·.narrow schema ·) scope

/-- Whether a scope is the widest of those that lie within another one and imply all of some
narrowings. -/
structure IsMeet (scope : Scope) (narrowings : List Narrowing) (narrower : Scope) : Prop where
  isWithin : narrower.isWithin scope = true
  implies : ∀ narrowing ∈ narrowings, narrower.implies narrowing = true
  widest : ∀ other : Scope, other.isWithin scope = true →
    (∀ narrowing ∈ narrowings, other.implies narrowing = true) → other.isWithin narrower = true

/-- Whether one narrowing is what another one asks beyond what a scope knows. -/
structure IsEffectivePart (schema : Schema) (scope : Scope) (narrowing effective : Narrowing) :
    Prop where
  nonempty : effective.isEmpty = false
  fixed : scope.effective? effective = some effective
  type : ∀ type ∈ effective.typeCondition,
    narrowing.typeCondition = some type ∧ scope.knowsType type = false
  conditions : ∀ group ∈ effective.conditions, ∃ whole ∈ narrowing.conditions,
    group.isSubset whole = true
      ∧ ∀ test ∈ group.tests, ∀ known ∈ scope.knownConditions, known.contains test = false
  defer : ∀ defer ∈ effective.defer,
    narrowing.defer = some defer ∧ scope.knowsDefer defer = false
  /-- Within the scope, the part asks all that the whole asks. -/
  implies_iff : ∀ other, Reachable schema other → other.isWithin scope = true →
    (other.implies effective = true ↔ other.implies narrowing = true)

variable {schema : Schema} {scope narrower other : Scope} {narrowing effective : Narrowing}
  {narrowings others : List Narrowing} {assignment : Assignment}

section Effective

theorem Reachable.isEffectivePart (reachable : Reachable schema scope)
    (isEffective : scope.effective? narrowing = some effective) :
    scope.IsEffectivePart schema narrowing effective := by
  rcases effective?_eq_some isEffective with ⟨rfl, nonempty⟩
  exact {
    nonempty
    fixed := effective?_effective isEffective
    type := fun type isType => by simpa using Option.filter_eq_some_iff.mp isType
    conditions := by
      intro group isGroup
      rcases Option.bind_eq_some_iff.mp isGroup with ⟨whole, isWhole, remains⟩
      refine ⟨whole, isWhole, ?_, ?_⟩
      · exact ConditionGroup.isSubset_iff.mpr fun _ => ConditionGroup.mem_of_remainderIn remains
      · intro test made known isKnown
        simpa [ConditionGroup.contains] using
          not_mem_of_effective isEffective isGroup isKnown made
    defer := fun defer isDefer => by simpa using Option.filter_eq_some_iff.mp isDefer
    implies_iff := fun _ otherReachable isWithin =>
      reachable.implies_unknownPart_iff otherReachable isWithin narrowing }

/-- Nothing of a narrowing is effective exactly if the scope implies it, and otherwise its effective
part is what it asks beyond what the scope knows. -/
theorem Reachable.effective?_isEffectivePart (reachable : Reachable schema scope)
    (narrowing : Narrowing) :
    (scope.effective? narrowing = none ↔ scope.implies narrowing = true)
    ∧ ∀ effective, scope.effective? narrowing = some effective →
      scope.IsEffectivePart schema narrowing effective :=
  ⟨effective?_eq_none_iff, fun _ isEffective => reachable.isEffectivePart isEffective⟩

/-- Of a deferred branch on pets that two variables include, one variable and the boundary are left
within the pets that the other variable includes, and nothing is left of what is known of these. -/
theorem Reachable.effective?_isEffectivePart_pets :
    Animals.pets.effective? Animals.ontoPets = none
    ∧ Animals.pets.IsEffectivePart Animals.schema Animals.ontoDeferredPets
      ⟨none, some (.single ⟨"b", false⟩), some ⟨"later", none⟩⟩ := by
  rcases Animals.reachable.effective?_isEffectivePart Animals.ontoPets with ⟨known, -⟩
  rcases Animals.reachable.effective?_isEffectivePart Animals.ontoDeferredPets with ⟨-, left⟩
  exact ⟨known.mpr (by decide +kernel), left _ (by decide +kernel)⟩

end Effective

section Once

theorem Reachable.isDefinedIn_of_implies (reachable : Reachable schema scope)
    (implied : scope.implies narrowing = true) : narrowing.IsDefinedIn schema := by
  intro type isType
  have knows := (implies_iff.mp implied).1 type isType
  rcases reachable.followsFromPath.mem_knownTypes.mp knows with ⟨_, -, _, known, mem⟩
  exact Schema.hasDefinedSupertypes_iff.mpr (Schema.exists_supertypes_of_mem known mem)

/-- The supertypes that a narrowing adds to a scope can be listed if they are defined. -/
theorem exists_supertypes_of_effective (defined : narrowing.IsDefinedIn schema)
    (isEffective : scope.effective? narrowing = some effective) :
    ∃ supertypes,
      (effective.typeCondition.map schema.supertypes).getD (.ok []) = .ok supertypes := by
  cases condition : effective.typeCondition with
  | none => exact ⟨[], rfl⟩
  | some type =>
      rw [(effective?_eq_some isEffective).1] at condition
      have isType := (Option.filter_eq_some_iff.mp condition).1
      exact Schema.hasDefinedSupertypes_iff.mp (defined type isType)

theorem exists_narrow (defined : narrowing.IsDefinedIn schema)
    (admits : scope.admits narrowing = true) :
    ∃ narrower, scope.narrow schema narrowing = .ok narrower := by
  cases isEffective : scope.effective? narrowing with
  | none => exact ⟨scope, narrow_of_implies (effective?_eq_none_iff.mp isEffective)⟩
  | some effective =>
      rcases exists_supertypes_of_effective defined isEffective with ⟨supertypes, types⟩
      rcases exists_conditionsWith_of_admits ((admits_effective isEffective).trans admits) with
        ⟨known, conditions⟩
      rw [narrow_eq_of_effective isEffective, types, conditions]
      exact ⟨_, rfl⟩

theorem narrow_of_refused (defined : narrowing.IsDefinedIn schema)
    (refused : scope.admits narrowing = false) :
    ∃ details, scope.narrow schema narrowing = .error (.internal details) := by
  rcases exists_effective_of_refused refused with ⟨_, isEffective⟩
  rcases exists_supertypes_of_effective defined isEffective with ⟨supertypes, types⟩
  rcases conditionsWith_of_refused ((admits_effective isEffective).trans refused) with
    ⟨details, conditions⟩
  rw [narrow_eq_of_effective isEffective, types, conditions]
  exact ⟨details, rfl⟩

/-- The narrower scope is the widest within the scope that implies the narrowing. -/
theorem Reachable.isMeet_narrow (reachable : Reachable schema scope)
    (narrowed : scope.narrow schema narrowing = .ok narrower) :
    scope.IsMeet [narrowing] narrower where
  isWithin := isWithin_of_extends (.narrow reachable narrowed) (path_prefix_of_narrow narrowed)
  implies := List.forall_mem_singleton.mpr (implies_of_narrow reachable narrowed)
  widest _ isWithin implied :=
    isWithin_narrow narrowed isWithin (implied narrowing (List.mem_singleton_self _))

end Once

section InTurn

theorem narrowAll_cons : scope.narrowAll schema (narrowing :: narrowings) =
    scope.narrow schema narrowing >>= (·.narrowAll schema narrowings) := by
  rw [narrowAll, List.foldlM_cons]
  rfl

theorem narrowAll_cons_eq_ok
    (narrowed : scope.narrowAll schema (narrowing :: narrowings) = .ok narrower) :
    ∃ next, scope.narrow schema narrowing = .ok next
      ∧ next.narrowAll schema narrowings = .ok narrower := by
  rw [narrowAll_cons] at narrowed
  cases once : scope.narrow schema narrowing with
  | error error =>
      rw [once] at narrowed
      cases narrowed
  | ok next =>
      rw [once] at narrowed
      exact ⟨next, rfl, narrowed⟩

theorem Reachable.of_narrowAll (reachable : Reachable schema scope)
    (narrowed : scope.narrowAll schema narrowings = .ok narrower) : Reachable schema narrower :=
  foldlM_induction (motive := fun _ => Reachable schema) reachable
    (fun _ _ _ _ before once => .narrow before once) narrowed

theorem path_prefix_of_narrowAll (narrowed : scope.narrowAll schema narrowings = .ok narrower) :
    scope.path <+: narrower.path :=
  foldlM_induction (motive := fun _ next => scope.path <+: next.path) List.prefix_rfl
    (fun _ _ _ _ before once => before.trans (path_prefix_of_narrow once)) narrowed

/-- Narrowing the meet with some narrowings gives the meet with one narrowing more. -/
theorem IsMeet.narrow {done : List Narrowing} {next : Scope} (meet : scope.IsMeet done narrower)
    (reachable : Reachable schema narrower)
    (narrowed : narrower.narrow schema narrowing = .ok next) :
    scope.IsMeet (done ++ [narrowing]) next := by
  have ofNext := Reachable.narrow reachable narrowed
  have here := reachable.isMeet_narrow narrowed
  have known := reachable.isFullyKnownIn ofNext here.isWithin
  constructor
  · exact reachable.isWithin_trans ofNext here.isWithin meet.isWithin
  · rw [List.forall_mem_append]
    exact ⟨fun earlier mem => known.implies (meet.implies earlier mem), here.implies⟩
  · intro other isWithin implied
    rw [List.forall_mem_append] at implied
    exact here.widest other (meet.widest other isWithin implied.1) implied.2

/-- Narrowing several times gives the widest scope within the scope that implies all narrowings. -/
theorem Reachable.isMeet_narrowAll (reachable : Reachable schema scope)
    (narrowed : scope.narrowAll schema narrowings = .ok narrower) :
    scope.IsMeet narrowings narrower := by
  have begins : scope.IsMeet [] scope :=
    ⟨reachable.isWithin_self, by simp, fun _ isWithin _ => isWithin⟩
  have all := foldlM_induction
    (motive := fun done next => Reachable schema next ∧ scope.IsMeet done next) ⟨reachable, begins⟩
    (fun _ _ _ _ before once => ⟨.narrow before.1 once, before.2.narrow before.1 once⟩) narrowed
  exact all.2

/-- What has to hold within several narrowings is what has to hold in the scope, and all their
conditions. -/
theorem Reachable.permits_narrowAll (reachable : Reachable schema scope)
    (narrowed : scope.narrowAll schema narrowings = .ok narrower) :
    narrower.permits assignment = true ↔ scope.permits assignment = true
      ∧ ∀ narrowing ∈ narrowings, narrowing.conditions.all (·.holds assignment) = true := by
  induction narrowings generalizing scope with
  | nil =>
      rcases Except.ok.inj narrowed with rfl
      simp
  | cons narrowing rest ih =>
      rcases narrowAll_cons_eq_ok narrowed with ⟨next, once, further⟩
      rw [ih (.narrow reachable once) further, reachable.permits_narrow once, Bool.and_eq_true,
        List.forall_mem_cons, and_assoc]

/-- Within a scope narrowed several times lie the objects that meet all narrowings. -/
theorem Reachable.holds_narrowAll {object : Name} (lawful : schema.IsLawful)
    (reachable : Reachable schema scope)
    (narrowed : scope.narrowAll schema narrowings = .ok narrower) :
    narrower.holds schema object assignment = true ↔ scope.holds schema object assignment = true
      ∧ ∀ narrowing ∈ narrowings, narrowing.holds schema object assignment = true := by
  induction narrowings generalizing scope with
  | nil =>
      rcases Except.ok.inj narrowed with rfl
      simp
  | cons narrowing rest ih =>
      rcases narrowAll_cons_eq_ok narrowed with ⟨next, once, further⟩
      rw [ih (.narrow reachable once) further,
        (isSound_of_reachable lawful reachable).holds_narrow once, Bool.and_eq_true,
        List.forall_mem_cons, and_assoc]

/-- A scope can be narrowed several times exactly if some assignment satisfies all conditions. -/
theorem Reachable.exists_narrowAll_iff (reachable : Reachable schema scope)
    (defined : ∀ narrowing ∈ narrowings, narrowing.IsDefinedIn schema) :
    (∃ narrower, scope.narrowAll schema narrowings = .ok narrower) ↔
      ∃ assignment, scope.permits assignment = true
        ∧ ∀ narrowing ∈ narrowings, narrowing.conditions.all (·.holds assignment) = true := by
  constructor
  · rintro ⟨narrower, narrowed⟩
    rcases (reachable.of_narrowAll narrowed).exists_permits with ⟨assignment, permits⟩
    exact ⟨assignment, (reachable.permits_narrowAll narrowed).mp permits⟩
  · rintro ⟨assignment, permits, holds⟩
    induction narrowings generalizing scope with
    | nil => exact ⟨scope, rfl⟩
    | cons narrowing rest ih =>
        rw [List.forall_mem_cons] at defined holds
        have admits := reachable.admits_of_permits permits holds.1
        rcases exists_narrow defined.1 admits with ⟨next, once⟩
        have nextPermits : next.permits assignment = true := by
          rw [reachable.permits_narrow once, permits, holds.1, Bool.and_self]
        rcases ih (.narrow reachable once) defined.2 nextPermits holds.2 with ⟨narrower, further⟩
        exact ⟨narrower, by rw [narrowAll_cons, once]; exact further⟩

/-- Only contradictions keep a scope from being narrowed several times. -/
theorem isInternal_of_narrowAll {error : BuildError}
    (defined : ∀ narrowing ∈ narrowings, narrowing.IsDefinedIn schema)
    (failed : scope.narrowAll schema narrowings = .error error) : error.isInternal = true := by
  induction narrowings generalizing scope with
  | nil => cases failed
  | cons narrowing rest ih =>
      rw [List.forall_mem_cons] at defined
      rw [narrowAll_cons] at failed
      cases admits : scope.admits narrowing with
      | false =>
          rcases narrow_of_refused defined.1 admits with ⟨details, once⟩
          rw [once] at failed
          rcases Except.error.inj failed with rfl
          rfl
      | true =>
          rcases exists_narrow defined.1 admits with ⟨next, once⟩
          rw [once] at failed
          exact ih defined.2 failed

/-- In which order a scope is narrowed decides neither whether it can be nor what it is then
within. -/
theorem Reachable.exists_narrowAll_of_same (reachable : Reachable schema scope)
    (defined : ∀ narrowing ∈ narrowings, narrowing.IsDefinedIn schema)
    (same : ∀ narrowing, narrowing ∈ others ↔ narrowing ∈ narrowings)
    (narrowed : scope.narrowAll schema narrowings = .ok narrower) :
    ∃ other, scope.narrowAll schema others = .ok other
      ∧ narrower.isWithin other = true ∧ other.isWithin narrower = true := by
  have compatible := (reachable.exists_narrowAll_iff defined).mp ⟨narrower, narrowed⟩
  simp only [← same] at defined compatible
  rcases (reachable.exists_narrowAll_iff defined).mpr compatible with ⟨other, otherNarrowed⟩
  have meet := reachable.isMeet_narrowAll narrowed
  have otherMeet := reachable.isMeet_narrowAll otherNarrowed
  refine ⟨other, otherNarrowed, ?_, ?_⟩
  · exact otherMeet.widest narrower meet.isWithin
      fun narrowing mem => meet.implies narrowing ((same narrowing).mp mem)
  · exact meet.widest other otherMeet.isWithin
      fun narrowing mem => otherMeet.implies narrowing ((same narrowing).mpr mem)

end InTurn

theorem Reachable.isWithin_of_isAncestorOf (reachable : Reachable schema narrower)
    (isAncestor : scope.isAncestorOf narrower = true) : narrower.isWithin scope = true := by
  refine List.all_eq_true.mpr fun narrowing onPath => ?_
  rcases exists_beq_mem_of_isPrefixOf isAncestor onPath with ⟨other, onFurtherPath, same⟩
  exact implies_of_beq same (implies_of_mem_path reachable onFurtherPath)

/-- To be within a scope is a preorder on reachable scopes, wider along a path, and narrowing is its
meet: it fails exactly if the scope does not admit the narrowing, changes nothing the second time,
and the order of narrowings does not count. -/
theorem Reachable.isPreorder_and_isMeet (reachable : Reachable schema scope) :
    scope.isWithin scope = true
    ∧ (∀ other third, Reachable schema other → Reachable schema third →
      scope.isWithin other = true → other.isWithin third = true → scope.isWithin third = true)
    ∧ (∀ other, Reachable schema other → scope.isAncestorOf other = true →
      other.isWithin scope = true)
    ∧ (∀ narrowing, narrowing.IsDefinedIn schema → scope.admits narrowing = false →
      ∃ details, scope.narrow schema narrowing = .error (.internal details))
    ∧ (∀ narrowing, narrowing.IsDefinedIn schema → scope.admits narrowing = true →
      ∃ narrower, scope.narrow schema narrowing = .ok narrower
        ∧ scope.IsMeet [narrowing] narrower
        ∧ narrower.narrow schema narrowing = .ok narrower)
    ∧ ∀ first second, first.IsDefinedIn schema → second.IsDefinedIn schema → ∀ narrower,
      scope.narrowAll schema [first, second] = .ok narrower →
        ∃ other, scope.narrowAll schema [second, first] = .ok other
          ∧ narrower.isWithin other = true ∧ other.isWithin narrower = true := by
  refine ⟨reachable.isWithin_self, ?_, ?_, ?_, ?_, ?_⟩
  · exact fun _ _ otherReachable _ inner outer =>
      otherReachable.isWithin_trans reachable inner outer
  · exact fun _ otherReachable isAncestor => otherReachable.isWithin_of_isAncestorOf isAncestor
  · exact fun _ defined refused => narrow_of_refused defined refused
  · intro narrowing defined admits
    rcases exists_narrow defined admits with ⟨narrower, narrowed⟩
    have meet := reachable.isMeet_narrow narrowed
    have implied := meet.implies narrowing (List.mem_singleton_self _)
    exact ⟨narrower, narrowed, meet, narrow_of_implies implied⟩
  · intro first second firstDefined secondDefined narrower narrowed
    refine reachable.exists_narrowAll_of_same ?_ ?_ narrowed
    · simp [firstDefined, secondDefined]
    · simp [or_comm]

/-- Dogs are pets and so animals, and they are all of the pets within the narrowing to dogs. Pets
cannot be narrowed to what their variable excludes. Narrowed to dogs first and to pets then, animals
are the same ones. -/
theorem Reachable.isPreorder_and_isMeet_dogs :
    Animals.dogs.isWithin Animals.animals = true
    ∧ (∃ narrower, Animals.pets.narrow Animals.schema Animals.ontoDogs = .ok narrower
      ∧ Animals.pets.IsMeet [Animals.ontoDogs] narrower
      ∧ narrower.narrow Animals.schema Animals.ontoDogs = .ok narrower)
    ∧ (∃ details, Animals.pets.narrow Animals.schema (.onConditions (.single ⟨"a", true⟩))
      = .error (.internal details))
    ∧ ∃ other,
      Animals.animals.narrowAll Animals.schema [Animals.ontoDogs, Animals.ontoPets] = .ok other
        ∧ Animals.dogs.isWithin other = true ∧ other.isWithin Animals.dogs = true := by
  have isRoot : Scope.forType Animals.schema "Animal" = .ok Animals.animals := by decide +kernel
  have narrowed : Animals.pets.narrow Animals.schema Animals.ontoDogs = .ok Animals.dogs := by
    decide +kernel
  have ofAnimals := Reachable.forType isRoot
  have ofDogs := Reachable.narrow Animals.reachable narrowed
  have toPets : Animals.ontoPets.IsDefinedIn Animals.schema := by
    rintro type ⟨⟩
    exact Schema.hasDefinedSupertypes_iff.mpr ⟨["Pet", "Animal"], by decide +kernel⟩
  have toDogs : Animals.ontoDogs.IsDefinedIn Animals.schema := by
    rintro type ⟨⟩
    exact Schema.hasDefinedSupertypes_iff.mpr ⟨["Dog", "Animal", "Pet"], by decide +kernel⟩
  rcases Animals.reachable.isPreorder_and_isMeet with ⟨-, -, along, refused, admitted, -⟩
  rcases ofAnimals.isPreorder_and_isMeet with ⟨-, -, -, -, -, inAnyOrder⟩
  refine ⟨?_, admitted Animals.ontoDogs toDogs (by decide +kernel), ?_, ?_⟩
  · exact ofDogs.isPreorder_and_isMeet.2.1 Animals.pets Animals.animals Animals.reachable ofAnimals
      (along Animals.dogs ofDogs (by decide +kernel)) (by decide +kernel)
  · exact refused _ (by rintro type ⟨⟩) (by decide +kernel)
  · exact inAnyOrder Animals.ontoPets Animals.ontoDogs toPets toDogs Animals.dogs
      (by decide +kernel)

end Scope

end ResponseShape
