import Mathlib.Data.Finset.Card
import ResponseShape.Proofs.Scope.Within

/-!
# What narrowings fix

A narrowing restricts a scope to a type, by the values of variables, or to what lies behind a defer
boundary. Only what is not fixed yet joins the path of a scope, so each narrowing on the path fixes
something new (`Scope.Reachable.fixes_of_narrow`). Hence a path has at most one narrowing for
each restriction that its narrowings are made of, besides the one that it starts with
(`Scope.Reachable.length_path_le`).
-/

namespace ResponseShape

/-- Something that a narrowing can fix: a type that objects have, the value of a variable, or a
defer boundary that lies behind. -/
inductive Restriction where
  | type (name : Name)
  | test (variableName : Name)
  | boundary (defer : Defer)
deriving DecidableEq

/-- What a narrowing asks for, part by part. -/
def Narrowing.restrictions (narrowing : Narrowing) : List Restriction :=
  (narrowing.typeCondition.map .type).toList
    ++ ((narrowing.conditions.map (·.tests)).getD []).map (.test ·.variableName)
    ++ (narrowing.defer.map .boundary).toList

namespace Scope

/-- Whether all objects in a scope agree about a restriction. -/
def fixes (scope : Scope) : Restriction → Bool
  | .type name => scope.knowsType name
  | .test variableName => scope.knownConditions.any fun group => (group.on? variableName).isSome
  | .boundary defer => scope.knowsDefer defer

/-- Whether what a path adds to the narrowing that it starts with is made of given restrictions. -/
def IsMadeOf (restrictions : Finset Restriction) (scope : Scope) : Prop :=
  ∃ first rest, scope.path = first :: rest
    ∧ ∀ narrowing ∈ rest, ∀ restriction ∈ narrowing.restrictions, restriction ∈ restrictions

end Scope

section Parts

variable {narrowing : Narrowing} {restriction : Restriction} {scope other : Scope}

theorem Narrowing.mem_restrictions : restriction ∈ narrowing.restrictions ↔
    (∃ type ∈ narrowing.typeCondition, .type type = restriction)
      ∨ (∃ group ∈ narrowing.conditions, ∃ test ∈ group.tests,
        .test test.variableName = restriction)
      ∨ ∃ defer ∈ narrowing.defer, .boundary defer = restriction := by
  rcases narrowing with ⟨type, conditions, defer⟩
  cases conditions <;> simp [restrictions]

theorem Narrowing.restrictions_ne_nil (nonempty : narrowing.isEmpty = false) :
    narrowing.restrictions ≠ [] := by
  rcases narrowing with ⟨type, conditions, defer⟩
  rcases type with _ | type
  · rcases conditions with _ | group
    · rcases defer with _ | defer
      · simp [isEmpty] at nonempty
      · simp [restrictions]
    · simp [restrictions, group.nonempty]
  · simp [restrictions]

/-- What a scope leaves of a narrowing asks for nothing that the narrowing does not ask for. -/
theorem Scope.mem_restrictions_of_unknownPart
    (mem : restriction ∈ (scope.unknownPart narrowing).restrictions) :
    restriction ∈ narrowing.restrictions := by
  rcases Narrowing.mem_restrictions.mp mem with
    ⟨type, isType, same⟩ | ⟨group, isGroup, test, made, same⟩ | ⟨defer, isDefer, same⟩
  · exact Narrowing.mem_restrictions.mpr
      (Or.inl ⟨type, Option.eq_some_of_filter_eq_some isType, same⟩)
  · rcases Option.bind_eq_some_iff.mp isGroup with ⟨whole, isWhole, remains⟩
    exact Narrowing.mem_restrictions.mpr (Or.inr (Or.inl
      ⟨whole, isWhole, test, ConditionGroup.mem_of_remainderIn remains made, same⟩))
  · exact Narrowing.mem_restrictions.mpr
      (Or.inr (Or.inr ⟨defer, Option.eq_some_of_filter_eq_some isDefer, same⟩))

theorem Scope.fixes_test_iff {variableName : Name} :
    scope.fixes (.test variableName) = true ↔
      ∃ group ∈ scope.knownConditions, ∃ test ∈ group.tests, test.variableName = variableName := by
  simp [fixes, Option.any_eq_true, ConditionGroup.on?]

theorem Scope.IsFullyKnownIn.fixes (known : scope.IsFullyKnownIn other)
    (fixed : scope.fixes restriction = true) : other.fixes restriction = true := by
  cases restriction with
  | type name => exact known.knowsType fixed
  | test variableName =>
      rcases fixes_test_iff.mp fixed with ⟨group, isKnown, test, made, same⟩
      rcases known.tests test ⟨group, isKnown, made⟩ with ⟨more, isMore, alsoMade⟩
      exact fixes_test_iff.mpr ⟨more, isMore, test, alsoMade, same⟩
  | boundary defer => exact known.knowsDefer fixed

end Parts

namespace Scope

variable {schema : Schema} {scope narrower : Scope} {narrowing effective : Narrowing}
  {restriction : Restriction} {restrictions more : Finset Restriction}

namespace Reachable

theorem isFullyKnownIn_of_narrow (reachable : Reachable schema scope)
    (narrowed : scope.narrow schema narrowing = .ok narrower) : scope.IsFullyKnownIn narrower :=
  have inner := Reachable.narrow reachable narrowed
  reachable.isFullyKnownIn inner (isWithin_of_extends inner (path_prefix_of_narrow narrowed))

/-- Nothing of what joins the path was fixed before, and all of it is fixed afterwards. -/
theorem fixes_of_narrow (reachable : Reachable schema scope)
    (isEffective : scope.effective? narrowing = some effective)
    (narrowed : scope.narrow schema narrowing = .ok narrower)
    (mem : restriction ∈ effective.restrictions) :
    scope.fixes restriction = false ∧ narrower.fixes restriction = true := by
  have known := reachable.isFullyKnownIn_of_narrow narrowed
  have unknown : narrower.implies (scope.unknownPart narrowing) = true :=
    implies_unknownPart (implies_of_narrow reachable narrowed)
  have implied := implies_iff.mp unknown
  rw [(effective?_eq_some isEffective).1] at mem
  rcases Narrowing.mem_restrictions.mp mem with
    ⟨type, isType, rfl⟩ | ⟨group, isGroup, test, made, rfl⟩ | ⟨defer, isDefer, rfl⟩
  · constructor
    · simpa [fixes] using (Option.filter_eq_some_iff.mp isType).2
    · simpa [fixes, knowsType] using implied.1 type isType
  · rcases implied.2.1 group isGroup test made with ⟨all, isAll, inAll⟩
    refine ⟨?_, fixes_test_iff.mpr ⟨all, isAll, test, inAll, rfl⟩⟩
    -- a test of the variable that was known before is known in the end, and there is but one then
    rw [Bool.eq_false_iff]
    intro fixed
    rcases fixes_test_iff.mp fixed with ⟨before, isBefore, other, inBefore, sameVariable⟩
    rcases known.tests other ⟨before, isBefore, inBefore⟩ with ⟨alsoAll, isAlsoAll, alsoIn⟩
    rcases Option.some.inj (isAll.symm.trans isAlsoAll) with rfl
    rcases List.inj_on_of_nodup_map all.nodup alsoIn inAll sameVariable with rfl
    rcases Option.bind_eq_some_iff.mp isGroup with ⟨whole, -, remains⟩
    rw [isBefore] at remains
    exact ConditionGroup.not_mem_of_remainderIn remains made inBefore
  · constructor
    · simpa [fixes] using (Option.filter_eq_some_iff.mp isDefer).2
    · simpa [fixes, knowsDefer] using implied.2.2 defer isDefer

/-- More of the given restrictions are fixed once some of them have joined the path. -/
theorem card_fixes_lt (reachable : Reachable schema scope)
    (isEffective : scope.effective? narrowing = some effective)
    (narrowed : scope.narrow schema narrowing = .ok narrower)
    (parts : ∀ restriction ∈ effective.restrictions, restriction ∈ restrictions) :
    (restrictions.filter (scope.fixes · = true)).card
      < (restrictions.filter (narrower.fixes · = true)).card := by
  have known := reachable.isFullyKnownIn_of_narrow narrowed
  rcases List.exists_mem_of_ne_nil _
    (Narrowing.restrictions_ne_nil (effective?_eq_some isEffective).2) with ⟨restriction, mem⟩
  rcases reachable.fixes_of_narrow isEffective narrowed mem with ⟨wasOpen, isFixed⟩
  apply Finset.card_lt_card
  rw [Finset.ssubset_iff_of_subset (Finset.monotone_filter_right _ fun _ _ => known.fixes)]
  refine ⟨restriction, Finset.mem_filter.mpr ⟨parts restriction mem, isFixed⟩, ?_⟩
  simp [wasOpen]

theorem path_ne_nil (reachable : Reachable schema scope) : scope.path ≠ [] := by
  rcases (isTracked_of_reachable reachable).type with ⟨narrowing, mem, -⟩
  exact List.ne_nil_of_mem mem

/-- A path has at most one narrowing for each restriction that it is made of, besides the one that
it starts with. -/
theorem length_path_le (reachable : Reachable schema scope)
    (madeOf : scope.IsMadeOf restrictions) : scope.path.length ≤ restrictions.card + 1 := by
  -- the restrictions that are fixed count the narrowings
  have counted : scope.path.length ≤ (restrictions.filter (scope.fixes · = true)).card + 1 := by
    induction reachable with
    | forType isRoot =>
        rcases forType_eq_ok isRoot with ⟨supertypes, -, rfl⟩
        simp
    | @narrow scope narrower narrowing reachable narrowed ih =>
        rcases narrow_cases narrowed with ⟨-, rfl⟩ | ⟨effective, _, _, isEffective, -, -, isScope⟩
        · exact ih madeOf
        · have path : narrower.path = scope.path ++ [effective] := by rw [isScope]
          rcases List.exists_cons_of_ne_nil reachable.path_ne_nil with ⟨first, rest, isPath⟩
          rcases madeOf with ⟨_, _, isNarrowerPath, ofRest⟩
          rw [path, isPath, List.cons_append, List.cons.injEq] at isNarrowerPath
          rcases isNarrowerPath with ⟨rfl, rfl⟩
          rw [List.forall_mem_append, List.forall_mem_singleton] at ofRest
          have before := ih ⟨_, _, isPath, ofRest.1⟩
          have more := reachable.card_fixes_lt isEffective narrowed ofRest.2
          rw [path, List.length_append, List.length_singleton]
          omega
  exact counted.trans (Nat.add_le_add_right (Finset.card_le_card (Finset.filter_subset _ _)) 1)

end Reachable

namespace IsMadeOf

theorem mono (madeOf : scope.IsMadeOf restrictions) (subset : restrictions ⊆ more) :
    scope.IsMadeOf more := by
  rcases madeOf with ⟨first, rest, path, ofRest⟩
  exact ⟨first, rest, path, fun narrowing mem restriction isPart =>
    subset (ofRest narrowing mem restriction isPart)⟩

theorem of_forType {type : Name} (isRoot : forType schema type = .ok scope) :
    scope.IsMadeOf restrictions := by
  rcases forType_eq_ok isRoot with ⟨supertypes, -, rfl⟩
  exact ⟨_, [], rfl, fun _ mem => by cases mem⟩

theorem of_path (madeOf : scope.IsMadeOf restrictions)
    (path : narrower.path = scope.path ++ [narrowing])
    (parts : ∀ restriction ∈ narrowing.restrictions, restriction ∈ restrictions) :
    narrower.IsMadeOf restrictions := by
  rcases madeOf with ⟨first, rest, isPath, ofRest⟩
  refine ⟨first, rest ++ [narrowing], by rw [path, isPath, List.cons_append], ?_⟩
  exact List.forall_mem_append.mpr ⟨ofRest, List.forall_mem_singleton.mpr parts⟩

theorem narrow (madeOf : scope.IsMadeOf restrictions)
    (narrowed : scope.narrow schema narrowing = .ok narrower)
    (parts : ∀ restriction ∈ narrowing.restrictions, restriction ∈ restrictions) :
    narrower.IsMadeOf restrictions := by
  rcases narrow_cases narrowed with ⟨-, rfl⟩ | ⟨effective, _, _, isEffective, -, -, rfl⟩
  · exact madeOf
  · refine madeOf.of_path rfl fun restriction mem => parts restriction ?_
    rw [(effective?_eq_some isEffective).1] at mem
    exact mem_restrictions_of_unknownPart mem

end IsMadeOf

end Scope

end ResponseShape
