import ResponseShape.Entity.Place
import ResponseShape.Proofs.Outcomes
import ResponseShape.Proofs.Scope.Within

/-!
# Equal scopes

Scopes compare by their paths, and groups on a path without the order of their tests. Scopes that
compare equal may therefore differ, but not in what is asked of them: each knows what the other
knows (`Scope.Reachable.isAlike`), so they imply, admit and leave the same of every narrowing
(`Scope.IsAlike.effective?_eq`), and narrowed by it they still compare equal
(`Scope.IsAlike.narrow`).
-/

namespace ResponseShape

section Equivalences

instance : EquivBEq Narrowing where
  rfl := Narrowing.beq_refl _
  symm same := by rwa [Narrowing.beq_comm]
  trans {first second third} same further := by
    rcases Narrowing.of_beq same with ⟨type, conditions, defer⟩
    change (first.typeCondition == third.typeCondition && first.conditions == third.conditions
      && first.defer == third.defer) = true
    rw [type, defer, BEq.congr_left conditions]
    exact further

instance : EquivBEq Scope where
  rfl {scope} := show (scope.path == scope.path) = true from BEq.rfl
  symm {scope other} same := show (other.path == scope.path) = true from BEq.symm same
  trans {first second third} same further :=
    show (first.path == third.path) = true from
      PartialEquivBEq.trans (b := second.path) same further

theorem Scope.forall₂_of_beq {scope other : Scope} (same : (scope == other) = true) :
    List.Forall₂ (fun narrowing other => (narrowing == other) = true) scope.path other.path :=
  ResponseShape.forall₂_of_beq same

namespace Place

variable {place other : Place}

theorem beq_iff : (place == other) = true ↔ place.entity.location = other.entity.location
    ∧ (place.enclosing == other.enclosing) = true ∧ (place.scope == other.scope) = true := by
  change (place.entity.location == other.entity.location && place.enclosing == other.enclosing
    && place.scope == other.scope) = true ↔ _
  rw [Bool.and_eq_true, Bool.and_eq_true, beq_iff_eq, and_assoc]

theorem of_beq (same : (place == other) = true) :
    place.entity.location = other.entity.location ∧ (place.enclosing == other.enclosing) = true
      ∧ (place.scope == other.scope) = true :=
  beq_iff.mp same

theorem forall₂_scopes_of_beq (same : (place == other) = true) :
    List.Forall₂ (fun scope other => (scope == other) = true) place.scopes other.scopes := by
  rcases of_beq same with ⟨-, enclosing, scope⟩
  exact List.rel_append (forall₂_of_beq enclosing) (.cons scope .nil)

end Place

instance : EquivBEq Place where
  rfl := Place.beq_iff.mpr ⟨rfl, BEq.rfl, BEq.rfl⟩
  symm same := by
    rcases Place.of_beq same with ⟨location, enclosing, scope⟩
    exact Place.beq_iff.mpr ⟨location.symm, BEq.symm enclosing, BEq.symm scope⟩
  trans same further := by
    rcases Place.of_beq same with ⟨location, enclosing, scope⟩
    rcases Place.of_beq further with ⟨nextLocation, nextEnclosing, nextScope⟩
    exact Place.beq_iff.mpr ⟨location.trans nextLocation,
      PartialEquivBEq.trans enclosing nextEnclosing, PartialEquivBEq.trans scope nextScope⟩

end Equivalences

namespace ConditionGroup

/-- Whether the same tests are known, in whatever order. -/
def TestAlike (known other : Option ConditionGroup) : Prop :=
  ∀ test, (∃ group ∈ known, test ∈ group.tests) ↔ ∃ group ∈ other, test ∈ group.tests

namespace TestAlike

variable {known other : Option ConditionGroup} (alike : TestAlike known other)

include alike

theorem cases : (known = none ∧ other = none) ∨ ∃ group partner, known = some group
    ∧ other = some partner ∧ ∀ test, test ∈ group.tests ↔ test ∈ partner.tests := by
  cases known with
  | none =>
      cases other with
      | none => exact Or.inl ⟨rfl, rfl⟩
      | some partner =>
          rcases List.exists_mem_of_ne_nil _ partner.nonempty with ⟨test, made⟩
          have impossible := (alike test).mpr ⟨partner, rfl, made⟩
          simp at impossible
  | some group =>
      cases other with
      | none =>
          rcases List.exists_mem_of_ne_nil _ group.nonempty with ⟨test, made⟩
          have impossible := (alike test).mp ⟨group, rfl, made⟩
          simp at impossible
      | some partner => exact Or.inr ⟨group, partner, rfl, rfl, by simpa [TestAlike] using alike⟩

theorem all_holds (assignment : Assignment) :
    known.all (·.holds assignment) = other.all (·.holds assignment) := by
  rcases alike.cases with ⟨rfl, rfl⟩ | ⟨group, partner, rfl, rfl, same⟩
  · rfl
  · rw [Option.all_some, Option.all_some, Bool.eq_iff_iff, holds_iff, holds_iff]
    simp only [same]

theorem contradicts_eq (group : ConditionGroup) :
    group.contradicts known = group.contradicts other := by
  rw [← Bool.not_inj_iff, Bool.eq_iff_iff]
  simp only [Bool.not_eq_true', contradicts_eq_false_iff, alike.all_holds]

theorem remainderIn_eq (group : ConditionGroup) :
    group.remainderIn known = group.remainderIn other := by
  rcases alike.cases with ⟨rfl, rfl⟩ | ⟨inside, partner, rfl, rfl, same⟩
  · rfl
  · have contained (test : VariableTest) : inside.contains test = partner.contains test := by
      simp only [contains, List.contains_eq_mem, same]
    simp only [remainderIn, contained]

theorem canHoldIn_eq (alternatives : Alternatives) :
    alternatives.canHoldIn known = alternatives.canHoldIn other := by
  simp only [Alternatives.canHoldIn, alike.contradicts_eq]

theorem reduceFrom_eq (groups : List ConditionGroup) (reduced : Option Alternatives) :
    Alternatives.reduceFrom known reduced groups
      = Alternatives.reduceFrom other reduced groups := by
  induction groups generalizing reduced with
  | nil => rfl
  | cons group rest ih => simp only [Alternatives.reduceFrom, alike.remainderIn_eq, ih]

theorem alternatives_remainderIn_eq (alternatives : Alternatives) :
    alternatives.remainderIn known = alternatives.remainderIn other := by
  simp only [Alternatives.remainderIn, alike.contradicts_eq, alike.reduceFrom_eq]

end TestAlike

end ConditionGroup

namespace Scope

variable {schema : Schema} {scope other inside : Scope} {narrowing : Narrowing}

/-- Whether scopes with equal paths know the same. -/
structure IsAlike (scope other : Scope) : Prop where
  path : (scope == other) = true
  type : scope.type = other.type
  knows : scope.IsFullyKnownIn other
  isKnown : other.IsFullyKnownIn scope

theorem typeConditions_eq_of_beq (same : (scope == other) = true) :
    scope.typeConditions = other.typeConditions :=
  filterMap_eq_of_forall₂ ((forall₂_of_beq same).imp fun _ _ here => (Narrowing.of_beq here).1)

theorem isAncestorOf_congr (same : (scope == other) = true) (candidate : Scope) :
    scope.isAncestorOf candidate = other.isAncestorOf candidate
      ∧ candidate.isAncestorOf scope = candidate.isAncestorOf other :=
  isPrefixOf_congr (forall₂_of_beq same) candidate.path

/-- Reachable scopes with equal paths know the same. -/
theorem Reachable.isAlike (reachable : Reachable schema scope)
    (otherReachable : Reachable schema other) (same : (scope == other) = true) :
    scope.IsAlike other where
  path := same
  type := by
    have types := reachable.followsFromPath.type
    rw [typeConditions_eq_of_beq same, otherReachable.followsFromPath.type] at types
    exact (Option.some.inj types).symm
  knows := reachable.isFullyKnownIn otherReachable
    (isWithin_of_beq_path otherReachable (forall₂_of_beq same))
  isKnown := otherReachable.isFullyKnownIn reachable
    (isWithin_of_beq_path reachable (forall₂_of_beq (BEq.symm same)))

namespace IsAlike

variable (alike : scope.IsAlike other)

include alike

theorem testAlike : ConditionGroup.TestAlike scope.knownConditions other.knownConditions :=
  fun test => ⟨alike.knows.tests test, alike.isKnown.tests test⟩

theorem implies_eq : scope.implies = other.implies :=
  funext fun _ => Bool.eq_iff_iff.mpr ⟨alike.knows.implies, alike.isKnown.implies⟩

theorem isWithin_eq (inside : Scope) : scope.isWithin inside = other.isWithin inside := by
  simp only [isWithin, alike.implies_eq]

theorem admits_eq (narrowing : Narrowing) : scope.admits narrowing = other.admits narrowing := by
  simp only [admits, alike.testAlike.contradicts_eq]

theorem knowsType_eq : scope.knowsType = other.knowsType := by
  funext type
  exact Bool.eq_iff_iff.mpr ⟨alike.knows.knowsType, alike.isKnown.knowsType⟩

theorem knowsDefer_eq : scope.knowsDefer = other.knowsDefer := by
  funext defer
  exact Bool.eq_iff_iff.mpr ⟨alike.knows.knowsDefer, alike.isKnown.knowsDefer⟩

theorem unknownPart_eq (narrowing : Narrowing) :
    scope.unknownPart narrowing = other.unknownPart narrowing := by
  simp only [unknownPart, alike.knowsType_eq, alike.knowsDefer_eq, alike.testAlike.remainderIn_eq]

theorem effective?_eq (narrowing : Narrowing) :
    scope.effective? narrowing = other.effective? narrowing := by
  simp only [effective?, alike.unknownPart_eq]

end IsAlike

/-- What a scope knows is compatible with conditions that do not contradict it. -/
theorem exists_conditionsWith {added : Option ConditionGroup}
    (compatible : ∀ group ∈ added, group.contradicts scope.knownConditions = false) :
    ∃ known, scope.conditionsWith added = .ok known := by
  cases added with
  | none => exact ⟨_, rfl⟩
  | some group =>
      cases isKnown : scope.knownConditions with
      | none => exact ⟨some group, by simp only [conditionsWith, isKnown]⟩
      | some known =>
          have isPossible := compatible group rfl
          simp only [isKnown, ConditionGroup.contradicts, Option.any_some] at isPossible
          cases merged : known.merge group with
          | conditional result =>
              exact ⟨some result, by simp only [conditionsWith, isKnown, merged]⟩
          | boolean included =>
              cases included with
              | true => exact absurd merged ConditionGroup.merge_ne_true
              | false => simp [merged, InclusionResult.isSkipped] at isPossible

/-- What a scope knows is compatible with the conditions of a narrowing that it admits. -/
theorem exists_conditionsWith_of_admits (admits : scope.admits narrowing = true) :
    ∃ known, scope.conditionsWith narrowing.conditions = .ok known := by
  refine exists_conditionsWith fun group isGroup => ?_
  rw [Option.mem_def] at isGroup
  simpa [Scope.admits, isGroup] using admits

/-- What a scope knows is not compatible with the conditions of a narrowing that it refuses. -/
theorem conditionsWith_of_refused (refused : scope.admits narrowing = false) :
    ∃ details, scope.conditionsWith narrowing.conditions = .error (.internal details) := by
  cases conditions : narrowing.conditions with
  | none => simp [Scope.admits, conditions] at refused
  | some group =>
      cases isKnown : scope.knownConditions with
      | none => simp [Scope.admits, conditions, isKnown, ConditionGroup.contradicts] at refused
      | some known =>
          simp only [Scope.admits, conditions, isKnown, ConditionGroup.contradicts, Option.any_some,
            Bool.not_eq_false'] at refused
          simp only [conditionsWith, isKnown]
          cases merged : known.merge group with
          | conditional result => simp [merged, InclusionResult.isSkipped] at refused
          | boolean included => exact ⟨_, rfl⟩

/-- A scope admits what is left of a narrowing exactly if it admits the narrowing. -/
theorem admits_unknownPart (narrowing : Narrowing) :
    scope.admits (scope.unknownPart narrowing) = scope.admits narrowing := by
  simp only [Scope.admits, unknownPart]
  cases narrowing.conditions with
  | none => rfl
  | some group =>
      rw [Option.bind_some, Option.any_some, group.any_contradicts_remainderIn]

theorem admits_effective {effective : Narrowing}
    (isEffective : scope.effective? narrowing = some effective) :
    scope.admits effective = scope.admits narrowing := by
  rw [(effective?_eq_some isEffective).1, admits_unknownPart]

/-- Something is effective of what a scope refuses. -/
theorem exists_effective_of_refused (refused : scope.admits narrowing = false) :
    ∃ effective, scope.effective? narrowing = some effective := by
  cases isEffective : scope.effective? narrowing with
  | some effective => exact ⟨effective, rfl⟩
  | none =>
      have nothing : (scope.unknownPart narrowing).isEmpty = true :=
        unknownPart_isEmpty_iff.mpr (effective?_eq_none_iff.mp isEffective)
      rw [← admits_unknownPart] at refused
      simp_all [Narrowing.isEmpty, Scope.admits]

theorem IsAlike.narrow (alike : scope.IsAlike other) (admits : scope.admits narrowing = true) :
    Matches (fun narrower otherNarrower => (narrower == otherNarrower) = true)
      (scope.narrow schema narrowing) (other.narrow schema narrowing) := by
  cases isEffective : scope.effective? narrowing with
  | none =>
      have otherNone := (alike.effective?_eq narrowing).symm.trans isEffective
      rw [narrow_of_implies (effective?_eq_none_iff.mp isEffective),
        narrow_of_implies (effective?_eq_none_iff.mp otherNone)]
      exact .ok alike.path
  | some effective =>
      have otherEffective := (alike.effective?_eq narrowing).symm.trans isEffective
      have admitsPart := (admits_effective isEffective).trans admits
      rcases exists_conditionsWith_of_admits admitsPart with ⟨known, isKnown⟩
      rcases exists_conditionsWith_of_admits (alike.admits_eq effective ▸ admitsPart) with
        ⟨otherKnown, isOtherKnown⟩
      rw [narrow_eq_of_effective isEffective, narrow_eq_of_effective otherEffective, isKnown,
        isOtherKnown]
      refine (Matches.refl _).bind fun _ _ _ => .ok ?_
      exact beq_of_forall₂ (List.rel_append (forall₂_of_beq alike.path) (.cons BEq.rfl .nil))

end Scope

/-- Whether the scopes of equal places know the same, at every level. -/
structure Place.IsAlike (place other : Place) : Prop where
  same : (place == other) = true
  enclosing : List.Forall₂ Scope.IsAlike place.enclosing other.enclosing
  scope : place.scope.IsAlike other.scope

theorem Place.isAlike {schema : Schema} {place other : Place}
    (reachable : ∀ scope ∈ place.scopes, Scope.Reachable schema scope)
    (otherReachable : ∀ scope ∈ other.scopes, Scope.Reachable schema scope)
    (same : (place == other) = true) : place.IsAlike other := by
  rcases of_beq same with ⟨-, enclosing, scope⟩
  rw [scopes, List.forall_mem_append, List.forall_mem_singleton] at reachable otherReachable
  refine ⟨same, ?_, reachable.2.isAlike otherReachable.2 scope⟩
  have pairs := forall₂_of_beq enclosing
  rw [List.forall₂_iff_zip] at pairs ⊢
  refine ⟨pairs.1, fun {inner outer} mem => ?_⟩
  rcases List.of_mem_zip mem with ⟨isInner, isOuter⟩
  exact (reachable.1 inner isInner).isAlike (otherReachable.1 outer isOuter) (pairs.2 mem)

end ResponseShape
