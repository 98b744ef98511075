import ResponseShape.Proofs.Inclusion.Canonical
import ResponseShape.Proofs.Inclusion.Disjunction

/-!
# Reduced alternatives

Alternatives are reduced, where some tests are known to be passed, if nothing can be left out of
them: they have a group, no group tests a variable whose value is known, and none makes another one
redundant. Adding an alternative keeps them reduced (`Alternatives.IsReduced.or`), and so does union
(`Alternatives.isReduced_union`); what is left of alternatives is reduced whatever they are
(`Alternatives.isReduced_remainderIn`).

Within a scope, what is left says what the alternatives say, if they can hold there at all. Then
nothing is left only of alternatives that hold throughout
(`Alternatives.remainderIn_equivalent_and_free`).
-/

namespace ResponseShape

/-- Whether a group tests none of the variables whose values are known. -/
def ConditionGroup.IsFree (known : Option ConditionGroup) (group : ConditionGroup) : Prop :=
  ∀ test ∈ group.tests, ∀ fixing ∈ known, fixing.on? test.variableName = none

/-- Whether nothing can be left out of alternatives where some tests are known to be passed. -/
structure Alternatives.IsReduced (known : Option ConditionGroup) (alternatives : Alternatives) :
    Prop where
  nonempty : alternatives.groups ≠ []
  free : ∀ group ∈ alternatives.groups, group.IsFree known
  /-- No group is a part of another. -/
  irredundant : alternatives.groups.Pairwise fun group other =>
    group.isSubset other = false ∧ other.isSubset group = false

/-- A test of the variable that another one tests is the other one or its opposite. -/
theorem VariableTest.eq_or_eq_opposite {test other : VariableTest}
    (sameName : other.variableName = test.variableName) :
    other = test ∨ other = test.opposite := by
  rcases test with ⟨name, inverted⟩
  rcases other with ⟨otherName, otherInverted⟩
  simp only [VariableTest.opposite, VariableTest.mk.injEq] at sameName ⊢
  cases inverted <;> cases otherInverted <;> simp [sameName]

namespace ConditionGroup

variable {group remaining : ConditionGroup} {known : Option ConditionGroup} {test : VariableTest}
  {name : Name}

theorem on?_eq_none_iff : group.on? name = none ↔
    ∀ test ∈ group.tests, test.variableName ≠ name := by
  simp [on?]

/-- What tests no variable whose value is known can hold. -/
theorem IsFree.contradicts_eq_false (free : group.IsFree known) :
    group.contradicts known = false := by
  rw [← Bool.not_eq_true, contradicts_iff_opposite]
  rintro ⟨test, made, fixing, isKnown, opposed⟩
  exact on?_eq_none_iff.mp (free test made fixing isKnown) _ opposed rfl

theorem contradicts_eq_false_of_remainderIn (isNone : group.remainderIn known = none) :
    group.contradicts known = false := by
  rw [← any_contradicts_remainderIn, isNone, Option.any_none]

/-- What is left of a group that can hold tests no variable whose value is known. -/
theorem isFree_of_remainderIn (compatible : group.contradicts known = false)
    (remains : group.remainderIn known = some remaining) : remaining.IsFree known := by
  intro test kept fixing isKnown
  rw [on?_eq_none_iff]
  intro other isFixed sameName
  rw [Option.mem_def] at isKnown
  subst isKnown
  rcases VariableTest.eq_or_eq_opposite sameName with rfl | rfl
  · exact not_mem_of_remainderIn remains kept isFixed
  · have contradicts := contradicts_iff_opposite.mpr
      ⟨test, mem_of_remainderIn remains kept, fixing, rfl, isFixed⟩
    rw [compatible] at contradicts
    cases contradicts

end ConditionGroup

namespace Alternatives

variable {known : Option ConditionGroup} {alternatives : Alternatives} {group : ConditionGroup}

theorem isReduced_single (free : group.IsFree known) : (single group).IsReduced known where
  nonempty := List.cons_ne_nil _ _
  free := by simpa [single] using free
  irredundant := List.pairwise_singleton _ _

/-- An alternative joins only if no other makes it redundant, and in place of those that it makes
redundant. -/
theorem IsReduced.or (reduced : alternatives.IsReduced known) (free : group.IsFree known) :
    (alternatives.or group).IsReduced known := by
  unfold Alternatives.or
  split
  next => exact reduced
  next notRedundant =>
    constructor
    · simp
    · intro other mem
      rcases List.mem_append.mp mem with kept | isNew
      · exact reduced.free other (List.mem_filter.mp kept).1
      · rw [List.mem_singleton.mp isNew]
        exact free
    · rw [List.pairwise_append]
      refine ⟨reduced.irredundant.filter _, List.pairwise_singleton _ _, ?_⟩
      intro other kept new isNew
      rw [List.mem_singleton.mp isNew]
      rcases List.mem_filter.mp kept with ⟨mem, stays⟩
      constructor
      · by_contra redundant
        exact notRedundant (List.any_eq_true.mpr ⟨other, mem, by simpa using redundant⟩)
      · simpa using stays

theorem IsReduced.foldl_or {groups : List ConditionGroup} (reduced : alternatives.IsReduced known)
    (free : ∀ group ∈ groups, group.IsFree known) :
    (groups.foldl Alternatives.or alternatives).IsReduced known := by
  induction groups generalizing alternatives with
  | nil => exact reduced
  | cons group rest ih =>
      rw [List.forall_mem_cons] at free
      exact ih (reduced.or free.1) free.2

theorem isReduced_union {left right : Option Alternatives}
    (leftReduced : ∀ alternatives ∈ left, alternatives.IsReduced known)
    (rightReduced : ∀ alternatives ∈ right, alternatives.IsReduced known) :
    ∀ alternatives ∈ union left right, alternatives.IsReduced known := by
  intro alternatives isUnion
  cases left with
  | none => simp [union] at isUnion
  | some left =>
      cases right with
      | none => simp [union] at isUnion
      | some right =>
          rw [union, Option.mem_some_iff] at isUnion
          rw [← isUnion]
          exact (leftReduced left rfl).foldl_or (rightReduced right rfl).free

/-- Reducing groups that can hold, one after the other, keeps the result reduced. -/
theorem isReduced_reduceFrom {reduced : Option Alternatives} {groups : List ConditionGroup}
    (before : ∀ alternatives ∈ reduced, alternatives.IsReduced known)
    (compatible : ∀ group ∈ groups, group.contradicts known = false) :
    ∀ alternatives ∈ reduceFrom known reduced groups, alternatives.IsReduced known := by
  induction groups generalizing reduced with
  | nil => exact before
  | cons group rest ih =>
      rw [List.forall_mem_cons] at compatible
      rw [reduceFrom]
      cases remains : group.remainderIn known with
      | none => simp
      | some remaining =>
          have free := ConditionGroup.isFree_of_remainderIn compatible.1 remains
          refine ih ?_ compatible.2
          intro alternatives isNext
          rw [Option.mem_some_iff] at isNext
          rw [← isNext]
          cases reduced with
          | none => exact isReduced_single free
          | some earlier => exact (before earlier rfl).or free

theorem isReduced_remainderIn (alternatives : Alternatives) :
    ∀ remaining ∈ alternatives.remainderIn known, remaining.IsReduced known :=
  isReduced_reduceFrom (by simp) fun _ mem => by simpa using (List.mem_filter.mp mem).2

theorem reduceFrom_eq_none_iff {reduced : Option Alternatives} {groups : List ConditionGroup} :
    reduceFrom known reduced groups = none ↔
      (reduced = none ∧ groups = []) ∨ ∃ group ∈ groups, group.remainderIn known = none := by
  induction groups generalizing reduced with
  | nil => simp [reduceFrom]
  | cons group rest ih =>
      rw [reduceFrom]
      cases remains : group.remainderIn known with
      | none => simp [remains]
      | some remaining => simp [ih, remains]

/-- Nothing is left of alternatives that can hold exactly if nothing is left of one of their
groups. -/
theorem remainderIn_eq_none_iff (satisfiable : alternatives.canHoldIn known = true) :
    alternatives.remainderIn known = none ↔
      ∃ group ∈ alternatives.groups, group.remainderIn known = none := by
  rw [remainderIn, reduceFrom_eq_none_iff]
  constructor
  · rintro (⟨-, noneLeft⟩ | ⟨group, mem, isNone⟩)
    · exact absurd noneLeft (filter_contradicts_ne_nil satisfiable)
    · exact ⟨group, (List.mem_filter.mp mem).1, isNone⟩
  · rintro ⟨group, mem, isNone⟩
    right
    refine ⟨group, List.mem_filter.mpr ⟨mem, ?_⟩, isNone⟩
    simp [ConditionGroup.contradicts_eq_false_of_remainderIn isNone]

/-- Alternatives can hold in a scope exactly if some assignment satisfies both. Within the scope,
what is left of them says then what they say, and it is nothing exactly if one of their groups holds
throughout. What is left tests no variable of the scope. -/
theorem remainderIn_equivalent_and_free (alternatives : Alternatives)
    (scope : Option ConditionGroup) :
    (alternatives.canHoldIn scope = true ↔ ∃ assignment,
      scope.all (·.holds assignment) = true ∧ alternatives.holds assignment = true)
    ∧ (alternatives.canHoldIn scope = true →
      (∀ assignment, scope.all (·.holds assignment) = true →
        (alternatives.remainderIn scope).all (·.holds assignment)
          = alternatives.holds assignment)
      ∧ (alternatives.remainderIn scope = none ↔ ∃ group ∈ alternatives.groups,
        ∀ assignment, scope.all (·.holds assignment) = true → group.holds assignment = true))
    ∧ ∀ remaining, alternatives.remainderIn scope = some remaining →
      ∀ group ∈ remaining.groups, group.IsFree scope := by
  refine ⟨canHoldIn_iff, ?_, ?_⟩
  · intro satisfiable
    refine ⟨fun _ scopeHolds => holds_remainderIn satisfiable scopeHolds, ?_⟩
    simp only [remainderIn_eq_none_iff satisfiable, ConditionGroup.remainderIn_eq_none_iff_holds]
  · intro remaining remains
    exact (isReduced_remainderIn alternatives remaining remains).free

/-- Where `$a` is false, `($b && !$c) || $a` comes to `$b && !$c`, and where it is true, to
nothing. -/
example :
    let either : Alternatives :=
      ⟨[⟨[⟨"b", false⟩, ⟨"c", true⟩], by decide, by decide⟩, .single ⟨"a", false⟩]⟩
    either.remainderIn (some (.single ⟨"a", true⟩))
        = some (.single ⟨[⟨"b", false⟩, ⟨"c", true⟩], by decide, by decide⟩)
      ∧ either.canHoldIn (some (.single ⟨"a", false⟩)) = true
      ∧ either.remainderIn (some (.single ⟨"a", false⟩)) = none := by
  decide

end Alternatives

end ResponseShape
