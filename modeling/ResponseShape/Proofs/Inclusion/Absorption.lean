import ResponseShape.Proofs.Inclusion.Reduction
import ResponseShape.Proofs.Ordered

/-!
# Absorption

Alternatives absorb a group if they contain a part of it. Adding the group changes nothing then, and
whatever has been added is absorbed from there on (`Alternatives.absorbs_foldl_or`). So a union
compares equal to its left side exactly if that side absorbs every group of the right one
(`Alternatives.union_beq_left_iff`), though the comparison looks at the groups in order and not at
what they say.

Alternatives that start from single groups and are only added to, united and reduced never contain a
group together with a part of it (`Alternatives.IsComposed.isReduced`).
-/

namespace ResponseShape

namespace ConditionGroup

variable {group other third : ConditionGroup}

theorem isSubset_trans (inner : group.isSubset other = true)
    (outer : other.isSubset third = true) : group.isSubset third = true := by
  apply isSubset_iff.mpr
  exact fun test mem => isSubset_iff.mp outer test (isSubset_iff.mp inner test mem)

theorem isSubset_of_beq (same : (group == other) = true) : group.isSubset other = true := by
  apply isSubset_iff.mpr
  exact fun _ => (mem_tests_of_beq same).mp

theorem isFree_none : group.IsFree none := by simp [IsFree]

end ConditionGroup

namespace Alternatives

/-- Whether one of the groups is a part of the given one. -/
def Absorbs (alternatives : Alternatives) (group : ConditionGroup) : Prop :=
  ∃ existing ∈ alternatives.groups, existing.isSubset group = true

/-- Whether every group of the others has a part among the groups of these. -/
def Covers (alternatives other : Alternatives) : Prop :=
  ∀ group ∈ other.groups, alternatives.Absorbs group

/-- Alternatives made of single groups by adding groups, by uniting and by reducing. -/
inductive IsComposed : Alternatives → Prop where
  | single (group : ConditionGroup) : IsComposed (single group)
  | or {alternatives : Alternatives} (composed : IsComposed alternatives)
      (group : ConditionGroup) : IsComposed (alternatives.or group)
  | union {left right united : Alternatives} (leftComposed : IsComposed left)
      (rightComposed : IsComposed right) (isUnion : union (some left) (some right) = some united) :
      IsComposed united
  | remainderIn {alternatives remaining : Alternatives} {scope : Option ConditionGroup}
      (composed : IsComposed alternatives)
      (remains : alternatives.remainderIn scope = some remaining) : IsComposed remaining

variable {alternatives other : Alternatives} {group candidate : ConditionGroup}
  {groups : List ConditionGroup}

section Unions

theorem or_eq_self (absorbs : alternatives.Absorbs group) :
    alternatives.or group = alternatives := by
  have redundant : alternatives.groups.any (·.isSubset group) = true :=
    List.any_eq_true.mpr absorbs
  simp [Alternatives.or, redundant]

theorem absorbs_or : (alternatives.or group).Absorbs group := by
  unfold Alternatives.or
  split
  next redundant => exact List.any_eq_true.mp redundant
  next => exact ⟨group, by simp, ConditionGroup.isSubset_refl⟩

/-- What is absorbed stays so when a group is added: a part of it that gives way to the new group
does so because the new group is a part of that part. -/
theorem Absorbs.or (absorbs : alternatives.Absorbs candidate) (group : ConditionGroup) :
    (alternatives.or group).Absorbs candidate := by
  rcases absorbs with ⟨existing, mem, isPart⟩
  unfold Alternatives.or
  split
  next => exact ⟨existing, mem, isPart⟩
  next =>
    cases givesWay : group.isSubset existing with
    | false => exact ⟨existing, by simp [mem, givesWay], isPart⟩
    | true => exact ⟨group, by simp, ConditionGroup.isSubset_trans givesWay isPart⟩

theorem Absorbs.foldl_or (absorbs : alternatives.Absorbs candidate)
    (groups : List ConditionGroup) :
    (groups.foldl Alternatives.or alternatives).Absorbs candidate := by
  induction groups generalizing alternatives with
  | nil => exact absorbs
  | cons group rest ih => exact ih (absorbs.or group)

theorem absorbs_foldl_or (mem : group ∈ groups) :
    (groups.foldl Alternatives.or alternatives).Absorbs group := by
  induction groups generalizing alternatives with
  | nil => cases mem
  | cons first rest ih =>
      rcases List.mem_cons.mp mem with rfl | isLater
      · exact absorbs_or.foldl_or rest
      · exact ih isLater

theorem foldl_or_eq_self (absorbs : ∀ group ∈ groups, alternatives.Absorbs group) :
    groups.foldl Alternatives.or alternatives = alternatives := by
  induction groups with
  | nil => rfl
  | cons first rest ih =>
      rw [List.forall_mem_cons] at absorbs
      rw [List.foldl_cons, or_eq_self absorbs.1]
      exact ih absorbs.2

theorem Absorbs.of_beq (same : (alternatives == other) = true)
    (absorbs : alternatives.Absorbs group) : other.Absorbs group := by
  rcases absorbs with ⟨existing, mem, isPart⟩
  rcases exists_mem_of_forall₂ (forall₂_of_beq same) mem with ⟨twin, twinMem, isTwin⟩
  refine ⟨twin, twinMem, ?_⟩
  exact ConditionGroup.isSubset_trans (ConditionGroup.isSubset_of_beq (BEq.symm isTwin)) isPart

/-- Uniting alternatives with others leaves them as they are exactly if they cover the others. -/
theorem union_beq_left_iff : (union (some alternatives) (some other) == some alternatives) = true ↔
    alternatives.Covers other := by
  have compared : (union (some alternatives) (some other) == some alternatives)
      = (other.groups.foldl Alternatives.or alternatives == alternatives) := rfl
  rw [compared]
  constructor
  · intro unchanged group mem
    exact (absorbs_foldl_or mem).of_beq unchanged
  · intro covers
    rw [foldl_or_eq_self covers]
    change (alternatives.groups == alternatives.groups) = true
    exact BEq.rfl

end Unions

section Composed

theorem IsReduced.of_known {known : Option ConditionGroup}
    (reduced : alternatives.IsReduced known) : alternatives.IsReduced none where
  nonempty := reduced.nonempty
  free := fun _ _ => ConditionGroup.isFree_none
  irredundant := reduced.irredundant

theorem IsComposed.isReduced (composed : alternatives.IsComposed) :
    alternatives.IsReduced none := by
  induction composed with
  | single group => exact isReduced_single ConditionGroup.isFree_none
  | or _ group reduced => exact reduced.or ConditionGroup.isFree_none
  | union _ _ isUnion leftReduced rightReduced =>
      rcases Option.some.inj isUnion with rfl
      exact leftReduced.foldl_or rightReduced.free
  | remainderIn _ remains _ => exact (isReduced_remainderIn _ _ remains).of_known

/-- Adding and uniting are disjunction, what they make of single groups is never empty and has no
group that is a part of another, and a union is its left side exactly if that covers the right
one. -/
theorem IsComposed.disjunctive_and_irredundant (composed : alternatives.IsComposed) :
    (∀ group assignment, (alternatives.or group).holds assignment =
      (alternatives.holds assignment || group.holds assignment))
    ∧ (∀ (left right : Option Alternatives) assignment,
      (Alternatives.union left right).all (·.holds assignment) =
        (left.all (·.holds assignment) || right.all (·.holds assignment)))
    ∧ alternatives.groups ≠ []
    ∧ (alternatives.groups.Pairwise fun group other =>
      group.isSubset other = false ∧ other.isSubset group = false)
    ∧ ∀ other : Alternatives,
      (Alternatives.union (some alternatives) (some other) == some alternatives) = true ↔
        ∀ group ∈ other.groups, ∃ existing ∈ alternatives.groups,
          existing.isSubset group = true := by
  refine ⟨fun _ _ => holds_or, fun left right _ => holds_union left right, ?_, ?_, ?_⟩
  · exact composed.isReduced.nonempty
  · exact composed.isReduced.irredundant
  · exact fun _ => union_beq_left_iff

/-- Either a variable is true, or a second one is and a third is not. -/
def firstOrSecondAlone : Alternatives :=
  (single ⟨[⟨"b", false⟩, ⟨"c", true⟩], by decide, by decide⟩).or (.single ⟨"a", false⟩)

/-- Neither alternative is a part of the other. That the first two variables are true is absorbed,
and that the third is, is not. -/
theorem IsComposed.disjunctive_and_irredundant_firstOrSecondAlone :
    firstOrSecondAlone.IsComposed
    ∧ (firstOrSecondAlone.groups.Pairwise fun group other =>
      group.isSubset other = false ∧ other.isSubset group = false)
    ∧ (Alternatives.union (some firstOrSecondAlone)
        (some ⟨[⟨[⟨"a", false⟩, ⟨"b", false⟩], by decide, by decide⟩]⟩)
      == some firstOrSecondAlone) = true
    ∧ ¬(Alternatives.union (some firstOrSecondAlone) (some ⟨[.single ⟨"c", false⟩]⟩)
      == some firstOrSecondAlone) = true := by
  have composed : firstOrSecondAlone.IsComposed := .or (.single _) _
  rcases composed.disjunctive_and_irredundant with ⟨-, -, -, irredundant, unchanged_iff⟩
  refine ⟨composed, irredundant, ?_, ?_⟩
  · exact (unchanged_iff _).mpr (by decide)
  · exact fun unchanged => absurd ((unchanged_iff _).mp unchanged) (by decide)

end Composed

end Alternatives

end ResponseShape
