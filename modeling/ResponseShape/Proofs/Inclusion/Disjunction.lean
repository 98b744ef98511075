import ResponseShape.Proofs.Inclusion.Assignment

/-!
# Disjunctions under an assignment

Alternatives hold if one of their groups does, and no condition at all holds always. Leaving out
redundant groups does not change that (`Alternatives.holds_or`), union is disjunction
(`Alternatives.holds_union`), and what is left of alternatives that can hold within a scope says,
there, what the alternatives say (`Alternatives.holds_remainderIn`).
-/

namespace ResponseShape

/-- Whether one of the groups holds. -/
def Alternatives.holds (assignment : Assignment) (alternatives : Alternatives) : Bool :=
  alternatives.groups.any (·.holds assignment)

namespace Alternatives

variable {assignment : Assignment} {alternatives other : Alternatives} {group : ConditionGroup}
  {scope : Option ConditionGroup}

@[simp]
theorem holds_single : (single group).holds assignment = group.holds assignment := by
  simp [holds, single]

/-- Adding an alternative is disjunction: a group that gives way to the new one implies it, and one
that keeps the new one out is implied by it. -/
@[simp]
theorem holds_or : (alternatives.or group).holds assignment =
    (alternatives.holds assignment || group.holds assignment) := by
  rw [Bool.eq_iff_iff, Bool.or_eq_true]
  unfold or
  split
  next redundant =>
    rcases List.any_eq_true.mp redundant with ⟨existing, mem, subset⟩
    refine ⟨Or.inl, fun either => either.elim id fun groupHolds => ?_⟩
    have known := ConditionGroup.holds_of_subset (ConditionGroup.isSubset_iff.mp subset) groupHolds
    exact List.any_eq_true.mpr ⟨existing, mem, known⟩
  next =>
    simp only [holds, List.any_append, List.any_cons, List.any_nil, Bool.or_false,
      Bool.or_eq_true, List.any_eq_true, List.mem_filter, Bool.not_eq_true']
    constructor
    · rintro (⟨existing, ⟨mem, -⟩, existingHolds⟩ | groupHolds)
      · exact Or.inl ⟨existing, mem, existingHolds⟩
      · exact Or.inr groupHolds
    · rintro (⟨existing, mem, existingHolds⟩ | groupHolds)
      · cases givesWay : group.isSubset existing with
        | false => exact Or.inl ⟨existing, ⟨mem, givesWay⟩, existingHolds⟩
        | true =>
            exact Or.inr (ConditionGroup.holds_of_subset
              (ConditionGroup.isSubset_iff.mp givesWay) existingHolds)
      · exact Or.inr groupHolds

theorem holds_foldl_or (groups : List ConditionGroup) :
    (groups.foldl or alternatives).holds assignment =
      (alternatives.holds assignment || groups.any (·.holds assignment)) := by
  induction groups generalizing alternatives with
  | nil => simp
  | cons group rest ih => rw [List.foldl_cons, ih, holds_or, List.any_cons, Bool.or_assoc]

/-- Union is disjunction, where absence holds always. -/
@[simp]
theorem holds_union (left right : Option Alternatives) :
    (union left right).all (·.holds assignment) =
      (left.all (·.holds assignment) || right.all (·.holds assignment)) := by
  cases left with
  | none => simp [union]
  | some left =>
      cases right with
      | none => simp [union]
      | some right =>
          simp only [union, Option.all_some, holds_foldl_or]
          rfl

theorem canHoldIn_iff : alternatives.canHoldIn scope = true ↔
    ∃ assignment, scope.all (·.holds assignment) = true ∧
      alternatives.holds assignment = true := by
  simp only [canHoldIn, holds, List.any_eq_true, Bool.not_eq_true',
    ConditionGroup.contradicts_eq_false_iff]
  constructor
  · rintro ⟨group, mem, assignment, scopeHolds, groupHolds⟩
    exact ⟨assignment, scopeHolds, group, mem, groupHolds⟩
  · rintro ⟨assignment, scopeHolds, group, mem, groupHolds⟩
    exact ⟨group, mem, assignment, scopeHolds, groupHolds⟩

/-- The groups that a scope leaves out say nothing within it. -/
theorem holds_filter_contradicts (groups : List ConditionGroup)
    (scopeHolds : scope.all (·.holds assignment) = true) :
    (groups.filter fun group => !group.contradicts scope).any (·.holds assignment) =
      groups.any (·.holds assignment) := by
  induction groups with
  | nil => rfl
  | cons group rest ih =>
      cases contradicts : group.contradicts scope with
      | false => simp [contradicts, ih]
      | true =>
          simp [contradicts, ih,
            ConditionGroup.not_holds_of_contradicts contradicts scopeHolds]

/-- Reducing groups one after the other keeps what they say together with those reduced before,
unless there is nothing to reduce at all. -/
theorem holds_reduceFrom {reduced : Option Alternatives} {groups : List ConditionGroup}
    (some_group : reduced.isSome ∨ groups ≠ [])
    (scopeHolds : scope.all (·.holds assignment) = true) :
    (reduceFrom scope reduced groups).all (·.holds assignment) =
      (reduced.any (·.holds assignment) || groups.any (·.holds assignment)) := by
  induction groups generalizing reduced with
  | nil =>
      rcases Option.isSome_iff_exists.mp (some_group.resolve_right (by simp)) with
        ⟨alternatives, rfl⟩
      simp [reduceFrom]
  | cons group rest ih =>
      have groupHolds := group.holds_remainderIn scopeHolds
      simp only [reduceFrom]
      cases remains : group.remainderIn scope with
      | none =>
          rw [remains, Option.all_none] at groupHolds
          simp [← groupHolds]
      | some remaining =>
          rw [remains, Option.all_some] at groupHolds
          simp only
          rw [ih (Or.inl rfl)]
          cases reduced with
          | none => simp [groupHolds]
          | some alternatives => simp [groupHolds, Bool.or_assoc]

/-- A scope in which alternatives can hold leaves one of their groups. -/
theorem filter_contradicts_ne_nil (satisfiable : alternatives.canHoldIn scope = true) :
    alternatives.groups.filter (fun group => !group.contradicts scope) ≠ [] := by
  rcases List.any_eq_true.mp satisfiable with ⟨group, mem, compatible⟩
  exact List.ne_nil_of_mem (List.mem_filter.mpr ⟨mem, compatible⟩)

/-- Within a scope in which alternatives can hold, what is left of them says what they say. -/
theorem holds_remainderIn (satisfiable : alternatives.canHoldIn scope = true)
    (scopeHolds : scope.all (·.holds assignment) = true) :
    (alternatives.remainderIn scope).all (·.holds assignment) =
      alternatives.holds assignment := by
  rw [remainderIn, holds_reduceFrom (Or.inr (filter_contradicts_ne_nil satisfiable)) scopeHolds,
    holds_filter_contradicts _ scopeHolds]
  simp [holds]

theorem holds_of_beq (same : (alternatives == other) = true) :
    alternatives.holds assignment = other.holds assignment := by
  rcases alternatives with ⟨groups⟩
  rcases other with ⟨others⟩
  replace same : (groups == others) = true := same
  simp only [holds]
  induction groups generalizing others with
  | nil => cases others <;> simp_all
  | cons group rest ih =>
      cases others with
      | nil => simp at same
      | cons twin twins =>
          simp only [List.cons_beq_cons, Bool.and_eq_true] at same
          simp [ConditionGroup.holds_of_beq same.1, ih _ same.2]

end Alternatives

end ResponseShape
