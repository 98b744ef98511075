import ResponseShape.Proofs.Inclusion.Assignment

/-!
# Canonical conjunctions

Groups are compared by the tests that they make, without a look at assignments. That tells them
apart exactly by what they say: a group is a part of another if and only if it holds wherever the
other does (`ConditionGroup.isSubset_iff_holds`), and two are equal if and only if they hold under
the same assignments (`ConditionGroup.beq_iff_holds`). As no group holds always or never, so it is
with results (`InclusionResult.beq_iff_holds`).

The conjunction of tests is therefore the same in any order and with any repetitions, and merging
has the laws of conjunction (`InclusionResult.allOf_canonical_and_merge_conjunctive`).
-/

namespace ResponseShape

namespace ConditionGroup

variable {group other : ConditionGroup} {test : VariableTest} {scope : Option ConditionGroup}

theorem perm_of_mem_iff (same : ∀ test, test ∈ group.tests ↔ test ∈ other.tests) :
    group.tests.Perm other.tests :=
  (List.perm_ext_iff_of_nodup group.nodup.of_map other.nodup.of_map).mpr same

theorem beq_iff_mem : (group == other) = true ↔
    ∀ test, test ∈ group.tests ↔ test ∈ other.tests := by
  constructor
  · exact fun same _ => mem_tests_of_beq same
  · intro same
    have sizes : group.size = other.size := (perm_of_mem_iff same).length_eq
    have subset : group.isSubset other = true := isSubset_iff.mpr fun test => (same test).mp
    change (group.size == other.size && group.isSubset other) = true
    simp [sizes, subset]

/-- A group can hold without a test that it does not make, as nothing in it keeps the test from
failing. -/
theorem exists_holds_of_not_mem (absent : test ∉ group.tests) :
    ∃ assignment, group.holds assignment = true ∧ test.holds assignment = false := by
  have unopposed : ∀ made ∈ group.tests ++ [test.opposite],
      made.opposite ∉ group.tests ++ [test.opposite] := by
    apply VariableTest.unopposed_append
    · exact fun _ => opposite_not_mem
    · simp [VariableTest.opposite]
    · simpa [VariableTest.opposite_opposite] using absent
  rcases VariableTest.exists_holds_of_unopposed unopposed with ⟨assignment, passes⟩
  refine ⟨assignment, ?_, ?_⟩
  · apply holds_iff.mpr
    exact fun made mem => passes made (List.mem_append_left _ mem)
  · have opposed := passes test.opposite (by simp)
    simpa [VariableTest.holds_opposite] using opposed

theorem isSubset_iff_holds : group.isSubset other = true ↔
    ∀ assignment, other.holds assignment = true → group.holds assignment = true := by
  constructor
  · exact fun subset _ => holds_of_subset (isSubset_iff.mp subset)
  · intro implied
    apply isSubset_iff.mpr
    intro test mem
    by_contra absent
    rcases exists_holds_of_not_mem absent with ⟨assignment, otherHolds, fails⟩
    have holds := holds_iff.mp (implied assignment otherHolds) test mem
    simp [fails] at holds

theorem beq_iff_holds : (group == other) = true ↔
    ∀ assignment, group.holds assignment = other.holds assignment := by
  constructor
  · exact fun same _ => holds_of_beq same
  · intro same
    have subset : group.isSubset other = true :=
      isSubset_iff_holds.mpr fun assignment holds => (same assignment).trans holds
    have superset : other.isSubset group = true :=
      isSubset_iff_holds.mpr fun assignment holds => (same assignment).symm.trans holds
    apply beq_iff_mem.mpr
    exact fun test => ⟨isSubset_iff.mp subset test, isSubset_iff.mp superset test⟩

theorem beq_comm : (group == other) = (other == group) := by
  rw [Bool.eq_iff_iff, beq_iff_holds, beq_iff_holds]
  exact forall_congr' fun _ => eq_comm

theorem exists_not_holds (group : ConditionGroup) :
    ∃ assignment, group.holds assignment = false := by
  rcases List.exists_mem_of_ne_nil _ group.nonempty with ⟨test, mem⟩
  refine ⟨fun _ => test.inverted, ?_⟩
  apply List.all_eq_false.mpr
  exact ⟨test, mem, by simp [VariableTest.holds]⟩

theorem remainderIn_eq_none_iff_holds : group.remainderIn scope = none ↔
    ∀ assignment, scope.all (·.holds assignment) = true → group.holds assignment = true := by
  rw [remainderIn_eq_none_iff]
  cases scope with
  | none =>
      rcases group.exists_not_holds with ⟨assignment, fails⟩
      simp only [Option.any_none, Option.all_none, Bool.false_eq_true, forall_const, false_iff]
      intro always
      simp [always assignment] at fails
  | some known => simpa using isSubset_iff_holds

end ConditionGroup

instance : EquivBEq ConditionGroup where
  rfl := ConditionGroup.beq_iff_holds.mpr fun _ => rfl
  symm same := by rwa [ConditionGroup.beq_comm]
  trans same further := ConditionGroup.beq_iff_holds.mpr fun _ =>
    (ConditionGroup.holds_of_beq same).trans (ConditionGroup.holds_of_beq further)

namespace InclusionResult

variable {left right result : InclusionResult} {included : Bool}
  {tests others : List VariableTest}

/-- A result is a constant exactly if it is one under every assignment. -/
theorem eq_boolean_iff : result = .boolean included ↔
    ∀ assignment, result.holds assignment = included := by
  constructor
  · rintro rfl _
    rfl
  · intro constant
    cases result with
    | boolean other => exact congrArg boolean (constant fun _ => true)
    | conditional group =>
        rcases group.exists_holds with ⟨passing, holds⟩
        rcases group.exists_not_holds with ⟨failing, fails⟩
        have same : group.holds passing = group.holds failing :=
          (constant passing).trans (constant failing).symm
        simp [holds, fails] at same

theorem beq_boolean_iff : (result == .boolean included) = true ↔ result = .boolean included := by
  cases result with
  | boolean other =>
      change (other == included) = true ↔ _
      simp
  | conditional group =>
      change false = true ↔ _
      simp

/-- Results compare equal exactly if they include a selection under the same assignments. -/
theorem beq_iff_holds : (left == right) = true ↔
    ∀ assignment, left.holds assignment = right.holds assignment := by
  cases right with
  | boolean included => exact beq_boolean_iff.trans eq_boolean_iff
  | conditional other =>
      cases left with
      | conditional group => exact ConditionGroup.beq_iff_holds
      | boolean included =>
          change false = true ↔ ∀ assignment, included = (conditional other).holds assignment
          simp only [@eq_comm _ included, ← eq_boolean_iff]
          simp

theorem holds_allOf_iff {assignment : Assignment} : (allOf tests).holds assignment = true ↔
    ∀ test ∈ tests, test.holds assignment = true := by
  simp [holds_allOf]

theorem beq_allOf_iff : (allOf tests == allOf others) = true ↔ ∀ assignment,
    (∀ test ∈ tests, test.holds assignment = true) ↔
      ∀ test ∈ others, test.holds assignment = true := by
  rw [beq_iff_holds]
  apply forall_congr'
  intro assignment
  rw [Bool.eq_iff_iff, holds_allOf_iff, holds_allOf_iff]

theorem allOf_eq_false_iff : allOf tests = .boolean false ↔
    ¬∃ assignment, ∀ test ∈ tests, test.holds assignment = true := by
  simp only [eq_boolean_iff, ← holds_allOf_iff, not_exists, Bool.not_eq_true]

theorem allOf_eq_true_iff : allOf tests = .boolean true ↔ tests = [] := by
  constructor
  · intro always
    by_contra nonempty
    exact allOf_ne_true nonempty always
  · rintro rfl
    rfl

theorem holds_merge (left right : InclusionResult) (assignment : Assignment) :
    (left.merge right).holds assignment
      = (left.holds assignment && right.holds assignment) := by
  unfold merge
  split
  case h_5 group other => exact ConditionGroup.holds_merge group other assignment
  all_goals simp [InclusionResult.holds]

theorem merge_comm : (left.merge right == right.merge left) = true := by
  simp [beq_iff_holds, holds_merge, Bool.and_comm]

theorem merge_assoc :
    ((left.merge right).merge result == left.merge (right.merge result)) = true := by
  simp [beq_iff_holds, holds_merge, Bool.and_assoc]

theorem merge_self : (result.merge result == result) = true := by
  simp [beq_iff_holds, holds_merge]

/-- The conjunction of tests is determined by the assignments that pass them all, whatever the order
and the repetitions of tests, merging is conjunction, and to be a part is to be implied. -/
theorem allOf_canonical_and_merge_conjunctive (tests others : List VariableTest)
    (left middle right : InclusionResult) (group other : ConditionGroup) :
    (∀ assignment, (allOf tests).holds assignment = true ↔
      ∀ test ∈ tests, test.holds assignment = true)
    ∧ ((allOf tests == allOf others) = true ↔ ∀ assignment,
      (∀ test ∈ tests, test.holds assignment = true) ↔
        ∀ test ∈ others, test.holds assignment = true)
    ∧ (allOf tests = .boolean false ↔
      ¬∃ assignment, ∀ test ∈ tests, test.holds assignment = true)
    ∧ (allOf tests = .boolean true ↔ tests = [])
    ∧ ((∀ test, test ∈ tests ↔ test ∈ others) → (allOf tests == allOf others) = true)
    ∧ (∀ assignment, (left.merge right).holds assignment = true ↔
      left.holds assignment = true ∧ right.holds assignment = true)
    ∧ (left.merge right == right.merge left) = true
    ∧ ((left.merge middle).merge right == left.merge (middle.merge right)) = true
    ∧ (left.merge left == left) = true
    ∧ (group.isSubset other = true ↔
      ∀ assignment, other.holds assignment = true → group.holds assignment = true) := by
  refine ⟨fun _ => holds_allOf_iff, beq_allOf_iff, allOf_eq_false_iff, allOf_eq_true_iff, ?_, ?_,
    merge_comm, merge_assoc, merge_self, ConditionGroup.isSubset_iff_holds⟩
  · intro same
    simp [beq_allOf_iff, same]
  · intro assignment
    rw [holds_merge, Bool.and_eq_true]

/-- Repeated and in another order, tests come to an equal group; merged with an opposite test, it
comes to nothing. -/
example : allOf [⟨"a", false⟩, ⟨"b", true⟩] == allOf [⟨"b", true⟩, ⟨"a", false⟩, ⟨"a", false⟩]
    ∧ (allOf [⟨"a", false⟩, ⟨"b", true⟩]).merge (allOf [⟨"b", false⟩]) = .boolean false := by
  decide

end InclusionResult

end ResponseShape
