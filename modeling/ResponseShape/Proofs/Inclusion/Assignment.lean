import Mathlib.Data.List.Nodup
import Mathlib.Data.List.Perm.Subperm
import ResponseShape.Inclusion.Alternatives

/-!
# Conditions under an assignment

A condition group, and whatever is made of groups, holds or fails once the variables of an operation
are given. Conjunction of groups is conjunction of what they say (`ConditionGroup.holds_merge`), a
group contradicts another exactly if no assignment satisfies both
(`ConditionGroup.contradicts_eq_false_iff`), that is if it makes a test whose opposite the other
makes (`ConditionGroup.contradicts_iff_opposite`), and what is left of a group within a scope says,
there, what the group says (`ConditionGroup.holds_remainderIn`).
-/

namespace ResponseShape

/-- What the Boolean variables of an operation stand for. -/
abbrev Assignment := Name → Bool

/-- Whether a test is passed. -/
def VariableTest.holds (assignment : Assignment) (test : VariableTest) : Bool :=
  assignment test.variableName != test.inverted

/-- Whether all tests of a group are passed. -/
def ConditionGroup.holds (assignment : Assignment) (group : ConditionGroup) : Bool :=
  group.tests.all (·.holds assignment)

/-- Whether a result includes its selection. -/
def InclusionResult.holds (assignment : Assignment) : InclusionResult → Bool
  | .conditional group => group.holds assignment
  | .boolean included => included

namespace VariableTest

variable {assignment : Assignment} {test other : VariableTest}

theorem not_holds_of_opposite (sameName : other.variableName = test.variableName)
    (opposite : other.inverted ≠ test.inverted) (holds : other.holds assignment = true) :
    test.holds assignment = false := by
  simp only [VariableTest.holds, sameName] at holds ⊢
  revert holds opposite
  cases assignment test.variableName <;> cases other.inverted <;> cases test.inverted <;> decide

end VariableTest

namespace ConditionGroup

variable {assignment : Assignment} {group other result : ConditionGroup} {test : VariableTest}
  {scope : Option ConditionGroup}

theorem holds_iff : group.holds assignment = true ↔
    ∀ test ∈ group.tests, test.holds assignment = true := by
  simp [holds]

theorem holds_of_subset (subset : ∀ test ∈ group.tests, test ∈ other.tests)
    (holds : other.holds assignment = true) : group.holds assignment = true :=
  holds_iff.mpr fun test mem => holds_iff.mp holds test (subset test mem)

theorem isSubset_iff : group.isSubset other = true ↔
    ∀ test ∈ group.tests, test ∈ other.tests := by
  simp [isSubset, contains]

theorem isSubset_refl : group.isSubset group = true := isSubset_iff.mpr fun _ mem => mem

theorem mem_tests_of_beq (same : (group == other) = true) :
    test ∈ group.tests ↔ test ∈ other.tests := by
  obtain ⟨size, subset⟩ : group.size = other.size ∧ group.isSubset other = true := by
    simpa only [BEq.beq, Bool.and_eq_true, decide_eq_true_eq] using same
  have subperm : group.tests.Subperm other.tests :=
    (List.Nodup.of_map _ group.nodup).subperm (isSubset_iff.mp subset)
  have perm := subperm.perm_of_length_le (Nat.le_of_eq size.symm)
  exact perm.mem_iff

theorem holds_of_beq (same : (group == other) = true) :
    group.holds assignment = other.holds assignment := by
  rw [Bool.eq_iff_iff, holds_iff, holds_iff]
  simp only [mem_tests_of_beq same]

/-- A group takes a test that it makes already as it is, and any other at its end. -/
theorem and?_cases (extended : group.and? test = some result) :
    (test ∈ group.tests ∧ result = group) ∨ result.tests = group.tests ++ [test] := by
  unfold and? at extended
  split at extended
  next existing known =>
    have sameName : existing.variableName = test.variableName := by
      simpa using List.find?_some known
    split at extended
    next sameSign =>
      have same : existing = test := by
        cases existing; cases test; simp_all
      exact Or.inl ⟨same ▸ List.mem_of_find?_eq_some known, (Option.some.inj extended).symm⟩
    next => cases extended
  next =>
    rcases Option.some.inj extended with rfl
    exact Or.inr rfl

theorem mem_and? (extended : group.and? test = some result) (candidate : VariableTest) :
    candidate ∈ result.tests ↔ candidate ∈ group.tests ∨ candidate = test := by
  rcases and?_cases extended with ⟨made, rfl⟩ | added
  · exact ⟨Or.inl, fun either => either.elim id fun same => same ▸ made⟩
  · rw [added, List.mem_append, List.mem_singleton]

/-- A test that a group cannot take fails wherever the group holds. -/
theorem not_holds_of_and?_eq_none (refused : group.and? test = none)
    (holds : group.holds assignment = true) : test.holds assignment = false := by
  unfold and? at refused
  split at refused
  next existing known =>
    split at refused
    next => cases refused
    next opposite =>
      exact VariableTest.not_holds_of_opposite (by simpa using List.find?_some known)
        (by simpa using opposite)
        (holds_iff.mp holds existing (List.mem_of_find?_eq_some known))
  next => cases refused

theorem mem_foldlM_and? {tests : List VariableTest}
    (extended : tests.foldlM and? group = some result) (candidate : VariableTest) :
    candidate ∈ result.tests ↔ candidate ∈ group.tests ∨ candidate ∈ tests := by
  induction tests generalizing group with
  | nil =>
      rcases Option.some.inj extended with rfl
      simp
  | cons test rest ih =>
      simp only [List.foldlM_cons, Option.bind_eq_bind, Option.bind_eq_some_iff] at extended
      rcases extended with ⟨next, nextEq, restEq⟩
      rw [ih restEq, mem_and? nextEq, List.mem_cons, or_assoc]

/-- Tests of which none is made twice join a group in their order. -/
theorem tests_foldlM_and? {tests : List VariableTest}
    (extended : tests.foldlM and? group = some result)
    (nodup : (group.tests ++ tests).Nodup) : result.tests = group.tests ++ tests := by
  induction tests generalizing group with
  | nil =>
      rcases Option.some.inj extended with rfl
      rw [List.append_nil]
  | cons test rest ih =>
      simp only [List.foldlM_cons, Option.bind_eq_bind, Option.bind_eq_some_iff] at extended
      rcases extended with ⟨next, isNext, further⟩
      rcases and?_cases isNext with ⟨made, -⟩ | added
      · exact absurd rfl ((List.nodup_append.mp nodup).2.2 test made test List.mem_cons_self)
      · rw [← List.singleton_append, ← List.append_assoc, ← added] at nodup ⊢
        exact ih further nodup

theorem not_holds_of_foldlM_and?_eq_none {tests : List VariableTest}
    (refused : tests.foldlM and? group = none) (holds : group.holds assignment = true) :
    ∃ test ∈ tests, test.holds assignment = false := by
  induction tests generalizing group with
  | nil => cases refused
  | cons test rest ih =>
      simp only [List.foldlM_cons, Option.bind_eq_bind, Option.bind_eq_none_iff] at refused
      cases extended : group.and? test with
      | none => exact ⟨test, by simp, not_holds_of_and?_eq_none extended holds⟩
      | some next =>
          cases testHolds : test.holds assignment with
          | false => exact ⟨test, by simp, testHolds⟩
          | true =>
              have nextHolds : next.holds assignment = true := by
                rw [holds_iff]
                intro candidate mem
                rcases (mem_and? extended candidate).mp mem with old | rfl
                · exact holds_iff.mp holds candidate old
                · exact testHolds
              rcases ih (refused next extended) nextHolds with ⟨failing, failingMem, fails⟩
              exact ⟨failing, by simp [failingMem], fails⟩

end ConditionGroup

namespace InclusionResult

variable {assignment : Assignment} {tests : List VariableTest} {group : ConditionGroup}

/-- The conjunction of tests includes a selection exactly if all of them are passed. -/
theorem holds_allOf : (allOf tests).holds assignment = tests.all (·.holds assignment) := by
  cases tests with
  | nil => rfl
  | cons first rest =>
      have single : (ConditionGroup.single first).holds assignment = first.holds assignment := by
        simp [ConditionGroup.holds, ConditionGroup.single]
      cases folded : rest.foldlM ConditionGroup.and? (.single first) with
      | none =>
          simp only [allOf, folded, InclusionResult.holds, List.all_cons]
          cases firstHolds : first.holds assignment with
          | false => rfl
          | true =>
              obtain ⟨failing, mem, fails⟩ :=
                ConditionGroup.not_holds_of_foldlM_and?_eq_none folded (single.trans firstHolds)
              symm
              rw [Bool.true_and, List.all_eq_false]
              exact ⟨failing, mem, by simp [fails]⟩
      | some result =>
          rw [Bool.eq_iff_iff]
          simp only [allOf, folded, InclusionResult.holds, ConditionGroup.holds_iff,
            ConditionGroup.mem_foldlM_and? folded, List.all_eq_true, List.mem_cons]
          simp [ConditionGroup.single]

theorem mem_allOf (conditional : allOf tests = .conditional group) (test : VariableTest) :
    test ∈ group.tests ↔ test ∈ tests := by
  cases tests with
  | nil => cases conditional
  | cons first rest =>
      cases folded : rest.foldlM ConditionGroup.and? (.single first) with
      | none => simp [allOf, folded] at conditional
      | some result =>
          simp only [allOf, folded, InclusionResult.conditional.injEq] at conditional
          subst conditional
          simp [ConditionGroup.mem_foldlM_and? folded, ConditionGroup.single]

theorem tests_allOf (conditional : allOf tests = .conditional group) (nodup : tests.Nodup) :
    group.tests = tests := by
  cases tests with
  | nil => cases conditional
  | cons first rest =>
      cases folded : rest.foldlM ConditionGroup.and? (.single first) with
      | none => simp [allOf, folded] at conditional
      | some result =>
          simp only [allOf, folded, InclusionResult.conditional.injEq] at conditional
          subst conditional
          exact ConditionGroup.tests_foldlM_and? folded nodup

theorem allOf_ne_true (nonempty : tests ≠ []) : allOf tests ≠ .boolean true := by
  cases tests with
  | nil => exact absurd rfl nonempty
  | cons first rest =>
      cases folded : rest.foldlM ConditionGroup.and? (.single first) <;> simp [allOf, folded]

end InclusionResult

namespace ConditionGroup

variable {assignment : Assignment} {group other merged remaining : ConditionGroup}
  {test : VariableTest} {scope : Option ConditionGroup}

/-- Some assignment satisfies a group, as it tests each variable once. -/
theorem exists_holds (group : ConditionGroup) : ∃ assignment, group.holds assignment = true := by
  refine ⟨fun name => group.tests.any fun test => test.variableName == name && !test.inverted, ?_⟩
  rw [holds_iff]
  intro test mem
  cases inverted : test.inverted with
  | false =>
      simp only [VariableTest.holds, inverted, Bool.bne_false, List.any_eq_true]
      exact ⟨test, mem, by simp [inverted]⟩
  | true =>
      simp only [VariableTest.holds, inverted, Bool.bne_true, Bool.not_eq_true', List.any_eq_false]
      intro twin twinMem
      have distinct := List.inj_on_of_nodup_map group.nodup twinMem mem
      by_cases sameName : twin.variableName = test.variableName
      · simp [distinct sameName, inverted]
      · simp [sameName]

@[simp]
theorem holds_merge (group other : ConditionGroup) (assignment : Assignment) :
    (group.merge other).holds assignment =
      (group.holds assignment && other.holds assignment) := by
  simp [merge, InclusionResult.holds_allOf, holds]

theorem merge_ne_true : group.merge other ≠ .boolean true :=
  InclusionResult.allOf_ne_true (by simp [group.nonempty])

theorem mem_merge (conditional : group.merge other = .conditional merged) :
    test ∈ merged.tests ↔ test ∈ group.tests ∨ test ∈ other.tests := by
  rw [InclusionResult.mem_allOf conditional, List.mem_append]

/-- The conjunction of groups that share no test makes the tests of the one, then those of the
other. -/
theorem tests_merge (conditional : group.merge other = .conditional merged)
    (fresh : ∀ test ∈ other.tests, test ∉ group.tests) :
    merged.tests = group.tests ++ other.tests := by
  refine InclusionResult.tests_allOf conditional ?_
  rw [List.nodup_append]
  refine ⟨.of_map _ group.nodup, .of_map _ other.nodup, ?_⟩
  rintro test here _ isOther rfl
  exact fresh test isOther here

theorem not_holds_of_contradicts (contradicts : group.contradicts scope = true)
    (scopeHolds : scope.all (·.holds assignment) = true) : group.holds assignment = false := by
  cases scope with
  | none => simp [ConditionGroup.contradicts] at contradicts
  | some known =>
      simp only [ConditionGroup.contradicts, Option.any_some] at contradicts
      have skipped : known.merge group = .boolean false := by
        cases result : known.merge group with
        | conditional merged => simp [result, InclusionResult.isSkipped] at contradicts
        | boolean included => cases included <;> simp_all [InclusionResult.isSkipped]
      have conjunction := holds_merge known group assignment
      simp_all [InclusionResult.holds]

/-- A group contradicts a scope exactly if no assignment satisfies both. -/
theorem contradicts_eq_false_iff : group.contradicts scope = false ↔
    ∃ assignment, scope.all (·.holds assignment) = true ∧ group.holds assignment = true := by
  constructor
  · intro compatible
    cases scope with
    | none =>
        rcases group.exists_holds with ⟨assignment, holds⟩
        exact ⟨assignment, rfl, holds⟩
    | some known =>
        simp only [ConditionGroup.contradicts, Option.any_some] at compatible
        cases result : known.merge group with
        | boolean included =>
            cases included
            · simp [result, InclusionResult.isSkipped] at compatible
            · exact absurd result merge_ne_true
        | conditional merged =>
            rcases merged.exists_holds with ⟨assignment, holds⟩
            have conjunction := holds_merge known group assignment
            rw [result] at conjunction
            simp only [InclusionResult.holds, holds, Eq.comm (a := true),
              Bool.and_eq_true] at conjunction
            exact ⟨assignment, by simpa using conjunction.1, conjunction.2⟩
  · rintro ⟨assignment, scopeHolds, holds⟩
    cases contradicts : group.contradicts scope with
    | false => rfl
    | true => simp [not_holds_of_contradicts contradicts scopeHolds] at holds

theorem mem_of_remainderIn (remains : group.remainderIn scope = some remaining)
    (mem : test ∈ remaining.tests) : test ∈ group.tests := by
  cases scope with
  | none =>
      rcases Option.some.inj remains with rfl
      exact mem
  | some known =>
      simp only [remainderIn, filter?] at remains
      split at remains
      next => cases remains
      next =>
        rcases Option.some.inj remains with rfl
        exact (List.mem_filter.mp mem).1

theorem not_mem_of_remainderIn {known : ConditionGroup}
    (remains : group.remainderIn (some known) = some remaining)
    (mem : test ∈ remaining.tests) : test ∉ known.tests := by
  simp only [remainderIn, filter?] at remains
  split at remains
  next => cases remains
  next =>
    rcases Option.some.inj remains with rfl
    simpa [contains] using (List.mem_filter.mp mem).2

theorem mem_remainderIn_or_scope (scope : Option ConditionGroup) (mem : test ∈ group.tests) :
    (∃ remaining ∈ group.remainderIn scope, test ∈ remaining.tests) ∨
      ∃ known ∈ scope, test ∈ known.tests := by
  cases scope with
  | none => exact Or.inl ⟨group, rfl, mem⟩
  | some known =>
      by_cases isKnown : test ∈ known.tests
      · exact Or.inr ⟨known, rfl, isKnown⟩
      · left
        have kept : test ∈ group.tests.filter fun test => !known.contains test := by
          simp [mem, contains, isKnown]
        simp only [remainderIn, filter?]
        split
        next empty => simp [empty] at kept
        next => exact ⟨_, rfl, kept⟩

theorem bind_filter? (group : ConditionGroup) (keeps more : VariableTest → Bool) :
    (group.filter? keeps).bind (·.filter? more)
      = group.filter? fun test => keeps test && more test := by
  have twice : (group.tests.filter keeps).filter more
      = group.tests.filter fun test => keeps test && more test := by
    simp only [List.filter_filter, Bool.and_comm]
  simp only [filter?]
  by_cases isEmpty : group.tests.filter keeps = []
  · rw [isEmpty, List.filter_nil] at twice
    simp [isEmpty, ← twice]
  · simp [isEmpty, twice]

/-- What is left of a group within a scope, and then within one that makes the same tests and more,
is what is left of it within the latter. -/
theorem bind_remainderIn {known more : Option ConditionGroup}
    (subset : ∀ test, (∃ group ∈ known, test ∈ group.tests) → ∃ group ∈ more, test ∈ group.tests)
    (group : ConditionGroup) :
    (group.remainderIn known).bind (·.remainderIn more) = group.remainderIn more := by
  cases known with
  | none => rfl
  | some inner =>
      rcases List.exists_mem_of_ne_nil _ inner.nonempty with ⟨first, made⟩
      rcases subset first ⟨inner, rfl, made⟩ with ⟨outer, isMore, -⟩
      rw [Option.mem_def] at isMore
      subst isMore
      have isKnown (test : VariableTest) (mem : test ∈ inner.tests) : test ∈ outer.tests := by
        simpa using subset test ⟨inner, rfl, mem⟩
      simp only [remainderIn, bind_filter?]
      congr 1
      funext test
      by_cases mem : test ∈ inner.tests
      · simp [contains, mem, isKnown test mem]
      · simp [contains, mem]

/-- Within a scope, what is left of a group says what the group says. -/
theorem holds_remainderIn (group : ConditionGroup)
    (scopeHolds : scope.all (·.holds assignment) = true) :
    (group.remainderIn scope).all (·.holds assignment) = group.holds assignment := by
  rw [Bool.eq_iff_iff, holds_iff]
  constructor
  · intro remainderHolds test mem
    rcases mem_remainderIn_or_scope scope mem with
      ⟨remaining, remains, kept⟩ | ⟨known, isScope, isKnown⟩
    · rw [Option.mem_def] at remains
      rw [remains] at remainderHolds
      exact holds_iff.mp (by simpa using remainderHolds) test kept
    · rw [Option.mem_def] at isScope
      rw [isScope] at scopeHolds
      exact holds_iff.mp (by simpa using scopeHolds) test isKnown
  · intro groupHolds
    cases remains : group.remainderIn scope with
    | none => rfl
    | some remaining =>
        simp only [Option.all_some, holds_iff]
        exact fun test mem => groupHolds test (mem_of_remainderIn remains mem)

theorem remainderIn_eq_none_iff : group.remainderIn scope = none ↔
    scope.any group.isSubset = true := by
  cases scope with
  | none => simp [remainderIn]
  | some known =>
      simp only [remainderIn, filter?, Option.any_some, isSubset_iff]
      split
      next empty =>
        simp only [List.filter_eq_nil_iff, contains, List.contains_eq_mem, Bool.not_eq_true',
          decide_eq_false_iff_not, not_not] at empty
        simpa using empty
      next remains =>
        simp only [reduceCtorEq, false_iff]
        intro subset
        apply remains
        simpa [List.filter_eq_nil_iff, contains] using subset

end ConditionGroup

section Opposites

variable {group : ConditionGroup} {known : Option ConditionGroup} {test : VariableTest}
  {assignment : Assignment}

/-- The test that is passed exactly if this one is not. -/
def VariableTest.opposite (test : VariableTest) : VariableTest :=
  ⟨test.variableName, !test.inverted⟩

theorem VariableTest.holds_opposite :
    test.opposite.holds assignment = !test.holds assignment := by
  cases test with
  | mk name inverted =>
      simp only [VariableTest.holds, VariableTest.opposite]
      cases assignment name <;> cases inverted <;> rfl

/-- An assignment can be changed to pass all of some tests, if there are no opposite ones among
them; what it has passed it still passes, unless the opposite is among them. -/
theorem VariableTest.exists_holds_beside (assignment : Assignment) {tests : List VariableTest}
    (unopposed : ∀ test ∈ tests, test.opposite ∉ tests) :
    ∃ other, (∀ test ∈ tests, test.holds other = true) ∧ ∀ test : VariableTest,
      test.holds assignment = true → test.opposite ∉ tests → test.holds other = true := by
  refine ⟨fun name => tests.contains ⟨name, false⟩
    || assignment name && !tests.contains ⟨name, true⟩, ?_, ?_⟩
  · rintro ⟨name, inverted⟩ made
    have notBoth := unopposed _ made
    cases inverted <;> simp_all [VariableTest.holds, VariableTest.opposite]
  · rintro ⟨name, inverted⟩ passed notMade
    cases inverted <;> simp_all [VariableTest.holds, VariableTest.opposite]

theorem VariableTest.exists_holds_of_unopposed {tests : List VariableTest}
    (unopposed : ∀ test ∈ tests, test.opposite ∉ tests) :
    ∃ assignment, ∀ test ∈ tests, test.holds assignment = true := by
  rcases exists_holds_beside (fun _ => false) unopposed with ⟨assignment, passes, -⟩
  exact ⟨assignment, passes⟩

/-- All of some tests can be passed exactly if there are no opposite ones among them. -/
theorem VariableTest.exists_holds_iff {tests : List VariableTest} :
    (∃ assignment, ∀ test ∈ tests, test.holds assignment = true) ↔
      ∀ test ∈ tests, test.opposite ∉ tests := by
  refine ⟨?_, exists_holds_of_unopposed⟩
  rintro ⟨assignment, passes⟩ test mem opposed
  have failed := passes test.opposite opposed
  rw [holds_opposite, passes test mem] at failed
  cases failed

theorem VariableTest.opposite_opposite : test.opposite.opposite = test := by
  simp [VariableTest.opposite]

/-- Tests without opposite ones among them have none together either, unless one of the latter has
its opposite among the former. -/
theorem VariableTest.unopposed_append {tests more : List VariableTest}
    (unopposed : ∀ test ∈ tests, test.opposite ∉ tests)
    (moreUnopposed : ∀ test ∈ more, test.opposite ∉ more)
    (between : ∀ test ∈ more, test.opposite ∉ tests) :
    ∀ test ∈ tests ++ more, test.opposite ∉ tests ++ more := by
  intro test mem opposed
  rcases List.mem_append.mp mem with here | isMore
  · rcases List.mem_append.mp opposed with twice | isMore
    · exact unopposed test here twice
    · apply between test.opposite isMore
      rwa [opposite_opposite]
  · rcases List.mem_append.mp opposed with here | twice
    · exact between test isMore here
    · exact moreUnopposed test isMore twice

theorem ConditionGroup.opposite_not_mem (mem : test ∈ group.tests) :
    test.opposite ∉ group.tests := by
  intro opposed
  have same := List.inj_on_of_nodup_map group.nodup mem opposed rfl
  have signs := congrArg VariableTest.inverted same
  simp [VariableTest.opposite] at signs

/-- A group contradicts a scope exactly if it makes a test whose opposite is known there. -/
theorem ConditionGroup.contradicts_iff_opposite : group.contradicts known = true ↔
    ∃ test ∈ group.tests, ∃ other ∈ known, test.opposite ∈ other.tests := by
  constructor
  · intro contradicts
    by_contra none
    simp only [not_exists, not_and] at none
    cases known with
    | none => simp [ConditionGroup.contradicts] at contradicts
    | some other =>
        have unopposed : ∀ test ∈ other.tests ++ group.tests,
            test.opposite ∉ other.tests ++ group.tests :=
          VariableTest.unopposed_append (fun _ => opposite_not_mem) (fun _ => opposite_not_mem)
            fun test mem => none test mem other rfl
        rcases VariableTest.exists_holds_of_unopposed unopposed with ⟨assignment, passes⟩
        have compatible : group.contradicts (some other) = false := by
          apply contradicts_eq_false_iff.mpr
          refine ⟨assignment, ?_, ?_⟩
          · simp only [Option.all_some, holds_iff]
            exact fun test mem => passes test (List.mem_append_left _ mem)
          · apply holds_iff.mpr
            exact fun test mem => passes test (List.mem_append_right _ mem)
        rw [compatible] at contradicts
        cases contradicts
  · rintro ⟨test, mem, other, isKnown, opposed⟩
    cases contradicts : group.contradicts known with
    | true => rfl
    | false =>
        rcases contradicts_eq_false_iff.mp contradicts with ⟨assignment, knownHolds, holds⟩
        rw [Option.all_eq_true] at knownHolds
        have passed := holds_iff.mp holds test mem
        have failed := holds_iff.mp (knownHolds other isKnown) test.opposite opposed
        rw [VariableTest.holds_opposite, passed] at failed
        cases failed

theorem ConditionGroup.any_contradicts_remainderIn (group : ConditionGroup)
    (known : Option ConditionGroup) :
    (group.remainderIn known).any (·.contradicts known) = group.contradicts known := by
  rw [Bool.eq_iff_iff, Option.any_eq_true]
  simp only [contradicts_iff_opposite]
  constructor
  · rintro ⟨remaining, remains, test, kept, opposed⟩
    exact ⟨test, mem_of_remainderIn remains kept, opposed⟩
  · rintro ⟨test, made, other, isKnown, opposed⟩
    rcases mem_remainderIn_or_scope known made with
      ⟨remaining, remains, kept⟩ | ⟨same, isSame, both⟩
    · exact ⟨remaining, remains, test, kept, other, isKnown, opposed⟩
    · rcases Option.some.inj (isKnown.symm.trans isSame) with rfl
      exact absurd opposed (opposite_not_mem both)

end Opposites

end ResponseShape
