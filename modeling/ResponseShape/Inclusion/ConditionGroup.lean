import ResponseShape.Written.Value

/-!
# Condition groups

A condition group is a conjunction of tests on variables, as `@include` and `@skip` impose them. It
tests each variable once and is never empty: what would be empty always holds, what would test a
variable both ways never does, and `InclusionResult` has a value for each.

Groups keep the order in which their tests were written, but compare without it. Hashing agrees with
that comparison because it goes through `ConditionGroup.sorted`.
-/

namespace ResponseShape

/-- A test of one Boolean variable: it holds if the variable is true or, inverted, false. -/
structure VariableTest where
  variableName : Name
  inverted : Bool
deriving DecidableEq, Hashable, Inhabited

/-- A test as written in code: `$a`, or `!$a` if inverted. -/
def VariableTest.render (test : VariableTest) : String :=
  (if test.inverted then "!$" else "$") ++ test.variableName

/-- A conjunction of tests of distinct variables, at least one. -/
structure ConditionGroup where
  tests : List VariableTest
  nonempty : tests ≠ []
  nodup : (tests.map (·.variableName)).Nodup
deriving DecidableEq

namespace ConditionGroup

/-- The group of a single test. -/
def single (test : VariableTest) : ConditionGroup where
  tests := [test]
  nonempty := by simp
  nodup := by simp

instance : Inhabited ConditionGroup := ⟨single default⟩

/-- How many variables the group tests. -/
def size (group : ConditionGroup) : Nat := group.tests.length

/-- Whether the group makes the test. -/
def contains (group : ConditionGroup) (test : VariableTest) : Bool := group.tests.contains test

/-- Whether every test of the group is one of the other's, so that the other implies it. -/
def isSubset (group other : ConditionGroup) : Bool := group.tests.all other.contains

/-- Groups are equal if they make the same tests, in whatever order. -/
instance : BEq ConditionGroup :=
  ⟨fun left right => left.size == right.size && left.isSubset right⟩

/-- The tests in the order of their variables. -/
def sorted (group : ConditionGroup) : List VariableTest :=
  group.tests.mergeSort fun left right => decide (left.variableName ≤ right.variableName)

instance : Hashable ConditionGroup := ⟨fun group => hash group.sorted⟩

/-- The test that the group makes of a variable. -/
def on? (group : ConditionGroup) (variableName : Name) : Option VariableTest :=
  group.tests.find? (·.variableName == variableName)

/-- A group with one more test, absent if the group makes the opposite one. -/
def and? (group : ConditionGroup) (test : VariableTest) : Option ConditionGroup :=
  match known : group.on? test.variableName with
  | some existing => if existing.inverted == test.inverted then some group else none
  | none => some
      { tests := group.tests ++ [test]
        nonempty := by simp
        nodup := by
          rw [List.map_append, List.nodup_append]
          refine ⟨group.nodup, by simp, ?_⟩
          intro name isOld other isNew
          simp only [on?, List.find?_eq_none, beq_iff_eq] at known
          simp only [List.map_cons, List.map_nil, List.mem_singleton] at isNew
          obtain ⟨old, oldMem, rfl⟩ := List.mem_map.mp isOld
          subst isNew
          exact known old oldMem }

/-- The tests of a group that are to be kept, absent if there are none. -/
def filter? (group : ConditionGroup) (keeps : VariableTest → Bool) : Option ConditionGroup :=
  if remains : group.tests.filter keeps = [] then none
  else some
    { tests := group.tests.filter keeps
      nonempty := remains
      nodup := group.nodup.sublist (List.filter_sublist.map _) }

/-- The tests that the given scope does not already make, absent if it makes them all. -/
def remainderIn (group : ConditionGroup) : Option ConditionGroup → Option ConditionGroup
  | none => some group
  | some scope => group.filter? fun test => !scope.contains test

/-- The tests joined by `&&`. -/
def render (group : ConditionGroup) : String := " && ".intercalate (group.tests.map (·.render))

end ConditionGroup

end ResponseShape
