import ResponseShape.Proofs.Merging.Reduction
import ResponseShape.Proofs.Scope.Decisions

/-!
# Conditions along a path

Contradictions are found as long as they lie within one level of entities: in what is written in a
definition each scope can hold, and so can each group of a field's conditions in the scope around
it. But each level starts from a scope of its own, so that the conditions of two levels are never
compared. A path of scopes that can hold can do so as a whole exactly if no two of them test a
variable in opposite ways (`Place.exists_permits_iff`). What is written in a definition can hold
with all of its path in that case (`Workspace.Reachable.canHold_of_written`), and there are
definitions in which two levels do oppose each other (`Workspace.exists_written_opposed`).
-/

namespace ResponseShape

/-- Whether no scope of the path to a place makes a test whose opposite a later one makes. -/
def Place.IsUnopposed (place : Place) : Prop :=
  place.scopes.Pairwise fun scope later => ∀ test ∈ scope.pathTests,
    test.opposite ∉ later.pathTests

namespace Scope

variable {scope : Scope} {scopes : List Scope} {assignment : Assignment}

theorem permits_iff_pathTests :
    scope.permits assignment = true ↔ ∀ test ∈ scope.pathTests, test.holds assignment = true := by
  simp only [permits_iff, ConditionGroup.holds_iff, mem_pathTests]
  grind

theorem exists_permits_iff_pathTests : (∃ assignment, scope.permits assignment = true) ↔
    ∀ test ∈ scope.pathTests, test.opposite ∉ scope.pathTests := by
  rw [← VariableTest.exists_holds_iff]
  exact exists_congr fun _ => permits_iff_pathTests

theorem permitsAll_iff_pathTests : (∀ scope ∈ scopes, scope.permits assignment = true) ↔
    ∀ test ∈ scopes.flatMap (·.pathTests), test.holds assignment = true := by
  simp only [permits_iff_pathTests, List.mem_flatMap]
  grind

/-- Scopes that can hold make no opposite tests if no two of them do. -/
theorem unopposed_flatMap
    (canHold : ∀ scope ∈ scopes, ∃ assignment, scope.permits assignment = true)
    (pairwise : scopes.Pairwise fun scope later => ∀ test ∈ scope.pathTests,
      test.opposite ∉ later.pathTests) :
    ∀ test ∈ scopes.flatMap (·.pathTests), test.opposite ∉ scopes.flatMap (·.pathTests) := by
  induction pairwise with
  | nil => exact fun _ none => nomatch none
  | @cons first rest others _ ih =>
      rw [List.forall_mem_cons] at canHold
      rw [List.flatMap_cons]
      refine VariableTest.unopposed_append (exists_permits_iff_pathTests.mp canHold.1)
        (ih canHold.2) fun test made opposed => ?_
      rcases List.mem_flatMap.mp made with ⟨scope, mem, isMade⟩
      apply others scope mem test.opposite opposed
      rwa [VariableTest.opposite_opposite]

theorem not_opposed_of_holds {test : VariableTest} (permits : scope.permits assignment = true)
    (holds : test.holds assignment = true) : test.opposite ∉ scope.pathTests := by
  intro opposed
  have failed := permits_iff_pathTests.mp permits test.opposite opposed
  rw [VariableTest.holds_opposite, holds] at failed
  cases failed

end Scope

namespace Place

variable {place : Place} {group : ConditionGroup}
  (canHold : ∀ scope ∈ place.scopes, ∃ assignment, scope.permits assignment = true)

include canHold

/-- The scopes of a path, each of which can hold, can hold together exactly if no two of them oppose
each other. -/
theorem exists_permits_iff : (∃ assignment, ∀ scope ∈ place.scopes,
    scope.permits assignment = true) ↔ place.IsUnopposed := by
  constructor
  · rintro ⟨assignment, permits⟩
    refine List.pairwise_of_forall_mem_list fun scope mem later laterMem test made => ?_
    exact Scope.not_opposed_of_holds (permits later laterMem)
      (Scope.permits_iff_pathTests.mp (permits scope mem) test made)
  · intro unopposed
    rcases VariableTest.exists_holds_of_unopposed (Scope.unopposed_flatMap canHold unopposed) with
      ⟨assignment, passes⟩
    exact ⟨assignment, Scope.permitsAll_iff_pathTests.mpr passes⟩

/-- A group that can hold in the scope of a place can hold with the whole path exactly if no two
scopes oppose each other, and none of those around opposes the group. -/
theorem exists_permits_and_holds_iff
    (compatible : ∃ assignment, place.scope.permits assignment = true
      ∧ group.holds assignment = true) :
    (∃ assignment, (∀ scope ∈ place.scopes, scope.permits assignment = true)
        ∧ group.holds assignment = true) ↔
      place.IsUnopposed
        ∧ ∀ scope ∈ place.enclosing, ∀ test ∈ group.tests, test.opposite ∉ scope.pathTests := by
  constructor
  · rintro ⟨assignment, permits, holds⟩
    refine ⟨(exists_permits_iff canHold).mp ⟨assignment, permits⟩, fun scope mem test made => ?_⟩
    exact Scope.not_opposed_of_holds (permits scope (List.mem_append_left _ mem))
      (ConditionGroup.holds_iff.mp holds test made)
  · rintro ⟨unopposed, around⟩
    rcases compatible with ⟨_, permits, holds⟩
    have between : ∀ test ∈ group.tests, test.opposite ∉ place.scopes.flatMap (·.pathTests) := by
      intro test made opposed
      rcases List.mem_flatMap.mp opposed with ⟨scope, mem, isOpposed⟩
      rcases List.mem_append.mp mem with isAround | isInner
      · exact around scope isAround test made isOpposed
      · rw [List.mem_singleton.mp isInner] at isOpposed
        exact Scope.not_opposed_of_holds permits (ConditionGroup.holds_iff.mp holds test made)
          isOpposed
    rcases VariableTest.exists_holds_of_unopposed (VariableTest.unopposed_append
      (Scope.unopposed_flatMap canHold unopposed) (fun _ => ConditionGroup.opposite_not_mem)
      between) with ⟨assignment, passes⟩
    refine ⟨assignment, Scope.permitsAll_iff_pathTests.mpr fun test mem => ?_,
      ConditionGroup.holds_iff.mpr fun test mem => ?_⟩
    · exact passes test (List.mem_append_left _ mem)
    · exact passes test (List.mem_append_right _ mem)

end Place

/-- In what is written in a definition, each scope of a path can hold, and so can the fields and
each group of their conditions in the scope around them. All of this can hold together with the
whole path where no two of its scopes, and none of those around and the group, oppose each other. -/
theorem Workspace.Reachable.canHold_of_written {project : Project} {workspace : Workspace}
    {root : RootField} {place : Place} {tree : SelectionTree}
    (reachable : Workspace.Reachable project workspace) (hasRoot : workspace.HasRoot root)
    (written : (place, tree) ∈ root.writtenSets) :
    (∀ scope ∈ place.scopes, ∃ assignment, scope.permits assignment = true)
    ∧ (place.IsUnopposed → ∃ assignment, ∀ scope ∈ place.scopes, scope.permits assignment = true)
    ∧ (∀ field ∈ tree.fields, ∃ assignment, place.scope.permits assignment = true
      ∧ field.holds assignment = true)
    ∧ ∀ field ∈ tree.fields, ∀ conditions ∈ field.summary.conditions,
      ∀ group ∈ conditions.groups,
      (∃ assignment, place.scope.permits assignment = true ∧ group.holds assignment = true)
      ∧ (place.IsUnopposed →
        (∀ scope ∈ place.enclosing, ∀ test ∈ group.tests, test.opposite ∉ scope.pathTests) →
        ∃ assignment, (∀ scope ∈ place.scopes, scope.permits assignment = true)
          ∧ group.holds assignment = true) := by
  rcases (Workspace.isSound_of_reachable reachable).hasBuilt hasRoot with
    ⟨definition, type, selections, occurrences, hasBuilt⟩
  have depiction := hasBuilt.built.depiction
  rcases (depiction.forall_writtenSets _ written).1 with ⟨_, _, depicts⟩
  have scopesReachable := depiction.reachable_scopes _ written
  have canHold : ∀ scope ∈ place.scopes, ∃ assignment, scope.permits assignment = true :=
    fun scope mem => (scopesReachable scope mem).exists_permits
  have tracked := Scope.isTracked_of_reachable (scopesReachable _ place.scope_mem_scopes)
  refine ⟨canHold, (Place.exists_permits_iff canHold).mpr,
    fun field mem => ?_, fun field mem conditions isConditions group inConditions => ?_⟩
  · simp only [← tracked.holds_knownConditions_iff]
    exact depicts.exists_holds mem
  · have free := (depicts.isReduced field mem conditions isConditions).free group inConditions
    have compatible : ∃ assignment, place.scope.permits assignment = true
        ∧ group.holds assignment = true := by
      simp only [← tracked.holds_knownConditions_iff]
      exact ConditionGroup.contradicts_eq_false_iff.mp free.contradicts_eq_false
    exact ⟨compatible, fun unopposed around =>
      (Place.exists_permits_and_holds_iff canHold compatible).mpr ⟨unopposed, around⟩⟩

/-- Below a field behind the branch on the first variable stands a set behind its opposite. -/
theorem Disguises.exists_opposed : ∃ (root : RootField) (place : Place) (tree : SelectionTree)
    (field : Field) (conditions : Alternatives) (group : ConditionGroup),
    Disguises.workspace.HasRoot root ∧ (place, tree) ∈ root.writtenSets
    ∧ (¬∃ assignment, ∀ scope ∈ place.scopes, scope.permits assignment = true)
    ∧ field ∈ tree.fields ∧ conditions ∈ field.summary.conditions ∧ group ∈ conditions.groups := by
  have computes : (Disguises.workspace.operations.any fun operation =>
      operation.2.root.writtenSets.any fun member =>
        (member.1.scopes.any fun scope => scope.pathTests.any fun test =>
          member.1.scopes.any fun other => other.pathTests.contains test.opposite)
        && member.2.fields.any fun field => field.summary.conditions.any fun conditions =>
          !conditions.groups.isEmpty) = true := by
    rewrite [Disguises.workspace_eq, Disguises.project_eq]
    decide +kernel
  simp only [List.any_eq_true, Option.any_eq_true, Bool.and_eq_true, Bool.not_eq_true',
    List.isEmpty_eq_false_iff_exists_mem, List.contains_iff_mem] at computes
  rcases computes with ⟨⟨key, shape⟩, isBuilt, ⟨place, tree⟩, mem,
    ⟨scope, scopeMem, test, made, other, otherMem, opposed⟩, field, fieldMem, conditions,
    isConditions, group, groupMem⟩
  refine ⟨shape.root, place, tree, field, conditions, group, Or.inl ⟨key, shape, isBuilt, rfl⟩, mem,
    ?_, fieldMem, isConditions, groupMem⟩
  rintro ⟨assignment, permits⟩
  have passed := Scope.permits_iff_pathTests.mp (permits scope scopeMem) test made
  exact Scope.not_opposed_of_holds (permits other otherMem) passed opposed

/-- Each level of that set can hold, and so can its field's conditions where it stands, but not with
all levels at once. -/
theorem Workspace.Reachable.canHold_of_written_disguises : ∃ (root : RootField) (place : Place)
    (tree : SelectionTree) (group : ConditionGroup), Disguises.workspace.HasRoot root
    ∧ (place, tree) ∈ root.writtenSets
    ∧ (∀ scope ∈ place.scopes, ∃ assignment, scope.permits assignment = true)
    ∧ (∃ assignment, place.scope.permits assignment = true ∧ group.holds assignment = true)
    ∧ ¬∃ assignment, (∀ scope ∈ place.scopes, scope.permits assignment = true)
      ∧ group.holds assignment = true := by
  rcases Disguises.exists_opposed with
    ⟨root, place, tree, field, conditions, group, hasRoot, mem, opposed, fieldMem, isConditions,
      groupMem⟩
  rcases Workspace.Reachable.canHold_of_written Disguises.reachable hasRoot mem with
    ⟨levels, -, -, groups⟩
  have here := (groups field fieldMem conditions isConditions group groupMem).1
  exact ⟨root, place, tree, group, hasRoot, mem, levels, here,
    fun ⟨assignment, permits, _⟩ => opposed ⟨assignment, permits⟩⟩

/-- What is written can stand where no assignment lets all levels of the path hold. -/
theorem Workspace.exists_written_opposed : ∃ (schemaText : String) (sources : List SourceText)
    (project : Project) (workspace : Workspace) (root : RootField) (place : Place)
    (tree : SelectionTree),
    Compilation.validated? schemaText sources = some project.compilation
    ∧ Workspace.Reachable project workspace ∧ workspace.HasRoot root
    ∧ (place, tree) ∈ root.writtenSets
    ∧ ¬∃ assignment, ∀ scope ∈ place.scopes, scope.permits assignment = true := by
  rcases Disguises.exists_opposed with ⟨root, place, tree, _, _, _, hasRoot, mem, opposed, -⟩
  exact ⟨_, _, Disguises.project, Disguises.workspace, root, place, tree,
    Disguises.validated?_eq_some, Disguises.reachable, hasRoot, mem, opposed⟩

end ResponseShape
