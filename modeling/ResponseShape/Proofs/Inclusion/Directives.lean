import ResponseShape.Proofs.Inclusion.Assignment

/-!
# Directives under an assignment

Execution selects what every `@skip` and `@include` on it lets through. Evaluating the directives
before execution comes to the same, whatever the variables stand for
(`InclusionResult.holds_ofDirectives`).
-/

namespace ResponseShape

namespace InclusionResult

theorem isInverted?_eq_none_iff {name : Name} : isInverted? name = none ↔
    name ≠ "include" ∧ name ≠ "skip" := by
  unfold isInverted?
  split <;> simp_all

theorem isInverted?_eq_some_iff {name : Name} {inverted : Bool} :
    isInverted? name = some inverted ↔ name = if inverted then "skip" else "include" := by
  unfold isInverted?
  split <;> cases inverted <;> simp_all

end InclusionResult

namespace Directive

/-- The Boolean that the argument `if` stands for, false if it is none. -/
def condition (assignment : Assignment) (directive : Directive) : Bool :=
  match directive.argument? "if" with
  | some (.boolean value) => value
  | some (.var variableName) => assignment variableName
  | _ => false

/-- Whether execution, as far as this directive goes, selects what it applies to. -/
def letsThrough (assignment : Assignment) (directive : Directive) : Bool :=
  match directive.name with
  | "skip" => !directive.condition assignment
  | "include" => directive.condition assignment
  | _ => true

/-- Whether execution selects what the directives apply to. -/
def allLetThrough (assignment : Assignment) (directives : List Directive) : Bool :=
  directives.all (·.letsThrough assignment)

theorem letsThrough_of_isInverted? {assignment : Assignment} {directive : Directive}
    {inverted : Bool} (conditional : InclusionResult.isInverted? directive.name = some inverted) :
    directive.letsThrough assignment = (directive.condition assignment != inverted) := by
  have name := InclusionResult.isInverted?_eq_some_iff.mp conditional
  cases inverted <;> simp_all [letsThrough]

theorem letsThrough_of_isInverted?_eq_none {assignment : Assignment} {directive : Directive}
    (unconditional : InclusionResult.isInverted? directive.name = none) :
    directive.letsThrough assignment = true := by
  rcases InclusionResult.isInverted?_eq_none_iff.mp unconditional with ⟨notInclude, notSkip⟩
  unfold letsThrough
  split <;> simp_all

end Directive

namespace InclusionResult

variable {assignment : Assignment} {directives : List Directive} {result : InclusionResult}

theorem holds_ofDirectivesFrom {tests : List VariableTest}
    (evaluated : ofDirectivesFrom tests directives = .ok result) :
    result.holds assignment =
      (tests.all (·.holds assignment) && Directive.allLetThrough assignment directives) := by
  induction directives generalizing tests with
  | nil =>
      rcases Except.ok.inj evaluated with rfl
      simp [holds_allOf, Directive.allLetThrough]
  | cons directive rest ih =>
      simp only [Directive.allLetThrough, List.all_cons]
      simp only [Directive.allLetThrough] at ih
      unfold ofDirectivesFrom at evaluated
      split at evaluated
      next unconditional =>
        rw [ih evaluated, Directive.letsThrough_of_isInverted?_eq_none unconditional,
          Bool.true_and]
      next inverted conditional =>
        rw [Directive.letsThrough_of_isInverted? conditional, Directive.condition]
        split at evaluated
        next => cases evaluated
        next value argument =>
          simp only [argument]
          split at evaluated
          next skips =>
            rcases Except.ok.inj evaluated with rfl
            simp_all [InclusionResult.holds]
          next passes =>
            have : (value != inverted) = true := by simpa [bne] using passes
            rw [ih evaluated, this, Bool.true_and]
        next variableName argument =>
          simp only [argument]
          rw [ih evaluated]
          simp [VariableTest.holds, Bool.and_assoc]
        next => cases evaluated

/-- Directives include a selection, under any assignment, exactly if execution selects it. -/
theorem holds_ofDirectives (evaluated : ofDirectives directives = .ok result) :
    result.holds assignment = Directive.allLetThrough assignment directives := by
  rw [holds_ofDirectivesFrom evaluated, List.all_nil, Bool.true_and]

end InclusionResult

end ResponseShape
