import ResponseShape.Proofs.Inclusion.Canonical
import ResponseShape.Proofs.Inclusion.Directives

/-!
# Decisive directives

Directives are read from left to right, until one of them skips whatever the variables stand for or
has nothing to go by. So only those up to the first that skips statically count
(`Directive.decisive`), and execution needs no others either, as that one lets nothing through
(`Directive.allLetThrough_decisive`).

What comes of directives is therefore the error of the first malformed one among these, or else the
canonical form of what execution makes of them (`InclusionResult.ofDirectives_decisive`).
-/

namespace ResponseShape

namespace Directive

/-- Whether the directive is an `@include` or a `@skip` with neither a Boolean nor a variable to go
by. -/
def isMalformed (directive : Directive) : Bool :=
  (directive.name == "include" || directive.name == "skip")
    && match directive.argument? "if" with
      | some (.boolean _) => false
      | some (.var _) => false
      | _ => true

/-- Whether the directive is `@include(if: false)` or `@skip(if: true)`. -/
def skipsStatically (directive : Directive) : Bool :=
  match directive.argument? "if" with
  | some (.boolean value) => if value then directive.name == "skip" else directive.name == "include"
  | _ => false

/-- The text of the argument `if` in errors. -/
def conditionText (directive : Directive) : String :=
  ((directive.argument? "if").map (·.render)).getD "nothing"

/-- The test that the directive makes of a variable. -/
def test? (directive : Directive) : Option VariableTest :=
  match directive.argument? "if" with
  | some (.var variableName) =>
      (InclusionResult.isInverted? directive.name).map (⟨variableName, ·⟩)
  | _ => none

/-- The directives up to and including the first that skips statically. -/
def decisive : List Directive → List Directive
  | [] => []
  | directive :: rest =>
      if directive.skipsStatically then [directive] else directive :: decisive rest

variable {directive : Directive} {assignment : Assignment}

theorem letsThrough_of_skipsStatically (skips : directive.skipsStatically = true) :
    directive.letsThrough assignment = false := by
  unfold skipsStatically at skips
  split at skips
  next value argument =>
    cases value with
    | false => simp_all [letsThrough, condition]
    | true => simp_all [letsThrough, condition]
  next => cases skips

/-- What execution selects is decided by the decisive directives. -/
theorem allLetThrough_decisive (directives : List Directive) :
    allLetThrough assignment (decisive directives) = allLetThrough assignment directives := by
  induction directives with
  | nil => rfl
  | cons directive rest ih =>
      simp only [allLetThrough] at ih
      simp only [decisive, allLetThrough]
      split
      next skips => simp [letsThrough_of_skipsStatically skips]
      next => simp [ih]

end Directive

namespace InclusionResult

variable {tests : List VariableTest} {directives : List Directive} {error : BuildError}

/-- A directive ends the reading if it is malformed or skips statically, and otherwise adds its
test, if it makes one. -/
theorem ofDirectivesFrom_cons (tests : List VariableTest) (directive : Directive)
    (rest : List Directive) :
    ofDirectivesFrom tests (directive :: rest) =
      if directive.isMalformed then
        .error (.invalidConditionArgument directive.name directive.conditionText)
      else if directive.skipsStatically then .ok (.boolean false)
      else ofDirectivesFrom (tests ++ directive.test?.toList) rest := by
  -- The cases are those of the argument: none at all, a literal, a variable, or anything else.
  rw [ofDirectivesFrom]
  split
  next foreign =>
    rcases isInverted?_eq_none_iff.mp foreign with ⟨notInclude, notSkip⟩
    have accepted : directive.isMalformed = false := by
      simp [Directive.isMalformed, notInclude, notSkip]
    have passes : directive.skipsStatically = false := by
      unfold Directive.skipsStatically
      split <;> simp [notInclude, notSkip]
    have noTest : directive.test? = none := by
      unfold Directive.test?
      split <;> simp [foreign]
    simp [accepted, passes, noTest]
  next inverted conditional =>
    have name := isInverted?_eq_some_iff.mp conditional
    split
    next missing =>
      have malformed : directive.isMalformed = true := by
        cases inverted <;> simp_all [Directive.isMalformed]
      simp [malformed, Directive.conditionText, missing]
    next value argument =>
      have accepted : directive.isMalformed = false := by simp [Directive.isMalformed, argument]
      have skips : directive.skipsStatically = (value == inverted) := by
        cases inverted <;> cases value <;> simp_all [Directive.skipsStatically]
      have noTest : directive.test? = none := by simp [Directive.test?, argument]
      simp [accepted, skips, noTest]
    next variableName argument =>
      have accepted : directive.isMalformed = false := by simp [Directive.isMalformed, argument]
      have passes : directive.skipsStatically = false := by
        simp [Directive.skipsStatically, argument]
      have test : directive.test? = some ⟨variableName, inverted⟩ := by
        simp [Directive.test?, argument, conditional]
      simp [accepted, passes, test]
    next other notBoolean notVariable argument =>
      have malformed : directive.isMalformed = true := by
        cases inverted <;> simp_all [Directive.isMalformed]
      simp [malformed, Directive.conditionText, argument]

/-- Reading fails exactly if one of the decisive directives is malformed, with the error of the
first. -/
theorem ofDirectivesFrom_eq_error_iff : ofDirectivesFrom tests directives = .error error ↔
    ∃ directive, (Directive.decisive directives).find? (·.isMalformed) = some directive
      ∧ error = .invalidConditionArgument directive.name directive.conditionText := by
  induction directives generalizing tests with
  | nil => simp [ofDirectivesFrom, Directive.decisive]
  | cons directive rest ih =>
      rw [ofDirectivesFrom_cons]
      cases malformed : directive.isMalformed with
      | true =>
          have first : (Directive.decisive (directive :: rest)).find? (·.isMalformed)
              = some directive := by
            unfold Directive.decisive
            split <;> simp [malformed]
          simp [first, eq_comm]
      | false =>
          cases skips : directive.skipsStatically with
          | true => simp [Directive.decisive, skips, malformed]
          | false => simp [Directive.decisive, skips, malformed, ih]

/-- Directives up to the first that skips statically decide whether a selection is included. The
first of them that is malformed is the error; if none is, the result includes the selection exactly
where execution lets it through, and is constant if execution is. -/
theorem ofDirectives_decisive (directives : List Directive) :
    (∀ error, ofDirectives directives = .error error ↔
      ∃ directive, (Directive.decisive directives).find? (·.isMalformed) = some directive
        ∧ error = .invalidConditionArgument directive.name directive.conditionText)
    ∧ ((Directive.decisive directives).find? (·.isMalformed) = none →
      ∃ result, ofDirectives directives = .ok result
        ∧ (∀ assignment, result.holds assignment =
          Directive.allLetThrough assignment (Directive.decisive directives))
        ∧ (result = .boolean false ↔ ∀ assignment,
          Directive.allLetThrough assignment (Directive.decisive directives) = false)
        ∧ (result = .boolean true ↔ ∀ assignment,
          Directive.allLetThrough assignment (Directive.decisive directives) = true)) := by
  refine ⟨fun _ => ofDirectivesFrom_eq_error_iff, fun accepted => ?_⟩
  cases outcome : ofDirectives directives with
  | error error =>
      rcases ofDirectivesFrom_eq_error_iff.mp outcome with ⟨directive, malformed, -⟩
      rw [accepted] at malformed
      cases malformed
  | ok result =>
      have holds (assignment : Assignment) : result.holds assignment =
          Directive.allLetThrough assignment (Directive.decisive directives) := by
        rw [holds_ofDirectives outcome, Directive.allLetThrough_decisive]
      refine ⟨result, rfl, holds, ?_, ?_⟩
      · simp only [eq_boolean_iff, holds]
      · simp only [eq_boolean_iff, holds]

/-- Behind `@include(if: false)`, a malformed `@skip` is not read; before it, it is the error. -/
example : ofDirectives [⟨"include", [⟨"if", .boolean false⟩]⟩, ⟨"skip", []⟩] = .ok (.boolean false)
    ∧ ofDirectives [⟨"skip", []⟩, ⟨"include", [⟨"if", .boolean false⟩]⟩]
      = .error (.invalidConditionArgument "skip" "nothing") := by
  exact ⟨rfl, rfl⟩

end InclusionResult

end ResponseShape
