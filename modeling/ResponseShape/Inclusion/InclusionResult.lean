import ResponseShape.Error
import ResponseShape.Inclusion.ConditionGroup

/-!
# Evaluating inclusion directives

What is known before execution about whether a selection is included: it always is, it never is, or
variables decide.
-/

namespace ResponseShape

/-- The statically known result of a conjunction of tests. -/
inductive InclusionResult where
  /-- Included exactly if the group holds. -/
  | conditional (group : ConditionGroup)
  /-- Always included or, if `false`, always skipped. -/
  | boolean (included : Bool)
deriving DecidableEq, Inhabited

namespace InclusionResult

instance : BEq InclusionResult where
  beq
    | .conditional left, .conditional right => left == right
    | .boolean left, .boolean right => left == right
    | _, _ => false

instance : Hashable InclusionResult where
  hash
    | .conditional group => mixHash 0 (hash group)
    | .boolean included => mixHash 1 (hash included)

/-- The conjunction of tests: always true of none, false of opposite ones. -/
def allOf : List VariableTest → InclusionResult
  | [] => .boolean true
  | first :: rest =>
      match rest.foldlM ConditionGroup.and? (.single first) with
      | some group => .conditional group
      | none => .boolean false

/-- Whether no execution includes the selection. -/
def isSkipped : InclusionResult → Bool
  | .boolean false => true
  | _ => false

/-- Whether every execution includes the selection. -/
def isAlwaysIncluded : InclusionResult → Bool
  | .boolean true => true
  | _ => false

/-- The group that decides, if variables do. -/
def group? : InclusionResult → Option ConditionGroup
  | .conditional group => some group
  | .boolean _ => none

/-- How a result reads in code. -/
def render : InclusionResult → String
  | .conditional group => group.render
  | .boolean included => if included then "true" else "false"

end InclusionResult

/-- The conjunction of two groups. -/
def ConditionGroup.merge (group other : ConditionGroup) : InclusionResult :=
  .allOf (group.tests ++ other.tests)

/-- Whether no variable assignment satisfies both the group and the scope, if there is one. -/
def ConditionGroup.contradicts (group : ConditionGroup) (scope : Option ConditionGroup) : Bool :=
  scope.any fun scope => (scope.merge group).isSkipped

namespace InclusionResult

/-- The conjunction of two results. -/
def merge : InclusionResult → InclusionResult → InclusionResult
  | .boolean false, _ => .boolean false
  | _, .boolean false => .boolean false
  | .boolean true, result => result
  | result, .boolean true => result
  | .conditional left, .conditional right => left.merge right

/-- Whether a directive makes its selection conditional, and if so whether its condition is the
opposite of its argument. -/
def isInverted? : Name → Option Bool
  | "include" => some false
  | "skip" => some true
  | _ => none

/-- The outcome of a list of directives, `tests` being those of the directives before it. -/
def ofDirectivesFrom (tests : List VariableTest) :
    List Directive → Except BuildError InclusionResult
  | [] => .ok (allOf tests)
  | directive :: rest =>
      match isInverted? directive.name with
      | none => ofDirectivesFrom tests rest
      | some inverted =>
          match directive.argument? "if" with
          | none => .error (.invalidConditionArgument directive.name "nothing")
          | some (.boolean value) =>
              if value == inverted then .ok (.boolean false) else ofDirectivesFrom tests rest
          | some (.var variableName) =>
              ofDirectivesFrom (tests ++ [⟨variableName, inverted⟩]) rest
          | some other => .error (.invalidConditionArgument directive.name other.render)

/-- Whether the directives of a selection include it. A directive that skips statically decides
without a look at those behind it. -/
def ofDirectives (directives : List Directive) : Except BuildError InclusionResult :=
  ofDirectivesFrom [] directives

end InclusionResult

end ResponseShape
