import ResponseShape.Definition.Gathered
import ResponseShape.Proofs.Scope.Equality

/-!
# Why steps fail

Most of what can fail, from looking up a type to narrowing a scope, fails only because of the input,
over the name of a type or a directive (`BlamesInput`). Only two comparisons report that fields
conflict: the one of gathering and the one of merging; all else spares conflicts
(`SparesConflicts`). That an invariant is broken, only narrowing and merging report
(`Scope.yields_narrow`), and narrowing does not if the scope admits the narrowing
(`Scope.blamesInput_narrow`).
-/

namespace ResponseShape

/-- Whether an error reports that fields conflict. -/
def BuildError.isConflict : BuildError → Bool
  | .fieldConflict .. => true
  | _ => false

/-- Whether an error reports an unknown type or a directive that cannot be read. -/
def BuildError.isTextError : BuildError → Bool
  | .unknownType _ | .invalidConditionArgument .. | .missingDeferLabel
  | .invalidDeferArgument .. => true
  | _ => false

/-- Whether an error reports a broken invariant. -/
def BuildError.isInternal : BuildError → Bool
  | .internal _ => true
  | _ => false

/-- Whether an error reports a fragment that is not defined or spreads itself. -/
def BuildError.isFragmentError : BuildError → Bool
  | .unknownFragment _ | .cyclicFragment _ => true
  | _ => false

theorem BuildError.isFragmentError_of_isTextError {error : BuildError}
    (isTextError : error.isTextError = true) : error.isFragmentError = false := by
  cases error <;> first | rfl | cases isTextError

theorem BuildError.isInputError_of_isTextError {error : BuildError}
    (isTextError : error.isTextError = true) : error.isInputError = true := by
  cases error <;> first | rfl | cases isTextError

theorem BuildError.isConflict_of_isInputError {error : BuildError}
    (isInputError : error.isInputError = true) : error.isConflict = false := by
  cases error <;> first | rfl | cases isInputError

theorem BuildError.isInternal_of_isInputError {error : BuildError}
    (isInputError : error.isInputError = true) : error.isInternal = false := by
  cases error <;> first | rfl | cases isInputError

/-- Whether an outcome is no failure but one over the name of a type or a directive. -/
abbrev BlamesInput {α : Type} (outcome : Except BuildError α) : Prop :=
  Yields (fun error => error.isTextError = true) (fun _ => True) outcome

/-- Whether an outcome is no conflict of fields. -/
abbrev SparesConflicts {α : Type} (outcome : Except BuildError α) : Prop :=
  Yields (fun error => error.isConflict = false) (fun _ => True) outcome

/-- Whether an outcome reports no broken invariant. -/
abbrev SparesInternal {α : Type} (outcome : Except BuildError α) : Prop :=
  Yields (fun error => error.isInternal = false) (fun _ => True) outcome

variable {α β : Type} {schema : Schema}

theorem BlamesInput.bind {outcome : Except BuildError α} {next : α → Except BuildError β}
    (first : BlamesInput outcome) (second : ∀ result, BlamesInput (next result)) :
    BlamesInput (outcome >>= next) :=
  Yields.bind first fun result _ => second result

theorem BlamesInput.map {outcome : Except BuildError α} {change : α → β}
    (blames : BlamesInput outcome) : BlamesInput (outcome.map change) :=
  Yields.map blames fun _ _ => trivial

theorem BlamesInput.sparesConflicts {outcome : Except BuildError α} (blames : BlamesInput outcome) :
    SparesConflicts outcome :=
  blames.mono (fun _ isTextError => BuildError.isConflict_of_isInputError
    (BuildError.isInputError_of_isTextError isTextError)) fun _ => id

theorem BlamesInput.sparesInternal {outcome : Except BuildError α} (blames : BlamesInput outcome) :
    SparesInternal outcome :=
  blames.mono (fun _ isTextError => BuildError.isInternal_of_isInputError
    (BuildError.isInputError_of_isTextError isTextError)) fun _ => id

theorem SparesConflicts.bind {outcome : Except BuildError α} {next : α → Except BuildError β}
    (first : SparesConflicts outcome) (second : ∀ result, SparesConflicts (next result)) :
    SparesConflicts (outcome >>= next) :=
  Yields.bind first fun result _ => second result

theorem SparesConflicts.map {outcome : Except BuildError α} {change : α → β}
    (spares : SparesConflicts outcome) : SparesConflicts (outcome.map change) :=
  Yields.map spares fun _ _ => trivial

namespace Schema

theorem blamesInput_get (name : Name) : BlamesInput (schema.get name) := by
  rw [get]
  split
  next => trivial
  next => rfl

theorem blamesInput_isComposite (name : Name) : BlamesInput (schema.isComposite name) :=
  (blamesInput_get name).map.map

theorem blamesInput_climb (steps : Nat) (pending found : List Name) :
    BlamesInput (schema.climb steps pending found) := by
  fun_induction climb schema steps pending found with
  | case1 => trivial
  | case2 => trivial
  | case3 _ _ _ _ _ ih => exact ih
  | case4 _ name _ _ _ error failed =>
      have blames := @blamesInput_get schema name
      rwa [failed] at blames
  | case5 _ _ _ _ _ _ _ ih => exact ih

theorem blamesInput_supertypes (name : Name) : BlamesInput (schema.supertypes name) :=
  blamesInput_climb _ _ _

theorem blamesInput_typesOverlap (left right : Name) :
    BlamesInput (schema.typesOverlap left right) :=
  (blamesInput_get left).map.bind fun _ => (blamesInput_get right).map.bind fun _ => trivial

end Schema

namespace InclusionResult

theorem blamesInput_ofDirectives (directives : List Directive) :
    BlamesInput (ofDirectives directives) := by
  have all (tests : List VariableTest) : BlamesInput (ofDirectivesFrom tests directives) := by
    fun_induction ofDirectivesFrom tests directives with
    | case1 => trivial
    | case2 _ _ _ _ ih => exact ih
    | case3 => rfl
    | case4 => trivial
    | case5 _ _ _ _ _ _ _ _ ih => exact ih
    | case6 _ _ _ _ _ _ _ ih => exact ih
    | case7 => rfl
  exact all []

end InclusionResult

namespace Narrowing

theorem blamesInput_deferOfDirectives (directives : List Directive) :
    BlamesInput (deferOfDirectives directives) := by
  simp only [deferOfDirectives]
  split
  next => trivial
  next =>
    split
    next =>
      rw [pure_bind]
      split
      next => trivial
      next => trivial
      next => trivial
      next => trivial
      next => rfl
    next => rfl
    next => rfl

theorem blamesInput_ofDirectives (typeCondition : Option Name) (directives : List Directive) :
    BlamesInput (ofDirectives typeCondition directives) := by
  simp only [ofDirectives]
  refine (InclusionResult.blamesInput_ofDirectives directives).bind fun included => ?_
  split
  next => trivial
  next => exact (blamesInput_deferOfDirectives directives).bind fun _ => trivial

end Narrowing

namespace Scope

variable {scope : Scope} {narrowing : Narrowing}

theorem blamesInput_forType (type : Name) : BlamesInput (forType schema type) :=
  (Schema.blamesInput_supertypes type).map

/-- A scope that admits a narrowing can be narrowed, unless a type is unknown. -/
theorem blamesInput_narrow (admits : scope.admits narrowing = true) :
    BlamesInput (scope.narrow schema narrowing) := by
  rw [narrow]
  split
  next => trivial
  next effective isEffective =>
    rcases exists_conditionsWith_of_admits ((admits_effective isEffective).trans admits) with
      ⟨known, isKnown⟩
    simp only [isKnown]
    split
    next type _ => exact (Schema.blamesInput_supertypes type).bind fun _ => trivial
    next => trivial

/-- Narrowing a scope fails over an unknown type, or because the scope does not admit the
narrowing. -/
theorem yields_narrow {fails : BuildError → Prop}
    (text : ∀ error, error.isTextError = true → fails error)
    (internal : ∀ details, fails (.internal details)) (narrowing : Narrowing) :
    Yields fails (fun _ => True) (scope.narrow schema narrowing) := by
  have conditions (added : Option ConditionGroup) :
      Yields fails (fun _ => True) (scope.conditionsWith added) := by
    simp only [conditionsWith]
    split
    next => trivial
    next => trivial
    next =>
      split
      next => trivial
      next => exact internal _
  rw [narrow]
  split
  next => trivial
  next =>
    split
    next type _ =>
      refine ((Schema.blamesInput_supertypes type).mono text fun _ => id).bind fun _ _ => ?_
      exact (conditions _).bind fun _ _ => trivial
    next =>
      rw [pure_bind]
      exact (conditions _).bind fun _ _ => trivial

theorem sparesConflicts_narrow (narrowing : Narrowing) :
    SparesConflicts (scope.narrow schema narrowing) :=
  yields_narrow (fun _ isTextError => BuildError.isConflict_of_isInputError
    (BuildError.isInputError_of_isTextError isTextError)) (fun _ => rfl) narrowing

end Scope

namespace Place

variable {place : Place}

theorem blamesInput_narrowed {narrowing : Narrowing}
    (admits : place.scope.admits narrowing = true) :
    BlamesInput (place.narrowed schema narrowing) :=
  (Scope.blamesInput_narrow admits).map

theorem sparesConflicts_narrowed (narrowing : Narrowing) :
    SparesConflicts (place.narrowed schema narrowing) :=
  (Scope.sparesConflicts_narrow narrowing).map

theorem blamesInput_below (entity : Entity) (type : Name) :
    BlamesInput (place.below schema entity type) :=
  (Scope.blamesInput_forType type).map

end Place

end ResponseShape
