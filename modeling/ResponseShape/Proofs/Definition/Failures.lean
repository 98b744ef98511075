import ResponseShape.Definition.Placement
import ResponseShape.Proofs.Definition.Gathering
import ResponseShape.Proofs.Scope.Failures

/-!
# What is never broken while selections are gathered and placed

Scopes are only ever narrowed by what they admit. Gathering makes branches of nothing else
(`Gathered.yields_gatherAll_admits`), and placing asks before it narrows
(`Build.blamesInput_narrowAll?`). So neither reports a broken invariant.
-/

namespace ResponseShape

namespace Gathered

/-- Whether a scope admits the key of every branch that is gathered. -/
def AreAdmitted (scope : Scope) (gathered : Gathered) : Prop :=
  ∀ branch ∈ gathered.branches, scope.admits branch.1 = true

variable {compilation : Compilation} {scope : Scope} {gathered : Gathered} {key : Narrowing}

theorem AreAdmitted.addBranch {inner : List Selection} (admitted : gathered.AreAdmitted scope)
    (admits : scope.admits key = true) : (gathered.addBranch key inner).AreAdmitted scope := by
  intro branch mem
  rcases exists_branches_of_addBranch gathered key inner with ⟨branches, result, origins⟩
  rw [result] at mem
  rcases origins branch mem with isOld | rfl | ⟨known, earlier, oldMem, -, rfl⟩
  · exact admitted branch isOld
  · exact admits
  · exact admitted (known, earlier) oldMem

theorem Refuses.isInternal_eq_false {limit : Nat} {selection : Selection} {error : BuildError}
    (refuses : Refuses compilation scope limit gathered selection error) :
    error.isInternal = false := by
  cases refuses with
  | malformed isTextError =>
      exact BuildError.isInternal_of_isInputError
        (BuildError.isInputError_of_isTextError isTextError)
  | conflict refused =>
      rcases exists_conflict_of_addField refused with ⟨_, -, -, -, rfl⟩
      rfl
  | undefined | exhausted => rfl

/-- Gathering reports no broken invariant, and every branch it makes is admitted. -/
theorem yields_gatherAll_admits {limit remaining : Nat} {selections : List Selection}
    (admitted : gathered.AreAdmitted scope) :
    Yields (fun error => error.isInternal = false) (AreAdmitted scope)
      (gatherAll compilation limit scope remaining gathered selections) := by
  refine yields_gatherAll_of_steps (fun _ => True) ?_ (fun _ _ => Refuses.isInternal_eq_false)
    (fun _ _ _ _ _ => trivial) admitted fun _ _ => trivial
  intro selection gathered next _ admitted takes
  cases takes with
  | branch _ isKey admits => exact admitted.addBranch ((Scope.admits_effective isKey).trans admits)
  | spreadBranch _ isKey _ admits =>
      exact admitted.addBranch ((Scope.admits_effective isKey).trans admits)
  | field _ _ _ added =>
      rcases exists_fields_of_addField added with ⟨fields, rfl, -⟩
      exact admitted
  | skippedField | refusedField | leftOut | spread => exact admitted

end Gathered

theorem Build.blamesInput_narrowAll? {schema : Schema} (scope : Scope)
    (narrowings : List Narrowing) : BlamesInput (narrowAll? schema scope narrowings) := by
  induction narrowings generalizing scope with
  | nil => trivial
  | cons narrowing rest ih =>
      simp only [narrowAll?]
      split
      next admits => exact (Scope.blamesInput_narrow admits).bind ih
      next => trivial

end ResponseShape
