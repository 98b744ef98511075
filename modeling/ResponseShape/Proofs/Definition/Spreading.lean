import ResponseShape.Proofs.Definition.Failures
import ResponseShape.Proofs.Definition.Inlining

/-!
# What is spread where selections are gathered

Whatever is gathered spreads no more than was written (`Gathered.spreads_of_gatherAll`). So building
asks for no other fragments, and misses none if those that are written are defined
(`Gathered.yields_gatherAll_defined`).
-/

namespace ResponseShape

namespace Gathered

/-- Whether all that is gathered spreads fragments of the given names only. -/
structure SpreadsAmong (names : List Name) (gathered : Gathered) : Prop where
  fields : ∀ field ∈ gathered.fields, ∀ name ∈ Selection.spreadsOfAll field.selections, name ∈ names
  branches : ∀ branch ∈ gathered.branches, ∀ name ∈ Selection.spreadsOfAll branch.2, name ∈ names
  spreads : ∀ name ∈ gathered.spreads, name ∈ names

variable {compilation : Compilation} {scope : Scope} {gathered result : Gathered}
  {selections : List Selection}

/-- What is gathered from selections spreads what they spread. -/
theorem spreads_of_gatherAll {limit remaining : Nat}
    (run : gatherAll compilation limit scope remaining .empty selections = .ok result) :
    result.SpreadsAmong (Selection.spreadsOfAll selections) := by
  have ofAll {inner : List Selection} {property : Name → Prop}
      (all : ∀ selection ∈ inner, ∀ name ∈ selection.spreads, property name) :
      ∀ name ∈ Selection.spreadsOfAll inner, property name := by
    rw [Selection.spreadsOfAll_eq_flatMap, List.forall_mem_flatMap]
    exact all
  have taken : result.IsTakenFrom compilation scope fun selection =>
      ∀ name ∈ selection.spreads, name ∈ Selection.spreadsOfAll selections := by
    refine isTakenFrom_gatherAll ?_ ?_ ?_ run
    · exact fun _ _ ofField selection mem name isSpread =>
        ofField name (Selection.mem_spreadsOfAll mem isSpread)
    · exact fun _ _ _ ofInner selection mem name isSpread =>
        ofInner name (Selection.mem_spreadsOfAll mem isSpread)
    · exact fun selection mem name isSpread => Selection.mem_spreadsOfAll mem isSpread
  constructor
  · exact fun field mem => ofAll (taken.fields field mem)
  · exact fun branch mem => ofAll (taken.branches branch mem)
  · intro name mem
    rcases taken.spreads name mem with ⟨_, _, isSpread, -⟩
    exact isSpread name (List.mem_singleton_self _)

section Failures

variable {limit remaining : Nat}

theorem Refuses.isFragmentError_eq_false {selection : Selection} {error : BuildError}
    (areDefined : ∀ name ∈ selection.spreads, (compilation.fragment? name).isSome = true)
    (refuses : Refuses compilation scope limit gathered selection error) :
    error.isFragmentError = false := by
  cases refuses with
  | malformed isTextError => exact BuildError.isFragmentError_of_isTextError isTextError
  | undefined notFound =>
      have isDefined := areDefined _ (List.mem_singleton_self _)
      rw [notFound] at isDefined
      cases isDefined
  | conflict refused =>
      rcases exists_conflict_of_addField refused with ⟨_, -, -, -, rfl⟩
      rfl
  | exhausted => rfl

/-- Gathering misses no fragment if all that are spread are defined. -/
theorem yields_gatherAll_defined (areDefined : ∀ name ∈ Selection.spreadsOfAll selections,
      (compilation.fragment? name).isSome = true) :
    Yields (fun error => error.isFragmentError = false) (fun _ => True)
      (gatherAll compilation limit scope remaining gathered selections) := by
  refine yields_gatherAll_of_steps
    (fun selection => ∀ name ∈ selection.spreads, (compilation.fragment? name).isSome = true)
    (fun _ _ _ => trivial) (fun defined _ => Refuses.isFragmentError_eq_false defined) ?_
    trivial fun selection mem name isSpread =>
      areDefined name (Selection.mem_spreadsOfAll mem isSpread)
  exact fun defined _ _ selection mem name isSpread =>
    defined name (Selection.mem_spreadsOfAll mem isSpread)

end Failures

end Gathered

end ResponseShape
