import ResponseShape.Definition.Build
import ResponseShape.Proofs.Definition.Spreading
import ResponseShape.Proofs.Workspace.Abiding

/-!
# The steps of a build

A build allocates entities, registers occurrences and stores definitions; all else that it does
leaves the workspace alone. So a law that allocating and registering abide by, the whole of a
definition's build abides by, storing apart (`Build.abides_root`, `Build.abides_register`). With it
goes what the build can fail with, as far as that is no matter of the places it comes to.
-/

namespace ResponseShape.Build

/-- Whether allocating entities and registering occurrences abide by a law, and errors of some kind
include those over the texts of types and directives, broken invariants and exceeding the limit. -/
structure Upholds (project : Project) (law : Law) (fails : BuildError → Prop) : Prop where
  entityAt : ∀ location typePath, Abides law fails (entityAt location typePath) fun _ => True
  registerAll : ∀ (workspace : Workspace) found, law.valid workspace →
    law.valid { workspace with entities := workspace.entities.registerAll found }
      ∧ law.grows workspace { workspace with entities := workspace.entities.registerAll found }
  text : ∀ error, error.isTextError = true → fails error
  internal : ∀ details, fails (.internal details)
  limit : fails (.recursionLimitExceeded project.config.recursionLimit)

variable {project : Project} {law : Law} {fails : BuildError → Prop}

namespace Upholds

variable (upholds : Upholds project law fails)

include upholds

theorem yields_text {α : Type} {outcome : Except BuildError α} (blames : BlamesInput outcome) :
    Yields fails (fun _ => True) outcome :=
  blames.mono upholds.text fun _ => id

theorem yields_narrowed (place : Place) (narrowing : Narrowing) :
    Yields fails (fun _ => True) (place.narrowed project.schema narrowing) :=
  (Scope.yields_narrow upholds.text upholds.internal narrowing).map fun _ => id

end Upholds

theorem abides_placeSpread (upholds : Upholds project law fails) (spread : Spread) :
    Abides law fails (placeSpread project spread) fun _ => True := by
  simp only [placeSpread]
  split
  next => exact .pure trivial
  next =>
    refine Abides.bind (.ofExcept (Scope.yields_narrow upholds.text upholds.internal _))
      fun _ _ => Abides.bind .get fun workspace _ => ?_
    refine Abides.bind (.forEach fun occurrence _ => ?_) fun _ _ => .pure trivial
    simp only [placeOccurrence]
    refine Abides.bind (.ofExcept (upholds.yields_text (blamesInput_narrowAll? _ _)))
      fun outcome _ => ?_
    split
    next => exact .pure trivial
    next => exact Abides.bind (upholds.entityAt _ _) fun _ _ => .pure trivial

mutual

theorem abides_occurrences (upholds : Upholds project law fails) (place : Place) :
    (tree : SelectionTree) →
    Abides law fails (occurrences project place tree) fun _ => True
  | .mk fields branches spreads => by
      simp only [occurrences]
      refine (abides_occurrencesOfFields upholds fields).bind fun _ _ => ?_
      refine (abides_occurrencesOfBranches upholds branches).bind fun _ _ => ?_
      exact Abides.bind (.forEach fun spread _ => abides_placeSpread upholds spread) fun _ _ =>
        .pure trivial

theorem abides_occurrencesOfFields (upholds : Upholds project law fails) :
    (fields : List TreeField) →
    Abides law fails (occurrencesOfFields project fields) fun _ => True
  | [] => .pure trivial
  | .scalar _ :: rest => abides_occurrencesOfFields upholds rest
  | .entity _ place selections :: rest =>
      (abides_occurrences upholds place selections).bind fun _ _ =>
        (abides_occurrencesOfFields upholds rest).bind fun _ _ => .pure trivial

theorem abides_occurrencesOfBranches (upholds : Upholds project law fails) :
    (branches : List TreeBranch) →
    Abides law fails (occurrencesOfBranches project branches) fun _ => True
  | [] => .pure trivial
  | .mk _ place selections :: rest =>
      (abides_occurrences upholds place selections).bind fun _ _ =>
        (abides_occurrencesOfBranches upholds rest).bind fun _ _ => .pure trivial

end

theorem abides_register (upholds : Upholds project law fails) (root : RootField) :
    Abides law fails (register project root) fun _ => True := by
  simp only [register]
  refine (abides_occurrences upholds root.place root.selections).bind fun found _ => ?_
  exact Abides.bind (.modify fun workspace => upholds.registerAll workspace found) fun _ _ =>
    .pure trivial

section Definitions

variable {fragment : Name → Build FragmentShape} {known : Name → Prop}
  (upholds : Upholds project law fails)
  (gathers : ∀ scope levels written, (∀ name ∈ Selection.spreadsOfAll written, known name) →
    Yields fails (fun _ => True) (Gathered.gatherAll project.compilation
      project.config.recursionLimit scope levels .empty written))
  (ofFragment : ∀ name, known name → Abides law fails (fragment name) fun _ => True)

include upholds gathers ofFragment

theorem abides_selections (levels : Nat) (path : List Name) (place : Place)
    (written : List Selection) (areKnown : ∀ name ∈ Selection.spreadsOfAll written, known name) :
    Abides law fails (selections project fragment levels path place written) fun _ => True := by
  induction levels generalizing path place written with
  | zero => exact .throw upholds.limit
  | succ levels ih =>
      simp only [selections]
      refine Abides.bind (.ofExcept (gathers place.scope levels written areKnown).remember)
        fun gathered run => ?_
      have among := Gathered.spreads_of_gatherAll run
      refine Abides.bind (.forEach fun selected mem => ?_) fun _ _ => ?_
      · simp only [field]
        refine Abides.bind (.ofExcept (upholds.yields_text (Schema.blamesInput_isComposite _)))
          fun _ _ => ?_
        split
        next =>
          refine (upholds.entityAt _ _).bind fun _ _ => ?_
          refine Abides.bind (.ofExcept (upholds.yields_text (Place.blamesInput_below _ _)))
            fun child _ => ?_
          refine (ih _ child selected.selections fun name isSpread => ?_).bind fun _ _ =>
            .pure trivial
          exact areKnown name (among.fields selected mem name isSpread)
        next => exact .pure trivial
      refine Abides.bind (.forEach fun behind mem => ?_) fun _ _ => ?_
      · simp only [branch]
        refine Abides.bind (.ofExcept (upholds.yields_narrowed _ _)) fun child _ => ?_
        refine (ih _ child behind.2 fun name isSpread => ?_).bind fun _ _ => ?_
        · exact areKnown name (among.branches behind mem name isSpread)
        · split <;> exact .pure trivial
      refine Abides.bind (.forEach fun name mem => ?_) fun _ _ => .pure trivial
      simp only [spread]
      exact (ofFragment name (areKnown name (among.spreads name mem))).bind fun _ _ =>
        .pure trivial

theorem abides_root (definition : DefinitionId) (name type : Name) {written : List Selection}
    (areKnown : ∀ name ∈ Selection.spreadsOfAll written, known name) :
    Abides law fails (root project fragment definition name type written) fun _ => True := by
  simp only [root]
  refine (upholds.entityAt _ _).bind fun _ _ => ?_
  refine Abides.bind (.ofExcept (upholds.yields_text (Scope.blamesInput_forType _)))
    fun _ _ => ?_
  exact (abides_selections upholds gathers ofFragment _ _ _ written areKnown).bind fun _ _ =>
    .pure trivial

end Definitions

end ResponseShape.Build
