import ResponseShape.Proofs.Definition.References
import ResponseShape.Proofs.Workspace.Storing

/-!
# Referenced fragments of definitions

Without cycles of spreads, what a definition mentions are just the fragments that its tree leads to,
by a spread or through the trees of other fragments, each once (`Call.fragments_of_run`). One shape
is stored for each of them, which is what every spread of it stands for, and what asking for it
gives from then on.
-/

namespace ResponseShape

section Closures

variable {project : Project}

namespace Build

open Workspace

/-- Definitions that are built with stored fragments mention all that they reference. -/
theorem describes_closure : Describes project fun definition workspace =>
    IsClosure workspace.fragment? definition.1.selections definition.2.fragments where
  stays _ _ _ grows closure := closure.mono fun _ _ => fragment?_of_prefix grows
  ofRoot fragment ofEntity ofFragment definition name type written := by
    have stable (first second : Workspace) (gains : Gains (fun _ => True) first second)
        (name : Name) (shape : FragmentShape) :
        first.fragment? name = some shape → second.fragment? name = some shape :=
      fragment?_of_prefix gains.fragments
    simp only [Build.root]
    apply Ensures.bind (ofEntity _ _)
    intro entity
    apply Ensures.anywhere
    apply Ensures.bind (.ofExcept _)
    intro scope
    apply Ensures.anywhere
    apply Ensures.bind
      ((composes_covering stable).ensures_selections ofEntity ofFragment _ _ _ _).withValid
    intro built
    apply Ensures.pure
    rintro workspace ⟨isDescribed, covers⟩
    exact .of_covers (fun _ _ => isDescribed.of_fragment?) covers

end Build

/-- Without cycles of spreads, a definition that is built mentions just the fragments that its tree
references, each once: those that it spreads, and those that their trees reference in turn. Each of
them has one shape. Whatever is called later, no other is stored, and asking for the fragment gives
it. -/
theorem Call.fragments_of_run {workspace later : Workspace} {call : Call} {answer : Answer}
    {definition : RootField × Mentions} (acyclic : project.compilation.IsAcyclic)
    (reachable : workspace.Reachable project)
    (run : (call.run project).runIn workspace = (.ok answer, later))
    (mem : definition ∈ answer.definitions) :
    definition.2.fragments.Nodup
    ∧ (∀ name, name ∈ definition.2.fragments
      ↔ definition.1.selections.References later.fragment? name)
    ∧ ∀ name ∈ definition.2.fragments, ∃ shape, ∀ last, later.LeadsTo project last →
      last.fragment? name = some shape
        ∧ last.fragments.filter (·.name == name) = [shape]
        ∧ (Build.fragment project name).runIn last = (.ok shape, last) := by
  have sound := Workspace.isSound_of_reachable (reachable.call call)
  rw [run] at sound
  rcases Build.describes_closure.of_run acyclic reachable run with ⟨isLater, closures⟩
  have closure := closures definition mem
  have ofShapes (name : Name) (shape : FragmentShape) (found : later.fragment? name = some shape) :
      IsClosure later.fragment? shape.root.selections shape.mentions.fragments :=
    isLater.of_fragment? found
  refine ⟨closure.covers.nodup, fun name => closure.mem_iff ofShapes, ?_⟩
  intro name isMentioned
  rcases closure.exists_shape ofShapes isMentioned with ⟨shape, found⟩
  refine ⟨shape, fun last leads => ?_⟩
  rcases (Build.describes_closure.delivers acyclic).grows_of_leadsTo isLater leads with
    ⟨isLast, gains⟩
  have stays : last.fragment? name = some shape :=
    Workspace.fragment?_of_prefix gains.fragments found
  refine ⟨stays, isLast.filter_eq_of_fragment? stays, ?_⟩
  rcases sound.isBuilt_of_fragment? found with
    ⟨_, _, -, rfl, document, fragment, isDefined, -⟩
  exact Build.runIn_fragmentWithin_of_stored isDefined stays

end Closures

/-- A sample in which an operation spreads a fragment that spreads another one, and leaves out a
third. -/
def Kinship : Sample where
  schemaText :=
    "type Query \x7b hero: Hero \x7d type Hero \x7b name: String friend: Hero \x7d"
  sources :=
    [⟨"d.graphql",
      "query Q \x7b hero \x7b ...F ... @include(if: false) \x7b ...H \x7d \x7d \x7d "
        ++ "fragment F on Hero \x7b friend \x7b ...G \x7d \x7d "
        ++ "fragment G on Hero \x7b name \x7d fragment H on Hero \x7b name \x7d"⟩]
  isValid := by decide +kernel

/-- The operation references the two fragments that are not left out. -/
theorem Call.fragments_of_run_kinship : ∃ shape later,
    Kinship.project.compilation.IsAcyclic ∧ Workspace.Reachable Kinship.project .empty
      ∧ ((Call.operation (some "Q")).run Kinship.project).runIn .empty
        = (.ok (.operation shape), later)
      ∧ shape.mentions.fragments = ["F", "G"]
      ∧ (∀ name, name ∈ ["F", "G"]
        ↔ shape.root.selections.References later.fragment? name)
      ∧ ∀ name ∈ ["F", "G"], ∃ inner, ∀ last, later.LeadsTo Kinship.project last →
        last.fragment? name = some inner
          ∧ last.fragments.filter (·.name == name) = [inner]
          ∧ (Build.fragment Kinship.project name).runIn last = (.ok inner, last) := by
  have computes : ((Build.operation Kinship.project (some "Q")).runIn .empty).1.toOption.any
      (fun shape => shape.mentions.fragments == ["F", "G"]) = true := by
    rewrite [Kinship.project_eq]
    decide +kernel
  rcases (Option.any_eq_true _ _).mp computes with ⟨shape, isShape, same⟩
  have run := Call.runIn_run_operation isShape
  have references := Call.fragments_of_run Kinship.isAcyclic .empty run (List.mem_singleton_self _)
  rw [beq_iff_eq.mp same] at references
  exact ⟨shape, _, Kinship.isAcyclic, .empty, run, beq_iff_eq.mp same, references.2⟩

end ResponseShape
