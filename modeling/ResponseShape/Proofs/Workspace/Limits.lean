import ResponseShape.Proofs.Definition.Construction
import ResponseShape.Proofs.Definition.Limits
import ResponseShape.Proofs.Workspace.References

/-!
# Calls under a recursion limit

Without cycles of spreads, what is asked for under a lower limit is what is given under a higher
one, or the lower limit is exceeded, whatever was called before in either case. What is given is
nested no deeper than the limit, and so are the fragments that it references
(`Session.isCutOff_run`).
-/

namespace ResponseShape

namespace Build

variable {project : Project} {limit more : Nat}

theorem cutsOff_call {call : Call} (ordered : limit ≤ more) (builds : call.Builds) :
    CutsOff limit (call.run (project.limitedTo limit)) (call.run (project.limitedTo more)) := by
  cases call with
  | operation name => exact (cutsOff_operation ordered name).bind fun shape => .refl _
  | fragment name => exact (cutsOff_fragment ordered name).bind fun shape => .refl _
  | all => exact (cutsOff_all ordered).bind fun shapes => .refl _
  | view => cases builds
  | viewUnder => cases builds

/-- Definitions are built with all levels that the limit allows. -/
theorem describes_depth : Describes project fun definition _ =>
    definition.1.selections.depth ≤ project.config.recursionLimit where
  stays _ _ _ _ := id
  ofRoot fragment ofEntity ofFragment definition name type written := by
    simp only [Build.root]
    apply Ensures.bind (ofEntity _ _)
    intro entity
    apply Ensures.anywhere
    apply Ensures.bind (.ofExcept _)
    intro scope
    apply Ensures.anywhere
    have depicts := @ensures_selections project _ (fun _ _ => True) (fun _ _ => True) fragment
      (fun _ _ _ _ _ => trivial) ofEntity
      (fun name => (ofFragment name).weaken fun _ _ _ => trivial)
      project.config.recursionLimit [] ⟨entity, [], scope⟩ written
    apply Ensures.bind depicts
    intro built
    exact Ensures.pure fun _ after => after.1.depth_le

end Build

namespace Session

section Calls

variable {project : Project} {session other : Session} {call : Call}

/-- What is built is the same at the end of all histories. -/
theorem run_eq_of_builds (acyclic : project.compilation.IsAcyclic)
    (arises : session.Arises project) (otherArises : other.Arises project)
    (builds : call.Builds) :
    ((call.run project).runIn session.workspace).1
      = ((call.run project).runIn other.workspace).1 := by
  have same {α : Type} {build : Build α} (agree : Build.Agree (Workspace.answering project)
      (fun _ => True) build build fun _ _ => True) :
      (build.runIn session.workspace).1 = (build.runIn other.workspace).1 :=
    agree.same _ _ (isSettled_of_arises acyclic arises).settled
      (isSettled_of_arises acyclic otherArises).settled trivial trivial
  cases call with
  | operation name =>
      simp only [Call.run, Build.runIn_return, same (Build.agree_operation acyclic name)]
  | fragment name =>
      simp only [Call.run, Build.runIn_return, same (Build.agree_fragment acyclic name).answering]
  | all => simp only [Call.run, Build.runIn_return, same (Build.agree_all acyclic)]
  | view => cases builds
  | viewUnder => cases builds

/-- Without cycles of spreads, a lower limit only cuts off. A call that builds definitions under it
has just the outcome that it has under a higher one, or fails as the lower limit is exceeded. The
selection sets of what it gives nest no deeper than the limit, and neither do those of any fragment
that is referenced, each of which is stored by then. -/
theorem isCutOff_run {limit more : Nat} (acyclic : project.compilation.IsAcyclic)
    (ordered : limit ≤ more) (arises : session.Arises (project.limitedTo limit))
    (otherArises : other.Arises (project.limitedTo more)) (builds : call.Builds) :
    (((call.run (project.limitedTo limit)).runIn session.workspace).1
          = .error (.recursionLimitExceeded limit)
      ∨ ((call.run (project.limitedTo limit)).runIn session.workspace).1
          = ((call.run (project.limitedTo more)).runIn other.workspace).1)
    ∧ ∀ answer later,
      (call.run (project.limitedTo limit)).runIn session.workspace = (.ok answer, later) →
        ∀ definition ∈ answer.definitions, definition.1.selections.depth ≤ limit
          ∧ ∀ name ∈ definition.2.fragments, ∃ shape, later.fragment? name = some shape
            ∧ shape.root.selections.depth ≤ limit := by
  have acyclicWithin (limit : Nat) : (project.limitedTo limit).compilation.IsAcyclic := acyclic
  constructor
  · rw [run_eq_of_builds (acyclicWithin limit) arises .start builds,
      run_eq_of_builds (acyclicWithin more) otherArises .start builds]
    exact (Build.cutsOff_call ordered builds _).imp_right (congrArg Prod.fst)
  · intro answer later run definition mem
    rcases Build.describes_depth.of_run (acyclicWithin limit) arises.reachable run with
      ⟨areStored, areGiven⟩
    rcases Build.describes_closure.of_run (acyclicWithin limit) arises.reachable run with
      ⟨isLater, closures⟩
    refine ⟨areGiven definition mem, fun name isMentioned => ?_⟩
    rcases (closures definition mem).exists_shape (fun _ _ => isLater.of_fragment?) isMentioned
      with ⟨shape, found⟩
    exact ⟨shape, found, areStored.of_fragment? found⟩

end Calls

/-- A sample in which an operation and the fragment that it spreads both nest two deep. -/
def Cellar : Sample where
  schemaText :=
    "type Query \x7b hero: Hero \x7d type Hero \x7b name: String friend: Hero \x7d"
  sources :=
    [⟨"d.graphql",
      "query Q \x7b hero \x7b ...F \x7d \x7d fragment F on Hero \x7b friend \x7b name \x7d \x7d"⟩]
  isValid := by decide +kernel

/-- The operation, asked for under a limit. -/
def Cellar.run (limit : Nat) : Except BuildError Answer × Workspace :=
  ((Call.operation (some "Q")).run (Cellar.project.limitedTo limit)).runIn .empty

/-- One level is too few. With two levels, as with five, the operation is built. -/
theorem isCutOff_run_cellar :
    Cellar.project.compilation.IsAcyclic ∧ 2 ≤ 5
      ∧ start.Arises (Cellar.project.limitedTo 2) ∧ start.Arises (Cellar.project.limitedTo 5)
      ∧ (Call.operation (some "Q")).Builds
      ∧ (Cellar.run 1).1 = .error (.recursionLimitExceeded 1)
      ∧ ∃ shape later, Cellar.run 2 = (.ok (.operation shape), later)
        ∧ (Cellar.run 5).1 = .ok (.operation shape)
        ∧ shape.root.selections.depth ≤ 2
        ∧ shape.mentions.fragments = ["F"]
        ∧ ∃ inner, later.fragment? "F" = some inner ∧ inner.root.selections.depth ≤ 2 := by
  have evaluates : failure? (Cellar.run 1).1 = some (.recursionLimitExceeded 1)
      ∧ ((Build.operation (Cellar.project.limitedTo 2) (some "Q")).runIn .empty).1.toOption.any
        (fun shape => shape.mentions.fragments == ["F"]) = true := by
    rewrite [Cellar.run, Cellar.project_eq]
    decide +kernel
  rcases evaluates with ⟨fails, computes⟩
  rcases (Option.any_eq_true _ _).mp computes with ⟨shape, isShape, mentions⟩
  rw [beq_iff_eq] at mentions
  have run : Cellar.run 2 = (.ok (.operation shape),
      ((Build.operation (Cellar.project.limitedTo 2) (some "Q")).runIn .empty).2) :=
    Call.runIn_run_operation isShape
  rcases @isCutOff_run Cellar.project start start (.operation (some "Q")) 2 5 Cellar.isAcyclic
    (by decide) .start .start trivial with ⟨cutsOff, bounds⟩
  rcases bounds _ _ run _ (List.mem_singleton_self _) with ⟨depth, ofFragments⟩
  have ofFragment := ofFragments "F" (by rw [mentions]; exact List.mem_singleton_self _)
  refine ⟨Cellar.isAcyclic, by decide, .start, .start, trivial, eq_error_of_failure? fails, shape,
    _, run, ?_, depth, mentions, ofFragment⟩
  rcases cutsOff with exceeds | same
  · cases exceeds.symm.trans (congrArg Prod.fst run)
  · exact same.symm.trans (congrArg Prod.fst run)

end Session

end ResponseShape
