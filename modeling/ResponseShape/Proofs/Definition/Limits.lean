import ResponseShape.Definition.Build
import ResponseShape.Proofs.Definition.Depiction
import ResponseShape.Proofs.Workspace.Runs

/-!
# The recursion limit

A lower limit only cuts builds off: a step under it does just what it does under a higher one, to
its workspace as well, or it fails with the lower limit (`Build.CutsOff`). The levels that are left
are spent by the selection sets that nest and by the inline fragments that dissolve, so the relation
goes through both recursions, and through the fragments that are built in between with levels of
their own (`Build.cutsOff_fragmentWithin`).

What is built is nested no deeper than its levels allow (`Depicts.depth_le`).
-/

namespace ResponseShape

/-- The project with another recursion limit. -/
def Project.limitedTo (project : Project) (limit : Nat) : Project :=
  { project with config := { project.config with recursionLimit := limit } }

section Limited

variable (project : Project) (limit : Nat)

@[simp]
theorem Project.compilation_limitedTo :
    (project.limitedTo limit).compilation = project.compilation := rfl

@[simp]
theorem Project.schema_limitedTo : (project.limitedTo limit).schema = project.schema := rfl

@[simp]
theorem Project.recursionLimit_limitedTo :
    (project.limitedTo limit).config.recursionLimit = limit := rfl

end Limited

namespace Build

variable {α β : Type}

/-- Whether a step does what another does, unless it exceeds a limit. -/
def CutsOff (limit : Nat) (build other : Build α) : Prop :=
  ∀ workspace, (build.runIn workspace).1 = .error (.recursionLimitExceeded limit)
    ∨ build.runIn workspace = other.runIn workspace

namespace CutsOff

variable {limit : Nat} {build other : Build α}

theorem refl (build : Build α) : CutsOff limit build build := fun _ => .inr rfl

theorem ofExcept {outcome other : Except BuildError α} (isCutOff : IsCutOff limit outcome other) :
    CutsOff limit (ofExcept outcome) (ofExcept other) := by
  intro workspace
  rw [runIn_ofExcept, runIn_ofExcept]
  exact isCutOff.imp_right fun same => by rw [same]

theorem bind {next otherNext : α → Build β} (first : CutsOff limit build other)
    (second : ∀ value, CutsOff limit (next value) (otherNext value)) :
    CutsOff limit (build >>= next) (other >>= otherNext) := by
  intro workspace
  rw [runIn_bind, runIn_bind]
  rcases ran : build.runIn workspace with ⟨error | value, between⟩
  · rcases first workspace with cut | same
    · left
      rw [ran] at cut
      exact congrArg Except.error (Except.error.inj cut)
    · right
      rw [← same, ran]
  · rcases first workspace with cut | same
    · rw [ran] at cut
      cases cut
    · rw [← same, ran]
      exact second value between

theorem mapM {step otherStep : α → Build β}
    (steps : ∀ member, CutsOff limit (step member) (otherStep member)) (members : List α) :
    CutsOff limit (members.mapM step) (members.mapM otherStep) := by
  induction members with
  | nil => exact refl _
  | cons member rest ih =>
      rw [List.mapM_cons, List.mapM_cons]
      apply bind (steps member)
      intro value
      apply bind ih
      exact fun values => refl _

end CutsOff

section Registration

variable (project : Project) (limit : Nat)

mutual

theorem occurrences_limitedTo (place : Place) : (tree : SelectionTree) →
    occurrences (project.limitedTo limit) place tree = occurrences project place tree
  | .mk fields branches spreads => by
      simp only [occurrences, occurrencesOfFields_limitedTo fields,
        occurrencesOfBranches_limitedTo branches]
      rfl

theorem occurrencesOfFields_limitedTo : (fields : List TreeField) →
    occurrencesOfFields (project.limitedTo limit) fields = occurrencesOfFields project fields
  | [] => rfl
  | .scalar _ :: rest => occurrencesOfFields_limitedTo rest
  | .entity _ place selections :: rest => by
      simp only [occurrencesOfFields, occurrences_limitedTo place selections,
        occurrencesOfFields_limitedTo rest]

theorem occurrencesOfBranches_limitedTo : (branches : List TreeBranch) →
    occurrencesOfBranches (project.limitedTo limit) branches
      = occurrencesOfBranches project branches
  | [] => rfl
  | .mk _ place selections :: rest => by
      simp only [occurrencesOfBranches, occurrences_limitedTo place selections,
        occurrencesOfBranches_limitedTo rest]

end

theorem register_limitedTo (root : RootField) :
    register (project.limitedTo limit) root = register project root := by
  simp only [register, occurrences_limitedTo]

end Registration

section Definitions

variable {project : Project} {limit more : Nat}

/-- A selection set with fewer levels left is built as with more of them, or cut off. -/
theorem cutsOff_selections {fragment other : Name → Build FragmentShape}
    (ofFragment : ∀ name, CutsOff limit (fragment name) (other name)) {levels further : Nat}
    (fewer : levels ≤ further) (path : List Name) (place : Place) (written : List Selection) :
    CutsOff limit (selections (project.limitedTo limit) fragment levels path place written)
      (selections (project.limitedTo more) other further path place written) := by
  induction levels generalizing further path place written with
  | zero => exact fun _ => .inl rfl
  | succ levels ih =>
      obtain ⟨below, rfl⟩ : ∃ below, further = below + 1 := ⟨further - 1, by omega⟩
      have fewerBelow : levels ≤ below := Nat.le_of_succ_le_succ fewer
      simp only [selections, Project.compilation_limitedTo, Project.recursionLimit_limitedTo]
      apply CutsOff.bind (.ofExcept (Gathered.isCutOff_gatherAll fewerBelow))
      intro gathered
      -- Fields and branches take a level, while the fragment behind a spread has its own.
      apply CutsOff.bind (.mapM ?fields _)
      · intro fields
        apply CutsOff.bind (.mapM ?branches _)
        · intro branches
          apply CutsOff.bind (.mapM ?spreads _)
          · exact fun spreads => .refl _
          case spreads =>
            intro name
            simp only [spread]
            apply CutsOff.bind (ofFragment name)
            exact fun shape => .refl _
        case branches =>
          rintro ⟨key, behind⟩
          simp only [branch, Project.schema_limitedTo]
          apply CutsOff.bind (.refl _)
          intro child
          apply CutsOff.bind (ih fewerBelow path child behind)
          exact fun built => .refl _
      case fields =>
        intro known
        simp only [field, Project.schema_limitedTo]
        apply CutsOff.bind (.refl _)
        intro isComposite
        split
        next =>
          apply CutsOff.bind (.refl _)
          intro entity
          apply CutsOff.bind (.refl _)
          intro child
          apply CutsOff.bind (ih fewerBelow _ child known.selections)
          exact fun built => .refl _
        next => exact .refl _

variable (ordered : limit ≤ more)

include ordered

theorem cutsOff_root {fragment other : Name → Build FragmentShape}
    (ofFragment : ∀ name, CutsOff limit (fragment name) (other name)) (definition : DefinitionId)
    (name type : Name) (written : List Selection) :
    CutsOff limit (root (project.limitedTo limit) fragment definition name type written)
      (root (project.limitedTo more) other definition name type written) := by
  simp only [root, Project.schema_limitedTo, Project.recursionLimit_limitedTo]
  apply CutsOff.bind (.refl _)
  intro entity
  apply CutsOff.bind (.refl _)
  intro scope
  apply CutsOff.bind (cutsOff_selections ofFragment ordered _ _ _)
  exact fun built => .refl _

/-- A fragment has all levels for itself, wherever it is spread. -/
theorem cutsOff_fragmentWithin (height : Nat) (name : Name) :
    CutsOff limit (fragmentWithin (project.limitedTo limit) height name)
      (fragmentWithin (project.limitedTo more) height name) := by
  induction height generalizing name with
  | zero =>
      unfold fragmentWithin
      simp only [Project.compilation_limitedTo]
      exact .refl _
  | succ height ih =>
      unfold fragmentWithin
      simp only [Project.compilation_limitedTo, fragmentDefinition, register_limitedTo]
      split
      next => exact .refl _
      next =>
        apply CutsOff.bind (.refl _)
        intro workspace
        split
        next => exact .refl _
        next =>
          refine CutsOff.bind (CutsOff.bind (cutsOff_root ordered ih _ _ _ _) ?_) ?_
          · exact fun built => .refl _
          · exact fun shape => .refl _

theorem cutsOff_fragment (name : Name) :
    CutsOff limit (fragment (project.limitedTo limit) name)
      (fragment (project.limitedTo more) name) :=
  cutsOff_fragmentWithin ordered _ name

theorem cutsOff_operationIn (index : Nat) (document : DocumentFile) (definition : Operation) :
    CutsOff limit (operationIn (project.limitedTo limit) index document definition)
      (operationIn (project.limitedTo more) index document definition) := by
  simp only [operationIn, operationDefinition, register_limitedTo]
  apply CutsOff.bind (.refl _)
  intro workspace
  split
  next => exact .refl _
  next =>
    refine CutsOff.bind (CutsOff.bind (cutsOff_root ordered (cutsOff_fragment ordered) _ _ _ _)
      ?_) ?_
    · exact fun built => .refl _
    · exact fun shape => .refl _

theorem cutsOff_operation (name : Option Name) :
    CutsOff limit (operation (project.limitedTo limit) name)
      (operation (project.limitedTo more) name) := by
  simp only [operation, Project.compilation_limitedTo]
  split
  next => exact .refl _
  next => exact cutsOff_operationIn ordered _ _ _

theorem cutsOff_all :
    CutsOff limit (all (project.limitedTo limit)) (all (project.limitedTo more)) := by
  simp only [all, Project.compilation_limitedTo]
  apply CutsOff.bind (.mapM ?_ _)
  · intro operations
    apply CutsOff.bind (.mapM ?_ _)
    · exact fun fragments => .refl _
    · exact fun member => cutsOff_fragment ordered member.2.name
  · exact fun member => .mapM (cutsOff_operationIn ordered member.2 member.1) _

end Definitions

end Build

mutual

/-- How deep the selection sets of a tree nest, the tree itself counting as one. -/
def SelectionTree.depth : SelectionTree → Nat
  | .mk fields branches _ => max (TreeField.depthOfAll fields) (TreeBranch.depthOfAll branches) + 1

/-- How deep the selection sets below fields nest. -/
def TreeField.depthOfAll : List TreeField → Nat
  | [] => 0
  | .scalar _ :: rest => TreeField.depthOfAll rest
  | .entity _ _ selections :: rest => max selections.depth (TreeField.depthOfAll rest)

/-- How deep the selection sets behind branches nest. -/
def TreeBranch.depthOfAll : List TreeBranch → Nat
  | [] => 0
  | .mk _ _ selections :: rest => max selections.depth (TreeBranch.depthOfAll rest)

end

theorem TreeField.depthOfAll_le {fields : List TreeField} {levels : Nat}
    (each : ∀ summary place selections, .entity summary place selections ∈ fields →
      selections.depth ≤ levels) : TreeField.depthOfAll fields ≤ levels := by
  induction fields with
  | nil => exact Nat.zero_le _
  | cons field rest ih =>
      have others := ih fun _ _ _ mem => each _ _ _ (List.mem_cons_of_mem _ mem)
      cases field with
      | scalar => exact others
      | entity summary place selections =>
          exact Nat.max_le.mpr ⟨each _ _ _ List.mem_cons_self, others⟩

theorem TreeBranch.depthOfAll_le {branches : List TreeBranch} {levels : Nat}
    (each : ∀ key place selections, .mk key place selections ∈ branches →
      selections.depth ≤ levels) : TreeBranch.depthOfAll branches ≤ levels := by
  induction branches with
  | nil => exact Nat.zero_le _
  | cons branch rest ih =>
      rcases branch with ⟨key, place, selections⟩
      exact Nat.max_le.mpr ⟨each _ _ _ List.mem_cons_self,
        ih fun _ _ _ mem => each _ _ _ (List.mem_cons_of_mem _ mem)⟩

theorem Depicts.depth_le {project : Project} {levels : Nat} {place : Place}
    {selections : List Selection} {tree : SelectionTree}
    (depicts : Depicts project levels place selections tree) : tree.depth ≤ levels := by
  induction levels generalizing place selections tree with
  | zero => cases depicts
  | succ levels ih =>
      rcases tree with ⟨fields, branches, spreads⟩
      rcases depicts with ⟨gathered, parts⟩
      simp only [SelectionTree.depth, Nat.add_le_add_iff_right]
      apply Nat.max_le.mpr
      constructor
      · apply TreeField.depthOfAll_le
        intro summary child inner mem
        rcases exists_mem_of_forall₂_right parts.fields mem with ⟨_, -, ofField⟩
        cases ofField with
        | entity _ _ below => exact ih below
      · apply TreeBranch.depthOfAll_le
        intro key child inner mem
        rcases parts.exists_gathered_branch mem with ⟨_, -, ofBranch⟩
        cases ofBranch with
        | kept _ behind _ => exact ih behind

end ResponseShape
