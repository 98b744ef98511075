import ResponseShape.Proofs.Definition.Failures
import ResponseShape.Proofs.Walk.Differing
import ResponseShape.Proofs.Workspace.Histories
import ResponseShape.Proofs.Workspace.Steps

/-!
# Conflicts while building

What a definition is built from stands at the places that it is built at, from the selections at its
root down to those on each field and behind each branch. So the fields of a conflict that a build
reports stand somewhere in the definitions (`Build.failsOnly_selections`), and if these are valid,
the fields differ only in what validation does not look at
(`Build.exists_differAt_of_isConflict`). There are such fields: the order of arguments is enough
(`Build.exists_isConflict`).
-/

namespace ResponseShape

/-- The law that entities are found at their locations. -/
def Workspace.locating : Build.Law where
  valid workspace := workspace.entities.IsSound
  grows _ _ := True
  refl _ := trivial
  trans _ _ := trivial

namespace Build

/-- Whether a step, taken where entities are found at their locations, fails only with errors of one
kind, and gives only results of another. -/
abbrev FailsOnly {α : Type} (fails : BuildError → Prop) (build : Build α)
    (succeeds : α → Prop) : Prop :=
  Abides Workspace.locating fails build succeeds

theorem failsOnly_entityAt {fails : BuildError → Prop} (location : Location)
    (typePath : List Name) :
    FailsOnly fails (entityAt location typePath) fun entity => entity.location = location := by
  intro workspace sound
  have interned : (workspace.entities.intern location typePath).1.location = location
      ∧ (workspace.entities.intern location typePath).2.IsSound := sound.intern
  exact ⟨interned.2, trivial, interned.1⟩

end Build

/-- Whether an error, if it is a conflict of fields, is one of fields that stand at some place of a
definition. -/
def BuildError.ReportsMeeting (project : Project) (error : BuildError) : Prop :=
  error.isConflict = true →
    ∃ definition root place, project.compilation.Defines definition root
      ∧ error.ReportsAt project root place

theorem BuildError.reportsMeeting_of_spares {project : Project} {error : BuildError}
    (spares : error.isConflict = false) : error.ReportsMeeting project := by
  intro isConflict
  rw [spares] at isConflict
  cases isConflict

section Building

variable {project : Project} {root : TypedSelections} {place : Place} {path : List Name}
  {fragment : Name → Build FragmentShape}

theorem SparesConflicts.reportsMeeting {α : Type} {outcome : Except BuildError α}
    (spares : SparesConflicts outcome) : Yields (BuildError.ReportsMeeting project)
      (fun result => outcome = .ok result) outcome :=
  (spares.mono (fun _ => BuildError.reportsMeeting_of_spares) fun _ _ => trivial).remember

namespace Build

section Parts

variable (reachable : Scope.Reachable project.schema place.scope)
  {nested : Nested} {gathered : Gathered} (stands : gathered.StandsAt project root place)
  (ofNested : ∀ path child written, Scope.Reachable project.schema child.scope →
    (∀ selection ∈ written, selection.StandsAt project root child) →
      FailsOnly (BuildError.ReportsMeeting project) (nested path child written) fun _ => True)

include stands ofNested

theorem failsOnly_field {known : GatheredField} (mem : known ∈ gathered.fields) :
    FailsOnly (BuildError.ReportsMeeting project) (field project nested path place known)
      fun _ => True := by
  simp only [field]
  refine Abides.bind
    (.ofExcept (Schema.blamesInput_isComposite _).sparesConflicts.reportsMeeting) fun _ _ => ?_
  split
  next =>
    refine Abides.bind (failsOnly_entityAt _ _) fun entity isLocated => ?_
    refine Abides.bind
      (.ofExcept (Place.blamesInput_below _ _).sparesConflicts.reportsMeeting)
      fun child isBelow => ?_
    have isChild : place.IsChild project.schema known.field.type.innerName child
        ∧ child.entity = entity := by
      simp only [Place.below, Except.map] at isBelow
      split at isBelow
      next => cases isBelow
      next scope isScope =>
        rcases Except.ok.inj isBelow with rfl
        exact ⟨⟨rfl, isScope⟩, rfl⟩
    have location : child.entity.location
        = place.entity.location.child known.responseKey known.field.type.innerName := by
      rw [isChild.2, isLocated]
      rfl
    refine Abides.bind (ofNested _ child known.selections (.forType isChild.1.scope) ?_)
      fun _ _ => .pure trivial
    exact stands.below_child mem isChild.1 location
  next => exact .pure trivial

include reachable

theorem failsOnly_branch {behind : Narrowing × List Selection} (mem : behind ∈ gathered.branches) :
    FailsOnly (BuildError.ReportsMeeting project) (branch project nested path place behind)
      fun _ => True := by
  simp only [branch]
  refine Abides.bind
    (.ofExcept (Place.sparesConflicts_narrowed _).reportsMeeting) fun child narrowed => ?_
  refine Abides.bind (ofNested _ child behind.2
    (.narrow reachable (Place.narrowed_eq_ok narrowed).1)
    (stands.branches behind mem child narrowed)) fun _ _ => ?_
  split <;> exact .pure trivial

end Parts

section Definitions

variable (lawful : project.schema.IsLawful)
  (ofFragment : ∀ name, FailsOnly (BuildError.ReportsMeeting project) (fragment name)
    fun _ => True)

include lawful ofFragment

/-- Building a selection set from selections that stand at its place reports conflicts only of
fields that stand somewhere. -/
theorem failsOnly_selections {definition : DefinitionId}
    (defines : project.compilation.Defines definition root) (levels : Nat) (path : List Name)
    (place : Place) (written : List Selection)
    (reachable : Scope.Reachable project.schema place.scope)
    (stand : ∀ selection ∈ written, selection.StandsAt project root place) :
    FailsOnly (BuildError.ReportsMeeting project)
      (selections project fragment levels path place written) fun _ => True := by
  induction levels generalizing path place written with
  | zero => exact .throw (BuildError.reportsMeeting_of_spares rfl)
  | succ levels ih =>
      simp only [selections]
      refine Abides.bind (.ofExcept ((Gathered.yields_gatherAll lawful reachable
        Gathered.standsAt_empty stand).mono ?_ fun _ stands => stands)) fun gathered stands => ?_
      · exact fun error reports isConflict => ⟨definition, root, place, defines, reports⟩
      refine Abides.bind (.forEach fun known mem => failsOnly_field stands ih mem) fun _ _ => ?_
      refine Abides.bind (.forEach fun behind mem => failsOnly_branch reachable stands ih mem)
        fun _ _ => ?_
      refine Abides.bind (.forEach fun name _ => ?_) fun _ _ => .pure trivial
      simp only [spread]
      exact (ofFragment name).bind fun _ _ => .pure trivial

/-- So does building a definition from its own selections. -/
theorem failsOnly_root {definition : DefinitionId} {type : Name} {written : List Selection}
    (defines : project.compilation.Defines definition (type, written)) (name : Name) :
    FailsOnly (BuildError.ReportsMeeting project)
      (Build.root project fragment definition name type written) fun _ => True := by
  simp only [Build.root]
  refine Abides.bind (failsOnly_entityAt _ _) fun entity isLocated => ?_
  refine Abides.bind
    (.ofExcept (Scope.blamesInput_forType _).sparesConflicts.reportsMeeting) fun scope isScope => ?_
  refine (failsOnly_selections lawful ofFragment defines _ _ _ _ (.forType isScope) ?_).bind
    fun _ _ => .pure trivial
  exact fun selection mem => .of_mem_root isLocated isScope mem

end Definitions

theorem failsOnly_register (root : RootField) :
    FailsOnly (BuildError.ReportsMeeting project) (register project root) fun _ => True := by
  refine abides_register ⟨fun location typePath => ?_, fun workspace found sound => ?_, ?_, ?_, ?_⟩
    root
  · exact (failsOnly_entityAt location typePath).weaken fun _ _ => trivial
  · exact ⟨sound.registerAll found, trivial⟩
  · exact fun error isTextError => BuildError.reportsMeeting_of_spares
      (BuildError.isConflict_of_isInputError (BuildError.isInputError_of_isTextError isTextError))
  · exact fun _ => BuildError.reportsMeeting_of_spares rfl
  · exact BuildError.reportsMeeting_of_spares rfl

section Calls

variable (lawful : project.schema.IsLawful)

include lawful

theorem failsOnly_fragment (name : Name) :
    FailsOnly (BuildError.ReportsMeeting project) (Build.fragment project name) fun _ => True := by
  have within (height : Nat) (name : Name) : FailsOnly (BuildError.ReportsMeeting project)
      (fragmentWithin project height name) fun _ => True := by
    induction height generalizing name with
    | zero =>
        unfold fragmentWithin
        split
        next => exact .throw (BuildError.reportsMeeting_of_spares rfl)
        next =>
          refine Abides.bind .get fun workspace _ => ?_
          split
          next => exact .pure trivial
          next => exact .throw (BuildError.reportsMeeting_of_spares rfl)
    | succ height ih =>
        unfold fragmentWithin
        split
        next => exact .throw (BuildError.reportsMeeting_of_spares rfl)
        next document definition found =>
          refine Abides.bind .get fun workspace _ => ?_
          split
          next => exact .pure trivial
          next =>
            have isFragment := Compilation.spreadFragment?_of_fragment? found
            rw [← Compilation.name_of_fragment? found] at isFragment
            have builds : FailsOnly (BuildError.ReportsMeeting project)
                (fragmentDefinition project (fragmentWithin project height) document definition)
                  fun _ => True :=
              (failsOnly_root lawful ih (.fragment isFragment) _).bind fun _ _ =>
                (failsOnly_register _).bind fun _ _ => .pure trivial
            refine builds.bind fun shape _ => ?_
            exact Abides.bind (.modify fun workspace sound => ⟨sound, trivial⟩) fun _ _ =>
              .pure trivial
  exact within _ name

theorem failsOnly_operationIn {index : Nat} {document : DocumentFile} {operation : Operation}
    (isDocument : project.compilation.documents[index]? = some document)
    (isOperation : operation ∈ document.document.operations) :
    FailsOnly (BuildError.ReportsMeeting project) (operationIn project index document operation)
      fun _ => True := by
  simp only [operationIn]
  refine Abides.bind .get fun workspace _ => ?_
  split
  next => exact .pure trivial
  next =>
    have builds : FailsOnly (BuildError.ReportsMeeting project)
        (operationDefinition project index document operation) fun _ => True :=
      (failsOnly_root lawful (failsOnly_fragment lawful) (.operation isDocument isOperation) _).bind
        fun _ _ => (failsOnly_register _).bind fun _ _ => .pure trivial
    refine builds.bind fun shape _ => ?_
    exact Abides.bind (.modify fun workspace sound => ⟨sound, trivial⟩) fun _ _ =>
      .pure trivial

theorem failsOnly_operation (name : Option Name) :
    FailsOnly (BuildError.ReportsMeeting project) (operation project name) fun _ => True := by
  simp only [operation]
  split
  next => exact .throw (BuildError.reportsMeeting_of_spares rfl)
  next index document definition rest candidates =>
    have mem : (index, document, definition) ∈ (index, document, definition) :: rest :=
      List.mem_cons_self
    rw [← candidates] at mem
    simp only [List.mem_filterMap, Option.map_eq_some_iff, Prod.mk.injEq, Prod.exists] at mem
    rcases mem with ⟨file, position, isFile, found, isFound, rfl, rfl, rfl⟩
    exact failsOnly_operationIn lawful (List.mem_zipIdx_iff_getElem?.mp isFile)
      (List.mem_of_find?_eq_some isFound)

theorem failsOnly_all :
    FailsOnly (BuildError.ReportsMeeting project) (all project) fun _ => True := by
  simp only [all]
  refine Abides.bind (.forEach ?_) fun _ _ => ?_
  · rintro ⟨document, index⟩ isDocument
    exact .forEach fun operation isOperation =>
      failsOnly_operationIn lawful (List.mem_zipIdx_iff_getElem?.mp isDocument) isOperation
  · exact Abides.bind (.forEach fun member _ => failsOnly_fragment lawful _) fun _ _ =>
      .pure trivial

end Calls

end Build

end Building

namespace Build

/-- No call that builds definitions reports other conflicts than those of fields that stand
somewhere. -/
theorem failsOnly_call {project : Project} {call : Call} (lawful : project.schema.IsLawful)
    (builds : call.Builds) :
    FailsOnly (BuildError.ReportsMeeting project) (call.run project) fun _ => True := by
  cases call with
  | operation name => exact (failsOnly_operation lawful name).bind fun _ _ => .pure trivial
  | fragment name => exact (failsOnly_fragment lawful name).bind fun _ _ => .pure trivial
  | all => exact (failsOnly_all lawful).bind fun _ _ => .pure trivial
  | view => cases builds
  | viewUnder => cases builds

/-- Where a single valid document is built, in whatever workspace, a conflict of fields is reported
only for fields that stand at one place, under one response key, and that validation lets share it:
if any object can be there, the fields have one name, and differ in how their alias or their
arguments are written, or in the composite types they return. -/
theorem exists_differAt_of_isConflict {project : Project} {workspace : Workspace}
    {schemaText : String} {source : SourceText} {call : Call} {error : BuildError}
    (valid : Compilation.validated? schemaText [source] = some project.compilation)
    (reachable : workspace.Reachable project) (builds : call.Builds)
    (fails : ((call.run project).runIn workspace).1 = .error error)
    (isConflict : error.isConflict = true) :
    ∃ place first second, SelectedField.DifferAt project place first second
      ∧ error = FieldSummary.conflict place.type first.summary second.summary
      ∧ (place.IsInhabited project.schema → first.field.name = second.field.name
        ∧ (first.field.aliasName ≠ second.field.aliasName
          ∨ first.field.arguments ≠ second.field.arguments
          ∨ first.field.type.innerName ≠ second.field.type.innerName
            ∧ project.schema.isCompositeName first.field.type.innerName = true
            ∧ project.schema.isCompositeName second.field.type.innerName = true)) := by
  have lawful := Schema.isLawful_of_validated? (Compilation.validated?_schema valid)
  have yields := (failsOnly_call lawful builds workspace
    (Workspace.isSound_of_reachable reachable).entities).2.2
  rw [fails] at yields
  rcases yields isConflict with ⟨_, _, place, defines, reports⟩
  rcases reports isConflict with ⟨around, first, others, second, conflicts, isError⟩
  have differ := conflicts.differAt valid defines
  exact ⟨place, first, second, differ, isError, differ.cases⟩

/-- A sample that selects a field twice, with the same arguments in another order. -/
def Reordered : Sample where
  schemaText :=
    "type Query \x7b hero: Hero \x7d type Hero \x7b name(a: Boolean, b: Boolean): String \x7d"
  sources :=
    [⟨"d.graphql",
      "query Q \x7b hero \x7b name(a: true, b: false) name(b: false, a: true) \x7d \x7d"⟩]
  isValid := by decide +kernel

namespace Reordered

/-- What building its operation fails with. -/
def error : BuildError :=
  .fieldConflict "name" "Hero" "name(a: true, b: false): String" "name(b: false, a: true): String"

theorem run_operation :
    ((operation Reordered.project (some "Q")).runIn .empty).1 = .error error := by
  apply eq_error_of_failure?
  rewrite [Reordered.project_eq]
  decide +kernel

end Reordered

/-- What is in conflict there are two fields that validation lets share their key. -/
theorem exists_differAt_reordered : ∃ place first second,
    SelectedField.DifferAt Reordered.project place first second
      ∧ Reordered.error = FieldSummary.conflict place.type first.summary second.summary := by
  have fails : (((Call.operation (some "Q")).run Reordered.project).runIn .empty).1
      = .error Reordered.error := by
    rw [Call.run, runIn_return, Reordered.run_operation]
    rfl
  have builds : (Call.operation (some "Q")).Builds := trivial
  rcases exists_differAt_of_isConflict Reordered.validated?_eq_some .empty builds fails rfl with
    ⟨place, first, second, differ, isError, -⟩
  exact ⟨place, first, second, differ, isError⟩

/-- Building a valid document can fail with a conflict. -/
theorem exists_isConflict : ∃ (schemaText : String) (source : SourceText) (project : Project)
    (error : BuildError),
    Compilation.validated? schemaText [source] = some project.compilation
      ∧ ((operation project (some "Q")).runIn .empty).1 = .error error
      ∧ error.isConflict = true :=
  ⟨_, _, Reordered.project, Reordered.error, Reordered.validated?_eq_some,
    Reordered.run_operation, rfl⟩

end Build

end ResponseShape
