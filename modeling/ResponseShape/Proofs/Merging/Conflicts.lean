import ResponseShape.Proofs.Merging.Narrower
import ResponseShape.Proofs.Walk.Differing
import ResponseShape.Proofs.Walk.Occurring

/-!
# Conflicts while merging

Merging takes together what stands at one place: the fields of a set, and those of the occurrences
around it, which stand at the set's place because the set is within theirs
(`SelectedField.StandsAt.of_isWithin`). So the fields of a conflict that merging reports both stand
there, below the selections of one definition (`SelectionSet.IsPlacedIn.yields_visible`).
In a valid document they can differ only where validation lets them
(`SelectionSet.Offered.exists_differAt_of_visible`), but then they may well differ: an interface
and an object type that implements it can give a field different types
(`SelectionSet.exists_isConflict`).
-/

namespace ResponseShape

section Fields

variable {project : Project} {typed : TypedSelections} {place other : Place}

/-- A field stands wherever a place is within the one that it stands at. -/
theorem SelectedField.StandsAt.of_isWithin {around : List SelectedField} {selected : SelectedField}
    (lawful : project.schema.IsLawful)
    (reachable : ∀ scope ∈ place.scopes, Scope.Reachable project.schema scope)
    (within : place.IsWithin other) (stands : selected.StandsAt project typed other around) :
    selected.StandsAt project typed place around where
  lies :=
    { keys := by rw [← within.location, stands.lies.keys]
      types := fun assignment way object isAt => stands.lies.types assignment way object
        (isAt.of_isWithin lawful reachable within.location (Place.isWithin_iff.mp within).2) }
  below := stands.below

theorem Field.StandsAt.of_isWithin {field : Field} (lawful : project.schema.IsLawful)
    (reachable : ∀ scope ∈ place.scopes, Scope.Reachable project.schema scope)
    (within : place.IsWithin other) (stands : field.StandsAt project typed other) :
    field.StandsAt project typed place := by
  rcases stands with ⟨around, selected, selectedStands, isField⟩
  exact ⟨around, selected, selectedStands.of_isWithin lawful reachable within, isField⟩

/-- The conditions of a field do not matter for where it stands. -/
theorem Field.StandsAt.of_summary {field shown : Field} {conditions : Option Alternatives}
    (stands : field.StandsAt project typed place)
    (same : shown.summary = { field.summary with conditions }) :
    shown.StandsAt project typed place := by
  rcases stands with ⟨around, selected, selectedStands, isField⟩
  refine ⟨around, selected, selectedStands, ?_⟩
  rw [same, isField]
  rfl

end Fields

/-- Whether all fields that were added stand at a place. -/
def Additions.StandAt (project : Project) (typed : TypedSelections) (place : Place)
    (additions : Additions) : Prop :=
  ∀ field ∈ additions.fields, field.StandsAt project typed place

namespace MergeTarget

variable {project : Project} {typed : TypedSelections} {target : MergeTarget}
  {additions : Additions} {field existing : Field} {tree : SelectionTree}

/-- Fields that stand at a place under one key are the same, or are in conflict there. -/
theorem yields_ensureSame (existingStands : existing.StandsAt project typed target.place)
    (stands : field.StandsAt project typed target.place)
    (sameKey : existing.responseKey = field.responseKey) :
    Yields (BuildError.ReportsAt project typed target.place) (fun _ => True)
      (target.ensureSame existing field) := by
  rcases existingStands with ⟨around, first, firstStands, isFirst⟩
  rcases stands with ⟨others, second, secondStands, isSecond⟩
  simp only [ensureSame]
  split
  next => trivial
  next differ =>
    rw [Field.responseKey, Field.responseKey, isFirst, isSecond] at sameKey
    rw [isFirst, isSecond] at differ ⊢
    exact fun _ => ⟨around, first, others, second,
      ⟨firstStands, secondStands, sameKey, Bool.eq_false_iff.mpr differ⟩, rfl⟩

theorem sparesConflicts_adopted (conditions : Option Alternatives) :
    SparesConflicts (target.adopted field conditions) := by
  simp only [adopted]
  split
  next => trivial
  next =>
    split
    next => rfl
    next => exact (Place.blamesInput_below _ _).sparesConflicts.bind fun _ => trivial

theorem standAt_widen {direct : Field} {incoming : Option Alternatives}
    (stand : additions.StandAt project typed target.place) :
    (widen additions direct incoming).1.StandAt project typed target.place := by
  simp only [widen]
  split
  next => exact stand
  next => split <;> exact stand

theorem standAt_unite {incoming : Option Alternatives}
    (stand : additions.StandAt project typed target.place) (mem : existing ∈ additions.fields) :
    (unite additions existing incoming).StandAt project typed target.place :=
  forall_mem_updateOrAppend stand (stand existing mem) fun _ stands => stands.of_summary rfl

variable (directStands : ∀ tree, target.direct = some tree → ∀ field ∈ tree.fields,
  field.StandsAt project typed target.place)

include directStands

/-- A field that stands at the place joins those that do, or is in conflict with one of them. -/
theorem yields_mergeField (stand : additions.StandAt project typed target.place)
    (stands : field.StandsAt project typed target.place) :
    Yields (BuildError.ReportsAt project typed target.place)
      (fun merged => merged.1.StandAt project typed target.place)
      (target.mergeField additions field) := by
  simp only [mergeField]
  split
  next => exact stand
  next =>
    split
    next direct isDirect =>
      rcases Option.bind_eq_some_iff.mp isDirect with ⟨tree, isTree, found⟩
      have isKey : direct.responseKey = field.responseKey := by simpa using List.find?_some found
      have directIsAt := directStands tree isTree direct (List.mem_of_find?_eq_some found)
      refine (yields_ensureSame directIsAt stands isKey).bind fun _ _ => ?_
      exact standAt_widen stand
    next =>
      split
      next existing isAdded =>
        have isKey : existing.responseKey = field.responseKey := by
          simpa using List.find?_some isAdded
        have mem := List.mem_of_find?_eq_some isAdded
        refine (yields_ensureSame (stand existing mem) stands isKey).bind fun _ _ => ?_
        exact standAt_unite stand mem
      next =>
        refine (sparesConflicts_adopted _).reportsAt.bind fun fresh isFresh => ?_
        intro shown shownMem
        rcases List.mem_append.mp shownMem with isOld | isNew
        · exact stand shown isOld
        · rw [List.mem_singleton.mp isNew]
          exact stands.of_summary (adopts_of_adopted isFresh).1.summary

/-- So do all fields of an occurrence. -/
theorem yields_mergeSelections (stand : additions.StandAt project typed target.place)
    (treeStands : ∀ field ∈ tree.fields, field.StandsAt project typed target.place) :
    Yields (BuildError.ReportsAt project typed target.place)
      (fun merged => merged.1.StandAt project typed target.place)
      (target.mergeSelections additions tree) := by
  refine yields_mergeSelections_of_steps stand
    (fun _ before field mem => yields_mergeField directStands before (treeStands field mem))
    fun _ before spread _ => ?_
  simp only [mergeSpread]
  split <;> exact before

omit directStands in
theorem yields_mergeBranch {key : Narrowing}
    (stand : additions.StandAt project typed target.place) :
    Yields (BuildError.ReportsAt project typed target.place)
      (fun merged => merged.1.StandAt project typed target.place)
      (target.mergeBranch additions key) := by
  simp only [mergeBranch]
  split
  next => exact stand
  next =>
    exact (Place.sparesConflicts_narrowed _).reportsAt.bind fun _ _ => stand

/-- What was seen at the place is merged, or some of it is in conflict there. -/
theorem yields_mergeSighting {contributors : List Contributor} {sighting : Sighting}
    (stand : additions.StandAt project typed target.place)
    (sightingStands : ∀ tree, sighting.selections? = some tree → ∀ field ∈ tree.fields,
      field.StandsAt project typed target.place) :
    Yields (BuildError.ReportsAt project typed target.place)
      (fun merged => merged.1.StandAt project typed target.place)
      (target.mergeSighting (additions, contributors) sighting) := by
  simp only [mergeSighting]
  split
  next isSelections =>
    have treeStands := sightingStands sighting.occurrence.selections (by
      rw [Sighting.selections?, isSelections])
    exact (yields_mergeSelections directStands stand treeStands).bind fun _ stand => stand
  next => exact (yields_mergeBranch stand).bind fun _ stand => stand

end MergeTarget

/-- What is built in a workspace is what some definition selects. -/
theorem Workspace.IsSound.exists_defines {project : Project} {workspace : Workspace}
    {root : RootField} (sound : workspace.IsSound project) (hasRoot : workspace.HasRoot root) :
    ∃ definition typed occurrences, project.compilation.Defines definition typed
      ∧ workspace.HasBuilt project definition typed.1 typed.2 root occurrences := by
  rcases hasRoot with ⟨key, shape, mem, rfl⟩ | ⟨shape, mem, rfl⟩
  · rcases sound.operations key shape mem with
      ⟨document, operation, occurrences, isDocument, isOperation, sameName, built, registers⟩
    rw [← sameName] at built registers
    exact ⟨_, (operation.rootType, operation.selections), occurrences,
      .operation isDocument isOperation, .of_registers built registers⟩
  · rcases sound.hasBuilt_of_fragment mem with ⟨fragment, isFragment, hasBuilt⟩
    exact ⟨_, (fragment.typeCondition, fragment.selections), _, .fragment isFragment, hasBuilt⟩

namespace SelectionSet

variable {project : Project} {workspace : Workspace} {typed : TypedSelections} {set : SelectionSet}
  {strategy : MergingStrategy}

/-- What is visible at a set's place is in conflict only where fields are that stand there, if what
is direct stands there, and all occurrences of the entity have fields that stand where they are. -/
theorem yields_visible (lawful : project.schema.IsLawful)
    (reachable : ∀ scope ∈ set.place.scopes, Scope.Reachable project.schema scope)
    (directStands : ∀ tree, set.direct = some tree → ∀ field ∈ tree.fields,
      field.StandsAt project typed set.place)
    (occurrencesStand : ∀ occurrence ∈ workspace.entities.occurrences set.place.entity.location,
      occurrence.place.entity.location = set.place.entity.location
        ∧ ∀ field ∈ occurrence.selections.fields, field.StandsAt project typed occurrence.place) :
    Yields (BuildError.ReportsAt project typed set.place) (fun _ => True)
      (set.visible project.schema workspace.entities strategy) := by
  refine (yields_visible_of_steps (fun merged => merged.1.StandAt project typed set.place) ?_
    (by simp [Additions.StandAt, Additions.empty])
    fun merged stand sighting isRegistered sees => ?_).mono (fun _ => id) fun _ _ => trivial
  · exact fun _ blames =>
      BuildError.reportsAt_of_spares (BuildError.isConflict_of_isInputError blames)
  · refine MergeTarget.yields_mergeSighting directStands stand ?_
    intro tree isTree field fieldMem
    rcases (Sighting.of_view? sees).1 tree isTree with ⟨rfl, within⟩
    rcases occurrencesStand sighting.occurrence isRegistered with ⟨location, fieldsStand⟩
    exact (fieldsStand field fieldMem).of_isWithin lawful reachable
      ⟨location, (Place.view?_eq_some sees).2.2, within⟩

/-- What is offered, a definition offers. -/
theorem Offered.exists_root (offered : set.Offered project) : ∃ definition typed root,
    project.compilation.Defines definition typed
      ∧ RootField.IsDepiction project definition typed.1 typed.2 root
      ∧ set.OfferedBy project root := by
  induction offered with
  | operation reachable isBuilt mem =>
      rcases (Workspace.isSound_of_reachable reachable).exists_defines
        (Or.inl ⟨_, _, isBuilt, rfl⟩) with ⟨_, _, _, defines, hasBuilt⟩
      exact ⟨_, _, _, defines, hasBuilt.built.depiction, .written mem⟩
  | fragment reachable isBuilt mem =>
      rcases (Workspace.isSound_of_reachable reachable).exists_defines
        (Or.inr ⟨_, isBuilt, rfl⟩) with ⟨_, _, _, defines, hasBuilt⟩
      exact ⟨_, _, _, defines, hasBuilt.built.depiction, .written mem⟩
  | field _ reachable run mem isInner offeredBy =>
      rcases offeredBy with ⟨definition, typed, root, defines, depiction, offeredBy⟩
      exact ⟨definition, typed, root, defines, depiction, offeredBy.field reachable run mem isInner⟩
  | branch _ reachable run mem offeredBy =>
      rcases offeredBy with ⟨definition, typed, root, defines, depiction, offeredBy⟩
      exact ⟨definition, typed, root, defines, depiction, offeredBy.branch reachable run mem⟩

end SelectionSet

/-- What is registered for an entity of a definition has fields that stand where it occurs. -/
theorem Workspace.IsSound.standsAt_of_registered {project : Project} {workspace : Workspace}
    {schemaText : String} {sources : List SourceText} {location : Location}
    {typed : TypedSelections} {occurrence : Occurrence}
    (valid : Compilation.validated? schemaText sources = some project.compilation)
    (sound : workspace.IsSound project)
    (defines : project.compilation.Defines location.definition typed)
    (mem : occurrence ∈ workspace.entities.occurrences location) :
    ∀ field ∈ occurrence.selections.fields, field.StandsAt project typed occurrence.place := by
  have lawful := Schema.isLawful_of_validated? (Compilation.validated?_schema valid)
  rcases location with ⟨definition, steps⟩
  cases defines with
  | @operation index document operation isDocument isOperation =>
      cases isBuilt : workspace.operation? ⟨index, operation.name⟩ with
      | none =>
          rw [sound.unbuilt _ _ _ _ isBuilt] at mem
          cases mem
      | some shape =>
          rcases List.lookup_eq_some_iff.mp isBuilt with ⟨before, after, split, -⟩
          have isStored : (⟨index, operation.name⟩, shape) ∈ workspace.operations := by
            simp [split]
          rcases sound.exists_built valid isDocument isOperation isStored with
            ⟨occurrences, built, registers⟩
          rw [registers _ rfl] at mem
          exact sound.standsAt lawful built (List.mem_filter.mp mem).1
  | fragment isFragment =>
      rcases sound.attempts _ _ _ mem with
        ⟨other, root, occurrences, isOther, built, -, occurrenceMem⟩
      rcases Option.some.inj (isFragment.symm.trans isOther) with rfl
      exact sound.standsAt lawful built occurrenceMem

namespace SelectionSet

/-- Where something is computed for a single valid document, in whatever workspace and under
whatever strategy, a conflict of fields is reported only for fields that stand at the set's place,
under one response key, and that validation lets share it. If they have the same name, alias and
arguments, then they return different composite types. -/
theorem Offered.exists_differAt_of_visible {project : Project} {workspace : Workspace}
    {schemaText : String} {source : SourceText} {set : SelectionSet} {strategy : MergingStrategy}
    {error : BuildError}
    (valid : Compilation.validated? schemaText [source] = some project.compilation)
    (reachable : workspace.Reachable project) (offered : set.Offered project)
    (fails : set.visible project.schema workspace.entities strategy = .error error)
    (isConflict : error.isConflict = true) :
    ∃ first second, SelectedField.DifferAt project set.place first second
      ∧ error = FieldSummary.conflict set.place.type first.summary second.summary
      ∧ (first.field.name = second.field.name → first.field.aliasName = second.field.aliasName →
        first.field.arguments = second.field.arguments →
          first.field.type.innerName ≠ second.field.type.innerName
            ∧ project.schema.isCompositeName first.field.type.innerName = true
            ∧ project.schema.isCompositeName second.field.type.innerName = true) := by
  have lawful := Schema.isLawful_of_validated? (Compilation.validated?_schema valid)
  have sound := Workspace.isSound_of_reachable reachable
  rcases offered.exists_root with ⟨definition, typed, root, defines, depiction, offeredBy⟩
  have placed := offeredBy.isPlacedIn depiction
  have isDefined : set.place.entity.location.definition = definition := by
    rw [placed.definition, depiction.location]
    rfl
  have yields : Yields (BuildError.ReportsAt project typed set.place) (fun _ => True)
      (set.visible project.schema workspace.entities strategy) := by
    refine yields_visible lawful placed.reachable ?_ ?_
    · intro tree isTree
      rcases depiction.forall_standsAt lawful _ (placed.written tree isTree) with
        ⟨levels, written, depicts, scopeReachable, -, stand⟩
      exact (depicts.standsAt lawful scopeReachable stand).1
    · intro occurrence isRegistered
      exact ⟨(sound.registered _ _ isRegistered).2,
        sound.standsAt_of_registered valid (isDefined ▸ defines) isRegistered⟩
  rw [fails] at yields
  rcases yields isConflict with ⟨around, first, others, second, conflicts, isError⟩
  have differ := conflicts.differAt valid defines
  exact ⟨first, second, differ, isError, differ.innerName⟩

end SelectionSet

/-- A sample in which an interface declares a field of one type, and an object that implements it
gives it a narrower one. The operation selects the field on both. -/
def Owners : Sample where
  schemaText :=
    "type Query \x7b pet: Pet \x7d interface Being \x7b name: String \x7d "
      ++ "type Person implements Being \x7b name: String \x7d "
      ++ "interface Pet \x7b owner: Being \x7d type Dog implements Pet \x7b owner: Person \x7d"
  sources :=
    [⟨"d.graphql",
      "query Q \x7b pet \x7b owner \x7b name \x7d "
        ++ "... on Dog \x7b owner \x7b name \x7d \x7d \x7d \x7d"⟩]
  isValid := by decide +kernel

/-- Behind the branch on dogs, the owner that is selected there is in conflict with the one that is
selected on all pets. -/
theorem Owners.exists_fails : ∃ set : SelectionSet, set.Offered Owners.project
    ∧ ∃ own ∈ set.directFields, ∃ source ∈ set.sources Owners.workspace.entities .all,
      ∃ incoming ∈ source.selections.fields, own.summary.name = incoming.summary.name
        ∧ own.summary.aliasName = incoming.summary.aliasName
        ∧ own.summary.arguments = incoming.summary.arguments
        ∧ set.visible Owners.project.schema Owners.workspace.entities .all
          = .error (FieldSummary.conflict set.place.type own.summary incoming.summary) := by
  have computes : (Owners.workspace.operations.any fun operation =>
      operation.2.root.writtenSets.any fun member =>
        (SelectionSet.mk member.1 (some member.2)).directFields.any fun own =>
          ((SelectionSet.mk member.1 (some member.2)).sources Owners.workspace.entities .all).any
            fun source => source.selections.fields.any fun incoming =>
              own.summary.name == incoming.summary.name
                && own.summary.aliasName == incoming.summary.aliasName
                && own.summary.arguments == incoming.summary.arguments
                && failure? ((SelectionSet.mk member.1 (some member.2)).visible
                  Owners.project.schema Owners.workspace.entities .all) == some
                    (FieldSummary.conflict member.1.type own.summary incoming.summary)) = true := by
    rewrite [Owners.workspace_eq, Owners.project_eq]
    decide +kernel
  simp only [List.any_eq_true, Bool.and_eq_true, beq_iff_eq] at computes
  rcases computes with ⟨⟨key, shape⟩, isBuilt, member, mem, own, ownMem, source, isSource, incoming,
    incomingMem, ⟨⟨sameName, sameAlias⟩, sameArguments⟩, isFailure⟩
  exact ⟨_, .operation Owners.reachable isBuilt mem, own, ownMem, source, isSource, incoming,
    incomingMem, sameName, sameAlias, sameArguments, eq_error_of_failure? isFailure⟩

namespace SelectionSet

/-- Merging what a valid document selects can fail with a conflict of fields that have the same
name, alias and arguments. -/
theorem exists_isConflict_sameArguments : ∃ (schemaText : String) (source : SourceText)
    (project : Project) (workspace : Workspace) (set : SelectionSet) (own incoming : Field),
    Compilation.validated? schemaText [source] = some project.compilation
      ∧ workspace.Reachable project ∧ set.Offered project
      ∧ own.summary.name = incoming.summary.name
      ∧ own.summary.aliasName = incoming.summary.aliasName
      ∧ own.summary.arguments = incoming.summary.arguments
      ∧ set.visible project.schema workspace.entities .all
        = .error (FieldSummary.conflict set.place.type own.summary incoming.summary) := by
  rcases Owners.exists_fails with
    ⟨set, offered, own, -, source, -, incoming, -, sameName, sameAlias, sameArguments, fails⟩
  exact ⟨_, _, Owners.project, Owners.workspace, set, own, incoming, Owners.validated?_eq_some,
    Owners.reachable, offered, sameName, sameAlias, sameArguments, fails⟩

/-- What is in conflict there are two fields that validation lets share their key. -/
theorem exists_differAt_owners : ∃ (set : SelectionSet) (first second : SelectedField),
    set.Offered Owners.project ∧ SelectedField.DifferAt Owners.project set.place first second := by
  rcases Owners.exists_fails with ⟨set, offered, _, -, _, -, _, -, -, -, -, fails⟩
  rcases offered.exists_differAt_of_visible Owners.validated?_eq_some Owners.reachable fails rfl
    with ⟨first, second, differ, -, -⟩
  exact ⟨set, first, second, offered, differ⟩

end SelectionSet

end ResponseShape
