import ResponseShape.Proofs.Definition.ReferencedTypes
import ResponseShape.Proofs.Merging.NamedTypes
import ResponseShape.Proofs.Workspace.Integrity
import ResponseShape.Proofs.Workspace.Roots

/-!
# Referenced types cover what sessions name

A compilation collects the types that its definitions refer to, each definition on its own. Shapes
name types by scopes that go across definitions: spreads place in one definition what occurs in
another, and merging adds fields and branches that are not written where they are seen. All the
same, whatever a session names in what is built and in what is visible is collected
(`Session.mem_referencedTypes`).

What is registered for the entities of a definition was found by building it, from selections that
were gone through and from the fragments that were built before
(`Workspace.IsSound.collects_of_hasRoot`). Merging adds nothing to that, and the log leads every set
that is asked for back to a definition.
-/

namespace ResponseShape

section Definitions

variable {project : Project} {workspace : Workspace} {shape? : Name → Option FragmentShape}
  {definition : DefinitionId} {type : Name} {selections : List Selection} {root : RootField}
  {occurrences : List Occurrence}

theorem RootField.IsDepiction.namedTypes_subset
    (depiction : root.IsDepiction project definition type selections)
    (collects : project.compilation.Collects type selections) :
    root.selections.namedTypes root.place ⊆ project.compilation.referencedTypes := by
  rcases depiction.depicts with ⟨levels, depicts⟩
  refine depicts.namedTypes_subset ?_ collects.selections
  rw [Place.namedTypes_subset, Place.scopes, depiction.enclosing, List.nil_append,
    List.forall_mem_singleton]
  exact Scope.namedTypes_subset_of_forType depiction.scope collects.type

theorem RootField.IsDepiction.namedTypes_subset_of_written
    (depiction : root.IsDepiction project definition type selections)
    (collects : project.compilation.Collects type selections) {member : Place × SelectionTree}
    (mem : member ∈ root.writtenSets) :
    member.2.namedTypes member.1 ⊆ project.compilation.referencedTypes := by
  have ofRoot := SelectionTree.namedTypes_subset.mp (depiction.namedTypes_subset collects)
  rcases depiction.depicts with ⟨levels, depicts⟩
  exact SelectionTree.namedTypes_subset.mpr fun below belowMem =>
    ofRoot below (depicts.subset_writtenSets mem below belowMem)

/-- All types named in what occurs in a definition are collected, if those named in the fragments
built before it are. -/
theorem RootField.IsBuilt.namedTypes_subset
    (built : root.IsBuilt project shape? definition type selections occurrences)
    (collects : project.compilation.Collects type selections)
    (fragments : ∀ name shape, shape? name = some shape → ∀ inside ∈ shape.occurrences,
      inside.namedTypes ⊆ project.compilation.referencedTypes) :
    ∀ occurrence ∈ occurrences,
      occurrence.namedTypes ⊆ project.compilation.referencedTypes := by
  intro occurrence mem
  rcases built.occurs.origin occurrence mem with
    ⟨member, memberMem, rfl | ⟨spread, spreadMem, shape, fragment, isShape, isFragment, inside,
      insideMem, placement⟩⟩
  · exact built.depiction.namedTypes_subset_of_written collects memberMem
  · have ofSite := SelectionTree.place_namedTypes_subset
      (built.depiction.namedTypes_subset_of_written collects memberMem)
    have ofInside := fragments _ shape isShape inside insideMem
    rcases placement.place with ⟨scope, spreadInto, isPlace⟩
    rw [built.depiction.place_of_spread memberMem spreadMem] at spreadInto isPlace
    rw [Occurrence.namedTypes, placement.selections]
    refine SelectionTree.namedTypes_subset_of_moved ofInside ?_
    rw [isPlace]
    exact Build.namedTypes_subset_placeAt spreadInto ofSite
      (Compilation.collects_of_fragment isFragment).type
      (SelectionTree.place_namedTypes_subset ofInside)

namespace Workspace.IsSound

variable (sound : workspace.IsSound project)

include sound

/-- All types named in what occurs in a built definition are collected. -/
theorem namedTypes_subset_of_built
    (built : root.IsBuilt project workspace.fragment? definition type selections occurrences)
    (collects : project.compilation.Collects type selections) :
    ∀ occurrence ∈ occurrences,
      occurrence.namedTypes ⊆ project.compilation.referencedTypes := by
  refine sound.of_isBuilt (motive := fun _ type selections occurrences =>
    project.compilation.Collects type selections → ∀ occurrence ∈ occurrences,
      occurrence.namedTypes ⊆ project.compilation.referencedTypes) ?_ built collects
  intro shape? definition type selections root occurrences fragments built collects
  refine built.namedTypes_subset collects fun name shape isShape => ?_
  rcases fragments name shape isShape with ⟨-, -, fragment, isFragment, -, ofShape⟩
  exact ofShape (Compilation.collects_of_fragment isFragment)

/-- What is built for a definition depicts selections that a compilation has gone through, and all
types are collected that are named in what is registered for its entities. -/
theorem collects_of_hasRoot (hasRoot : workspace.HasRoot root) :
    (∃ definition type selections, root.IsDepiction project definition type selections
        ∧ project.compilation.Collects type selections)
      ∧ ∀ location, location.definition = root.definition →
        ∀ occurrence ∈ workspace.entities.occurrences location,
          occurrence.namedTypes ⊆ project.compilation.referencedTypes := by
  rcases hasRoot with ⟨key, shape, mem, rfl⟩ | ⟨shape, mem, rfl⟩
  · rcases sound.operations key shape mem with
      ⟨document, operation, occurrences, isDocument, isOperation, -, built, registers⟩
    have listed : (document, operation) ∈ project.compilation.operations :=
      List.mem_flatMap.mpr ⟨document, List.mem_of_getElem? isDocument,
        List.mem_map_of_mem isOperation⟩
    have collects := Compilation.collects_of_operation listed
    refine ⟨⟨_, _, _, built.depiction, collects⟩, fun location isHere occurrence mem => ?_⟩
    rw [built.depiction.definition_eq] at isHere
    rw [registers location isHere] at mem
    exact sound.namedTypes_subset_of_built built collects occurrence (List.mem_filter.mp mem).1
  · rcases sound.hasBuilt_of_fragment mem with ⟨fragment, isFragment, hasBuilt⟩
    have depiction := hasBuilt.built.depiction
    refine ⟨⟨_, _, _, depiction, Compilation.collects_of_fragment isFragment⟩, ?_⟩
    rintro ⟨_, steps⟩ rfl occurrence isRegistered
    -- a failed attempt at the fragment may have left occurrences, too
    rw [depiction.definition_eq] at isRegistered
    rcases sound.attempts shape.name steps occurrence isRegistered with
      ⟨other, _, _, isOther, built, -, otherMem⟩
    exact sound.namedTypes_subset_of_built built (Compilation.collects_of_fragment isOther)
      occurrence otherMem

theorem namedTypes_subset_of_written (hasRoot : workspace.HasRoot root)
    {member : Place × SelectionTree} (mem : member ∈ root.writtenSets) :
    member.2.namedTypes member.1 ⊆ project.compilation.referencedTypes := by
  rcases (sound.collects_of_hasRoot hasRoot).1 with ⟨_, _, _, depiction, collects⟩
  exact depiction.namedTypes_subset_of_written collects mem

end Workspace.IsSound

theorem Workspace.Reachable.namedTypes_subset (reachable : workspace.Reachable project)
    (hasRoot : workspace.HasRoot root) :
    root.namedTypes ⊆ project.compilation.referencedTypes := by
  have ofTree := (isSound_of_reachable reachable).namedTypes_subset_of_written hasRoot
    (SelectionTree.self_mem_writtenSets _ _)
  refine List.cons_subset.mpr ⟨?_, ofTree⟩
  rw [reachable.forall_roots Build.allRoots_type_eq root hasRoot]
  exact SelectionTree.place_namedTypes_subset ofTree
    (List.mem_flatMap.mpr ⟨_, root.place.scope_mem_scopes, List.mem_cons_self⟩)

end Definitions

namespace Session

/-- The types that a session names: in what is built, in what is registered for the entities of what
is built, and in what is visible. -/
inductive Names (session : Session) (type : Name) : Prop where
  | built {root : RootField} (hasRoot : session.workspace.HasRoot root)
      (named : type ∈ root.namedTypes) : Names session type
  | registered {root : RootField} {location : Location} {occurrence : Occurrence}
      (hasRoot : session.workspace.HasRoot root) (isHere : location.definition = root.definition)
      (isRegistered : occurrence ∈ session.workspace.entities.occurrences location)
      (named : type ∈ occurrence.namedTypes) : Names session type
  | visible {visible : VisibleSelections} (given : visible ∈ session.views)
      (named : type ∈ visible.namedTypes) : Names session type

section Calls

variable {project : Project} {session : Session} {log : List Request} {set : SelectionSet}
  {visible : VisibleSelections} {type : Name}

/-- Whether all types named in the sets that were asked for are collected. -/
def AreCollected (project : Project) (log : List Request) : Prop :=
  ∀ request ∈ log, request.set.namedTypes ⊆ project.compilation.referencedTypes

namespace IsLogged

variable (isLogged : session.IsLogged project log) (areCollected : AreCollected project log)

include isLogged areCollected

theorem namedTypes_subset_of_visible (given : visible ∈ session.views) :
    visible.namedTypes ⊆ project.compilation.referencedTypes := by
  rcases isLogged.views visible given with ⟨request, mem, computed⟩
  rcases isLogged.requests request mem with ⟨aligned, -, root, offers, placed⟩
  rcases aligned.sound.collects_of_hasRoot offers.hasRoot with
    ⟨⟨_, _, _, depiction, -⟩, registered⟩
  have orderly := (placed.written.isDepiction depiction).isOrderly
  exact VisibleSelections.namedTypes_subset_of_visible orderly computed (areCollected request mem)
    (registered _ placed.definition)

theorem namedTypes_subset_of_holds (holds : session.Holds set) :
    set.namedTypes ⊆ project.compilation.referencedTypes := by
  cases holds with
  | written offers mem =>
      exact isLogged.aligned.sound.namedTypes_subset_of_written offers.hasRoot mem
  | field given mem isInner =>
      have ofVisible := isLogged.namedTypes_subset_of_visible areCollected given
      exact Field.namedTypes_subset_of_selectionSet isInner
        ((VisibleSelections.namedTypes_subset.mp ofVisible).2.1 _ mem)
  | branch given mem =>
      have ofVisible := isLogged.namedTypes_subset_of_visible areCollected given
      exact (VisibleSelections.namedTypes_subset.mp ofVisible).2.2.1 _ mem

end IsLogged

theorem Logs.areCollected (logs : Logs project log session) : AreCollected project log := by
  induction logs with
  | start => exact List.forall_mem_nil _
  | call logs allows ih =>
      refine List.forall_mem_append.mpr ⟨ih, fun request mem => ?_⟩
      rw [Option.mem_toList] at mem
      exact logs.isLogged.namedTypes_subset_of_holds ih ((of_request mem).2.1 allows)

/-- Whatever types a session names, the compilation collects. -/
theorem mem_referencedTypes (arises : session.Arises project) (names : session.Names type) :
    type ∈ project.compilation.referencedTypes := by
  rcases arises.exists_logs with ⟨log, logs⟩
  have isLogged := logs.isLogged
  cases names with
  | built hasRoot named => exact arises.reachable.namedTypes_subset hasRoot named
  | registered hasRoot isHere isRegistered named =>
      exact (isLogged.aligned.sound.collects_of_hasRoot hasRoot).2 _ isHere _ isRegistered named
  | visible given named =>
      exact isLogged.namedTypes_subset_of_visible logs.areCollected given named

end Calls

end Session

/-- A sample in which the operation of one document spreads a fragment that two documents define.
The one that counts is that of the other document, which knows of dogs and their toys. -/
def Kennels : Sample where
  schemaText :=
    "type Query \x7b pet: Pet \x7d interface Pet \x7b name: String \x7d "
      ++ "type Dog implements Pet \x7b name: String toy: Toy \x7d type Toy \x7b label: String \x7d"
  sources :=
    [⟨"a.graphql",
      "query A \x7b pet \x7b ...F \x7d \x7d "
        ++ "fragment F on Pet \x7b ... on Dog \x7b toy \x7b label \x7d \x7d \x7d"⟩,
      ⟨"b.graphql",
      "query Q \x7b pet \x7b ...F \x7d \x7d fragment F on Pet \x7b name \x7d"⟩]
  isValid := by decide +kernel

/-- A branch leads from the pet to dogs, where nothing is written, and there a toy is visible. -/
theorem Kennels.exists_toy : ∃ (set : SelectionSet) (visible : VisibleSelections) (branch : Branch)
    (inner : VisibleSelections) (field : Field), Kennels.built.Holds set
      ∧ visible ∈ (Kennels.viewing [set]).views ∧ branch ∈ visible.branches
      ∧ inner ∈ (Kennels.viewing [set, branch.selectionSet]).views ∧ inner.direct.isNone
      ∧ field ∈ inner.fields ∧ field.summary.type.innerName = "Toy" := by
  have computes : ((Kennels.built.workspace.operation? ⟨1, some "Q"⟩).any fun shape =>
      shape.root.writtenSets.any fun member =>
        (Kennels.viewing [⟨member.1, some member.2⟩]).views.any fun visible =>
          visible.branches.any fun branch =>
            (Kennels.viewing [⟨member.1, some member.2⟩, branch.selectionSet]).views.any
              fun inner => inner.direct.isNone
                && inner.fields.any (·.summary.type.innerName == "Toy")) = true := by
    simp only [Sample.viewing, Sample.built, Kennels.project_eq]
    decide +kernel
  simp only [Option.any_eq_true, List.any_eq_true, Bool.and_eq_true, beq_iff_eq] at computes
  rcases computes with ⟨shape, isShape, member, mem, visible, given, branch, branchMem, inner,
    innerGiven, isMerged, field, fieldMem, isToy⟩
  exact ⟨_, visible, branch, inner, field, .written (Or.inl ⟨_, shape, isShape, rfl⟩) mem, given,
    branchMem, innerGiven, isMerged, fieldMem, isToy⟩

/-- Toys are visible only by merging, and the document that is built does not refer to them. -/
theorem Session.mem_referencedTypes_kennels : ∃ (session : Session) (visible : VisibleSelections)
    (field : Field), session.Arises Kennels.project ∧ visible ∈ session.views
      ∧ visible.direct.isNone ∧ field ∈ visible.fields ∧ field.summary.type.innerName = "Toy"
      ∧ (∃ file ∈ Kennels.project.compilation.documents, file.path = "b.graphql"
        ∧ "Toy" ∉ (Compilation.mk Kennels.project.schema [file]).referencedTypes)
      ∧ session.Names "Toy" ∧ "Toy" ∈ Kennels.project.compilation.referencedTypes := by
  rcases Kennels.exists_toy with
    ⟨set, visible, branch, inner, field, holds, given, branchMem, innerGiven, isMerged, fieldMem,
      isToy⟩
  have arises : (Kennels.viewing [set, branch.selectionSet]).Arises Kennels.project :=
    (Kennels.arises_built.call
      (show Kennels.built.Allows (.viewUnder set .all) from holds)).call
      (show Session.Allows _ (.viewUnder branch.selectionSet .all) from .branch given branchMem)
  have named : "Toy" ∈ field.namedTypes := isToy ▸ List.mem_cons_self
  have ofFields := List.mem_flatMap.mpr ⟨field, fieldMem, named⟩
  have names : Session.Names _ "Toy" := .visible innerGiven <| by
    simp only [VisibleSelections.namedTypes, List.mem_append, ofFields, or_true, true_or]
  refine ⟨_, inner, field, arises, innerGiven, isMerged, fieldMem, isToy, ?_, names,
    mem_referencedTypes arises names⟩
  rewrite [Kennels.project_eq]
  decide +kernel

end ResponseShape
