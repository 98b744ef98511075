import ResponseShape.Proofs.Definition.Inlining
import ResponseShape.Proofs.Document.Equality
import ResponseShape.Proofs.Merging.Narrower
import ResponseShape.Proofs.Workspace.Selecting

/-!
# A spread and the fragment written in its place

What a set shows is what the selections of its definition select for whoever stands within the
scopes of the set (`SelectionSet.IsPlacedIn.shows_iff`). Of an operation with a spread and the same
operation with the fragment written in its place, sets without selections of their own at one place
therefore show the same as far as the selections select the same
(`VisibleSelections.hasFieldsOf_inlined`): the spread shows no less, and no more unless the fragment
has a field with selections that the tests at the spread rule out. What is selected on such a field
is dropped where it is written, and is shown where it is spread
(`VisibleSelections.exists_not_hasFieldsOf_inlined`).
-/

namespace ResponseShape

/-- Whether an operation is another one, of another compilation, with a fragment written at one of
its spreads. The fragments that are still spread are the same; the written one may be gone. -/
structure Operation.IsInlined (compilation inlined : Compilation) (fragment : Fragment)
    (site : Set VariableTest) (operation written : Operation) : Prop where
  kind : written.kind = operation.kind
  name : written.name = operation.name
  rootType : written.rootType = operation.rootType
  selections : Selection.Inlines compilation fragment site ∅ operation.selections
    written.selections
  agrees : inlined.Agrees compilation written.selections

/-- A set without selections of its own has all fields of another such set at its place, if it shows
what the other does. -/
theorem VisibleSelections.hasFieldsOf_without {schema otherSchema : Schema}
    {entities others : EntityTable} {place : Place} {visible other : VisibleSelections}
    (run : (SelectionSet.mk place none).visible schema entities .all = .ok visible)
    (otherRun : (SelectionSet.mk place none).visible otherSchema others .all = .ok other)
    (shows : ∀ key assignment, place.scope.knownConditions.all (·.holds assignment) = true →
      other.Shows key assignment → visible.Shows key assignment) :
    visible.HasFieldsOf place.scope.knownConditions other := by
  have orderly : (SelectionSet.mk place none).IsOrderly := by
    rintro tree ⟨⟩
  apply hasFieldsOf_of_shows (nodup_responseKeys orderly run)
  · intro field mem
    apply exists_holds orderly otherRun ?_ mem
    rintro direct ⟨⟩
  · exact shows

section Sets

variable {project : Project} {workspace : Workspace} {definition : DefinitionId} {type key : Name}
  {assignment : Assignment} {selections : List Selection} {root : RootField}
  {occurrences : List Occurrence} {set : SelectionSet} {visible : VisibleSelections}

variable (key) in
/-- A set shows what the selections of its definition select within the scopes of the set. -/
theorem SelectionSet.IsPlacedIn.shows_iff (placed : set.IsPlacedIn project root)
    (sound : workspace.IsSound project)
    (hasBuilt : workspace.HasBuilt project definition type selections root occurrences)
    (run : set.visible project.schema workspace.entities .all = .ok visible)
    (knownHolds : set.place.scope.knownConditions.all (·.holds assignment) = true) :
    visible.Shows key assignment
      ↔ (∃ first ∈ set.place.scopes.head?, first.implies (.onType type) = true)
        ∧ SelectsFor project.compilation key assignment ∅ set.place.scopes
          set.place.entity.location.steps selections := by
  have depiction := hasBuilt.built.depiction
  have orderly := (placed.written.isDepiction depiction).isOrderly
  rw [← sound.selectsFor_iff hasBuilt.built placed.reachable (by simpa [Place.scopes])]
  constructor
  · rintro ⟨shown, mem, rfl, holds⟩
    rcases VisibleSelections.exists_selects orderly run knownHolds mem holds with
      ⟨field, selects, isKey, fieldHolds⟩
    rcases (placed.exists_occurrence sound hasBuilt).1 field selects with
      ⟨occurrence, occurrenceMem, within, twin, twinMem, same⟩
    refine ⟨occurrence, occurrenceMem, ?_, (Place.isWithin_iff.mp within).2, twin, twinMem, ?_, ?_⟩
    · rw [within.location]
    · rw [← isKey, Field.responseKey, Field.responseKey, same]
    · rw [Field.holds, same]
      exact fieldHolds
  · rintro ⟨occurrence, mem, sameSteps, scopes, field, fieldMem, isKey, holds⟩
    have sameDefinition : occurrence.place.entity.location.definition
        = set.place.entity.location.definition := by
      rw [(hasBuilt.built.rooted occurrence mem).definition, placed.definition, depiction.location]
      rfl
    have location : occurrence.place.entity.location = set.place.entity.location :=
      congrArg₂ Location.mk sameDefinition sameSteps
    have selects := (placed.selects_of_mem hasBuilt mem
      (Place.isWithin_iff.mpr ⟨location, scopes⟩)).1 field fieldMem
    rw [← isKey]
    exact VisibleSelections.exists_of_selects orderly run selects knownHolds holds

/-- Where some definition offers a set, a set without selections of its own stands in another
definition with the same identity. -/
theorem SelectionSet.OfferedBy.isPlacedIn_without {other : Project} {otherRoot : RootField}
    {otherType : Name} {otherSelections : List Selection} (offered : set.OfferedBy project root)
    (depiction : root.IsDepiction project definition type selections)
    (otherDepiction : otherRoot.IsDepiction other definition otherType otherSelections)
    (schema : other.schema = project.schema) :
    (SelectionSet.mk set.place none).IsPlacedIn other otherRoot := by
  have placed := offered.isPlacedIn depiction
  refine ⟨?_, ?_, schema ▸ placed.reachable⟩
  · rintro tree ⟨⟩
  · rw [otherDepiction.location, placed.definition, depiction.location]

end Sets

section Operations

variable {schemaText : String} {sources inlinedSources : List SourceText}
  {project inlined : Project} {workspace inlinedWorkspace : Workspace} {index : Nat}
  {document inlinedDocument : DocumentFile} {operation written : Operation}
  {shape inlinedShape : OperationShape} {fragment : Fragment} {site : Set VariableTest}
  {set : SelectionSet} {visible inlinedVisible : VisibleSelections}

/-- An operation with a spread and the operation with the fragment written in its place show the
same in sets without selections of their own, wherever one of the operations has a set: what the
written fragment shows, the spread shows, and the other way around if no field with selections in
the fragment is opposed by a test that the spread stands behind. -/
theorem VisibleSelections.hasFieldsOf_inlined
    (valid : Compilation.validated? schemaText sources = some project.compilation)
    (inlinedValid : Compilation.validated? schemaText inlinedSources = some inlined.compilation)
    (reachable : Workspace.Reachable project workspace)
    (inlinedReachable : Workspace.Reachable inlined inlinedWorkspace)
    (isDocument : project.compilation.documents[index]? = some document)
    (isOperation : operation ∈ document.document.operations)
    (isInlinedDocument : inlined.compilation.documents[index]? = some inlinedDocument)
    (isWritten : written ∈ inlinedDocument.document.operations)
    (isInlined : operation.IsInlined project.compilation inlined.compilation fragment site written)
    (isBuilt : (⟨index, operation.name⟩, shape) ∈ workspace.operations)
    (isInlinedBuilt : (⟨index, written.name⟩, inlinedShape) ∈ inlinedWorkspace.operations)
    (offered : set.OfferedBy project shape.root ∨ set.OfferedBy inlined inlinedShape.root)
    (run : (SelectionSet.mk set.place none).visible project.schema workspace.entities .all
      = .ok visible)
    (inlinedRun : (SelectionSet.mk set.place none).visible inlined.schema inlinedWorkspace.entities
      .all = .ok inlinedVisible) :
    visible.HasFieldsOf set.place.scope.knownConditions inlinedVisible
      ∧ (fragment.IsUnopposed site →
        inlinedVisible.HasFieldsOf set.place.scope.knownConditions visible) := by
  have sound := Workspace.isSound_of_reachable reachable
  have inlinedSound := Workspace.isSound_of_reachable inlinedReachable
  have schema : inlined.schema = project.schema := by
    have isSchema := Compilation.validated?_schema inlinedValid
    rw [Compilation.validated?_schema valid] at isSchema
    exact (Option.some.inj isSchema).symm
  rcases sound.exists_built valid isDocument isOperation isBuilt with
    ⟨occurrences, built, registers⟩
  rcases inlinedSound.exists_built inlinedValid isInlinedDocument isWritten isInlinedBuilt with
    ⟨inlinedOccurrences, inlinedBuilt, inlinedRegisters⟩
  rw [isInlined.kind, isInlined.name, isInlined.rootType] at inlinedBuilt
  rw [isInlined.kind, isInlined.name] at inlinedRegisters
  have hasBuilt := Workspace.HasBuilt.of_registers built registers
  have inlinedHasBuilt := Workspace.HasBuilt.of_registers inlinedBuilt inlinedRegisters
  have placed : (SelectionSet.mk set.place none).IsPlacedIn project shape.root := by
    rcases offered with offered | offered
    · exact offered.isPlacedIn_without built.depiction built.depiction rfl
    · exact offered.isPlacedIn_without inlinedBuilt.depiction built.depiction schema.symm
  have inlinedPlaced : (SelectionSet.mk set.place none).IsPlacedIn inlined inlinedShape.root := by
    rcases offered with offered | offered
    · exact offered.isPlacedIn_without built.depiction inlinedBuilt.depiction schema
    · exact offered.isPlacedIn_without inlinedBuilt.depiction inlinedBuilt.depiction rfl
  constructor
  · apply hasFieldsOf_without run inlinedRun
    intro key assignment knownHolds
    rw [placed.shows_iff key sound hasBuilt run knownHolds,
      inlinedPlaced.shows_iff key inlinedSound inlinedHasBuilt inlinedRun knownHolds]
    refine And.imp_right fun selects => ?_
    exact .of_inlined isInlined.selections (selects.of_agrees schema.symm isInlined.agrees)
  · intro unopposed
    apply hasFieldsOf_without inlinedRun run
    intro key assignment knownHolds
    rw [placed.shows_iff key sound hasBuilt run knownHolds,
      inlinedPlaced.shows_iff key inlinedSound inlinedHasBuilt inlinedRun knownHolds]
    refine And.imp_right fun selects => ?_
    exact (selects.inlined isInlined.selections unopposed).of_agrees schema isInlined.agrees.symm

end Operations

/-! Samples with a fragment in an inline fragment that a variable skips: spread there, or written
there. -/

namespace Skipping

/-- The type definitions of the samples. -/
def schemaText : String :=
  "type Query \x7b hero: Hero id: ID \x7d type Hero \x7b name: String age: Int \x7d"

/-- An operation with some text for the fragment. -/
def operationText (text : String) : String :=
  "query Q($a: Boolean!) \x7b hero \x7b name \x7d ... @skip(if: $a) \x7b id ..." ++ text

/-- The operation with a fragment of the given selections spread. -/
def spreadText (selections : String) : String :=
  operationText ("F \x7d \x7d fragment F on Query \x7b " ++ selections ++ " \x7d")

/-- The operation with a fragment of the given selections written in place of its spread. -/
def writtenText (selections : String) : String :=
  operationText (" on Query \x7b " ++ selections ++ " \x7d \x7d \x7d")

/-- Selections of a fragment that do not depend on the variable. -/
def unopposed : String := "hero \x7b age \x7d"

/-- Selections of a fragment on a field that is excluded where the fragment is. -/
def opposed : String := "hero @include(if: $a) \x7b age \x7d"

def spreadUnopposed : Sample :=
  ⟨schemaText, [⟨"q.graphql", spreadText unopposed⟩], by decide +kernel⟩

def writtenUnopposed : Sample :=
  ⟨schemaText, [⟨"q.graphql", writtenText unopposed⟩], by decide +kernel⟩

def spreadOpposed : Sample :=
  ⟨schemaText, [⟨"q.graphql", spreadText opposed⟩], by decide +kernel⟩

def writtenOpposed : Sample :=
  ⟨schemaText, [⟨"q.graphql", writtenText opposed⟩], by decide +kernel⟩

/-- Whether the operation with the fragment written is the one with the spread but for that. -/
def areInlined (spread written : Compilation) : Bool :=
  spread.documents[0]?.any fun document => document.document.operations.any fun operation =>
    written.documents[0]?.any fun writtenDocument =>
      writtenDocument.document.operations.any fun writtenOperation =>
        (spread.spreadFragment? "F").any fun fragment =>
          operation.name == some "Q" && writtenOperation.name == some "Q"
            && writtenOperation.kind == operation.kind
            && writtenOperation.rootType == operation.rootType
            && Selection.spreadsOfAll writtenOperation.selections == []
            && match operation.selections with
              | [first, .inlineFragment typeCondition skips [second, .fragmentSpread name []]] =>
                  name == "F" && writtenOperation.selections
                    == [first, .inlineFragment typeCondition skips [second,
                      .inlineFragment (some fragment.typeCondition) [] fragment.selections]]
              | _ => false

theorem exists_isInlined {spread written : Compilation}
    (inlined : areInlined spread written = true) :
    ∃ (document writtenDocument : DocumentFile) (operation writtenOperation : Operation)
      (fragment : Fragment) (site : Set VariableTest),
      spread.documents[0]? = some document
      ∧ operation ∈ document.document.operations ∧ operation.name = some "Q"
      ∧ written.documents[0]? = some writtenDocument
      ∧ writtenOperation ∈ writtenDocument.document.operations ∧ writtenOperation.name = some "Q"
      ∧ spread.spreadFragment? "F" = some fragment
      ∧ operation.IsInlined spread written fragment site writtenOperation := by
  simp only [areInlined, Option.any_eq_true, List.any_eq_true, Bool.and_eq_true, beq_iff_eq]
    at inlined
  rcases inlined with ⟨document, isDocument, operation, mem, writtenDocument, isWrittenDocument,
    writtenOperation, writtenMem, fragment, isFragment,
    ⟨⟨⟨⟨isNamed, isWrittenNamed⟩, kind⟩, rootType⟩, noSpreads⟩, isWritten⟩
  split at isWritten
  next first typeCondition skips second name isSpread =>
    rw [Bool.and_eq_true, beq_iff_eq, beq_iff_eq] at isWritten
    rcases isWritten with ⟨rfl, isWritten⟩
    have inlines : Selection.Inlines spread fragment
        (∅ ∪ Directive.tests skips ∪ Directive.tests []) ∅ operation.selections
        writtenOperation.selections := by
      rw [isSpread, isWritten]
      change Selection.Inlines _ _ _ _ ([first] ++ _ :: []) ([first] ++ _ :: [])
      apply Selection.Inlines.inlineFragment
      change Selection.Inlines _ _ _ _ ([second] ++ _ :: []) ([second] ++ _ :: [])
      exact .spread isFragment rfl
    exact ⟨document, writtenDocument, operation, writtenOperation, fragment, _, isDocument, mem,
      isNamed, isWrittenDocument, writtenMem, isWrittenNamed, isFragment, kind,
      isWrittenNamed.trans isNamed.symm, rootType, inlines, .of_spreadsOfAll_eq_nil noSpreads⟩
  next => cases isWritten

/-- What is visible in a sample at a place, without selections of its own there. -/
def visibleAt (sample : Sample) (place : Place) : Except BuildError VisibleSelections :=
  (SelectionSet.mk place none).visible sample.project.schema sample.workspace.entities .all

/-- Whether the hero has the given response keys where the variable skips, when computed for the
operation with the spread and for the other one. -/
def haveKeys (spread written : Sample) (keys writtenKeys : List Name) : Bool :=
  spread.workspace.operations.any fun operation =>
    written.workspace.operations.any fun writtenOperation =>
      operation.1 == ⟨0, some "Q"⟩ && writtenOperation.1 == ⟨0, some "Q"⟩
        && (operation.2.root.selectionSet.visible spread.project.schema
          spread.workspace.entities .all).toOption.any fun visible =>
            visible.branches.any fun branch =>
              (branch.selectionSet.visible spread.project.schema spread.workspace.entities
                .all).toOption.any fun skipped => skipped.fields.any fun hero =>
                  hero.selectionSet.any fun set =>
                    ((visibleAt spread set.place).toOption.any
                        (·.fields.map (·.responseKey) == keys))
                      && (visibleAt written set.place).toOption.any
                        (·.fields.map (·.responseKey) == writtenKeys)

theorem exists_views {spread written : Sample} {keys writtenKeys : List Name}
    (computed : haveKeys spread written keys writtenKeys = true) :
    ∃ (shape writtenShape : OperationShape) (set : SelectionSet)
      (visible writtenVisible : VisibleSelections),
      (⟨0, some "Q"⟩, shape) ∈ spread.workspace.operations
      ∧ (⟨0, some "Q"⟩, writtenShape) ∈ written.workspace.operations
      ∧ set.OfferedBy spread.project shape.root
      ∧ visibleAt spread set.place = .ok visible
      ∧ visible.fields.map (·.responseKey) = keys
      ∧ visibleAt written set.place = .ok writtenVisible
      ∧ writtenVisible.fields.map (·.responseKey) = writtenKeys := by
  simp only [haveKeys, List.any_eq_true, Option.any_eq_true, Bool.and_eq_true, beq_iff_eq]
    at computed
  rcases computed with ⟨⟨_, shape⟩, mem, ⟨_, writtenShape⟩, writtenMem, ⟨rfl, rfl⟩, root, isRoot,
    branch, branchMem, skipped, isSkipped, hero, heroMem, set, isSet, ⟨visible, isVisible, keys⟩,
    writtenVisible, isWrittenVisible, writtenKeys⟩
  have offered : shape.root.selectionSet.OfferedBy spread.project shape.root :=
    .written (SelectionTree.self_mem_writtenSets shape.root.place shape.root.selections)
  have offeredBehind := offered.branch spread.reachable (Build.eq_ok_of_toOption isRoot) branchMem
  have offeredBelow := offeredBehind.field spread.reachable (Build.eq_ok_of_toOption isSkipped)
    heroMem isSet
  exact ⟨shape, writtenShape, set, visible, writtenVisible, mem, writtenMem, offeredBelow,
    Build.eq_ok_of_toOption isVisible, keys, Build.eq_ok_of_toOption isWrittenVisible, writtenKeys⟩

end Skipping

/-- A hero whose age is selected in a fragment, whatever the variable, has the same fields whether
the fragment is spread or written. -/
theorem VisibleSelections.hasFieldsOf_inlined_hero : ∃ (place : Place)
    (visible inlinedVisible : VisibleSelections),
    Skipping.visibleAt Skipping.spreadUnopposed place = .ok visible
    ∧ Skipping.visibleAt Skipping.writtenUnopposed place = .ok inlinedVisible
    ∧ visible.fields.map (·.responseKey) = ["name", "age"]
    ∧ visible.HasFieldsOf place.scope.knownConditions inlinedVisible
    ∧ inlinedVisible.HasFieldsOf place.scope.knownConditions visible := by
  have computes : (Skipping.areInlined Skipping.spreadUnopposed.project.compilation
        Skipping.writtenUnopposed.project.compilation
      && Skipping.haveKeys Skipping.spreadUnopposed Skipping.writtenUnopposed ["name", "age"]
        ["name", "age"]
      && (Skipping.spreadUnopposed.project.compilation.spreadFragment? "F").all fun fragment =>
        (Selection.nestedFieldsOfAll fragment.selections).all (·.directives.isEmpty)) = true := by
    simp only [Skipping.haveKeys, Skipping.visibleAt, Sample.workspace_eq, Sample.project_eq]
    decide +kernel
  rw [Bool.and_eq_true, Bool.and_eq_true] at computes
  rcases computes with ⟨⟨inlined, computed⟩, unconditional⟩
  rcases Skipping.exists_isInlined inlined with ⟨document, writtenDocument, operation, written,
    fragment, site, isDocument, mem, isNamed, isWrittenDocument, writtenMem, isWrittenNamed,
    isFragment, isInlined⟩
  rcases Skipping.exists_views computed with ⟨shape, writtenShape, set, visible, writtenVisible,
    isBuilt, isWrittenBuilt, offered, run, keys, writtenRun, -⟩
  have hasFields := hasFieldsOf_inlined Skipping.spreadUnopposed.validated?_eq_some
    Skipping.writtenUnopposed.validated?_eq_some Skipping.spreadUnopposed.reachable
    Skipping.writtenUnopposed.reachable isDocument mem isWrittenDocument writtenMem isInlined
    (isNamed ▸ isBuilt) (isWrittenNamed ▸ isWrittenBuilt) (Or.inl offered) run writtenRun
  refine ⟨set.place, visible, writtenVisible, run, writtenRun, keys, hasFields.1, hasFields.2 ?_⟩
  apply Fragment.isUnopposed_of_unconditional
  simpa [isFragment] using unconditional

/-- A spread can show what the written fragment does not: a field below one that is excluded where
the fragment is spread. -/
theorem VisibleSelections.exists_not_hasFieldsOf_inlined : ∃ (schemaText : String)
    (sources inlinedSources : List SourceText) (project inlined : Project)
    (workspace inlinedWorkspace : Workspace) (index : Nat)
    (document inlinedDocument : DocumentFile) (operation written : Operation)
    (shape inlinedShape : OperationShape) (fragment : Fragment) (site : Set VariableTest)
    (set : SelectionSet) (visible inlinedVisible : VisibleSelections) (field : Field),
    Compilation.validated? schemaText sources = some project.compilation
    ∧ Compilation.validated? schemaText inlinedSources = some inlined.compilation
    ∧ Workspace.Reachable project workspace ∧ Workspace.Reachable inlined inlinedWorkspace
    ∧ project.compilation.documents[index]? = some document
    ∧ operation ∈ document.document.operations
    ∧ inlined.compilation.documents[index]? = some inlinedDocument
    ∧ written ∈ inlinedDocument.document.operations
    ∧ operation.IsInlined project.compilation inlined.compilation fragment site written
    ∧ (⟨index, operation.name⟩, shape) ∈ workspace.operations
    ∧ (⟨index, written.name⟩, inlinedShape) ∈ inlinedWorkspace.operations
    ∧ set.OfferedBy project shape.root
    ∧ (SelectionSet.mk set.place none).visible project.schema workspace.entities .all = .ok visible
    ∧ (SelectionSet.mk set.place none).visible inlined.schema inlinedWorkspace.entities .all
      = .ok inlinedVisible
    ∧ field ∈ visible.fields
    ∧ ∀ shown ∈ inlinedVisible.fields, shown.responseKey ≠ field.responseKey := by
  have computes : (Skipping.areInlined Skipping.spreadOpposed.project.compilation
        Skipping.writtenOpposed.project.compilation
      && Skipping.haveKeys Skipping.spreadOpposed Skipping.writtenOpposed ["name", "age"]
        ["name"]) = true := by
    simp only [Skipping.haveKeys, Skipping.visibleAt, Sample.workspace_eq, Sample.project_eq]
    decide +kernel
  rw [Bool.and_eq_true] at computes
  rcases computes with ⟨inlined, computed⟩
  rcases Skipping.exists_isInlined inlined with ⟨document, writtenDocument, operation, written,
    fragment, site, isDocument, mem, isNamed, isWrittenDocument, writtenMem, isWrittenNamed, -,
    isInlined⟩
  rcases Skipping.exists_views computed with ⟨shape, writtenShape, set, visible, writtenVisible,
    isBuilt, isWrittenBuilt, offered, run, keys, writtenRun, writtenKeys⟩
  have isShown : "age" ∈ visible.fields.map (·.responseKey) := by simp [keys]
  rcases List.mem_map.mp isShown with ⟨field, fieldMem, isKey⟩
  refine ⟨_, _, _, _, _, _, _, 0, document, writtenDocument, operation, written, shape,
    writtenShape, fragment, site, set, visible, writtenVisible, field,
    Skipping.spreadOpposed.validated?_eq_some, Skipping.writtenOpposed.validated?_eq_some,
    Skipping.spreadOpposed.reachable, Skipping.writtenOpposed.reachable, isDocument, mem,
    isWrittenDocument, writtenMem, isInlined, isNamed ▸ isBuilt, isWrittenNamed ▸ isWrittenBuilt,
    offered, run, writtenRun, fieldMem, ?_⟩
  intro shown shownMem sameKey
  have inKeys := List.mem_map_of_mem (f := (·.responseKey)) shownMem
  rw [writtenKeys, sameKey, isKey] at inKeys
  simp at inKeys

end ResponseShape
