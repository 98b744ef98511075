import ResponseShape.Proofs.Merging.Selected
import ResponseShape.Proofs.Walk.Coverage
import ResponseShape.Proofs.Walk.Visits

/-!
# Visible selections are complete

Where a walk through an operation finally comes to, everything that execution selects on the object
is visible, under conditions that hold (`Visits.exists_visible_of_executed`).

What execution selects is covered by occurrences. Where a walk can enter no more branches, the
occurrences in scopes with the object are sources of the set, so the fields that they offer are
visible. The scope of the set lies within theirs, which is why the sets on the next objects see the
occurrences there.
-/

namespace ResponseShape

section Steps

variable {project : Project} {workspace : Workspace} {assignment : Assignment}
  {shape? : Name → Option FragmentShape} {definition : DefinitionId} {type : Name}
  {selections others : List Selection} {root : RootField} {occurrences : List Occurrence}
  {way : List Execution.Step} {object next : Name} {set inner : SelectionSet}
  {visible : VisibleSelections} {field : Field} {branch : Branch} {occurrence : Occurrence}
  {enclosing : List Scope} {collected : CollectedField}

/-- An occurrence that is a set itself has what is written there. -/
theorem SelectionSet.IsWrittenIn.direct_eq_of_isItself (isWritten : set.IsWrittenIn root)
    (built : root.IsBuilt project shape? definition type selections occurrences)
    (mem : occurrence ∈ occurrences) (itself : set.isItself occurrence = true) :
    set.direct = some occurrence.selections := by
  simp only [SelectionSet.isItself, Bool.and_eq_true] at itself
  rcases itself with ⟨⟨isDirect, notPlaced⟩, samePlace⟩
  rcases Option.isSome_iff_exists.mp isDirect with ⟨tree, isTree⟩
  rcases built.occurs.origin occurrence mem with
    ⟨member, memberMem, rfl | ⟨spread, -, _, _, -, -, _, -, placement⟩⟩
  · rcases built.depiction.depicts with ⟨_, depicts⟩
    have same := depicts.eq_of_beq_place built.depiction.located memberMem (isWritten tree isTree)
      samePlace
    have same : member.2 = tree := same
    rw [isTree, same]
  · rw [placement.fragment] at notPlaced
    cases notPlaced

/-- Whether what execution selects on an object is covered by occurrences that a set on it sees. -/
def IsCovered (project : Project) (assignment : Assignment) (occurrences : List Occurrence)
    (object : Name) (set : SelectionSet) (selections : List Selection) : Prop :=
  ∀ levels, ∀ selection ∈ selections, ∃ enclosing type,
    List.Forall₂ (fun scope other => scope.isWithin other = true) set.place.enclosing enclosing
      ∧ project.schema.isPossible type object = true
      ∧ Covers project assignment occurrences levels set.place.entity.location enclosing type
        [selection]

/-- What is collected from covered selections is offered by an occurrence that the set sees. -/
theorem IsCovered.exists_offers
    (covered : IsCovered project assignment occurrences object set selections)
    (mem : collected ∈ Execution.collectFields project.compilation object assignment selections)
    (levels : Nat) :
    ∃ occurrence ∈ occurrences, ∃ enclosing,
      List.Forall₂ (fun scope other => scope.isWithin other = true) set.place.enclosing enclosing
        ∧ occurrence.Offers project.schema assignment set.place.entity.location enclosing object
          collected
        ∧ Covers project assignment occurrences levels
          (set.place.entity.location.child collected.responseKey collected.field.type.innerName)
          occurrence.place.scopes collected.field.type.innerName collected.selections := by
  rcases Execution.mem_collectFields_iff.mp mem with ⟨reached, included⟩
  rcases reached.exists_mem with ⟨selection, selectionMem, reached⟩
  rcases covered (levels + 1) selection selectionMem with
    ⟨enclosing, type, within, possible, covers⟩
  rcases covers object possible collected (Execution.mem_collectFields_iff.mpr ⟨reached, included⟩)
    with ⟨occurrence, occurrenceMem, offers, below⟩
  exact ⟨occurrence, occurrenceMem, enclosing, within, offers, below⟩

variable (lawful : project.schema.IsLawful)
  (built : root.IsBuilt project shape? definition type selections occurrences)
  (registered : workspace.Registers definition occurrences)
  (stands : Stands project assignment root way object set)
  (run : set.visible project.schema workspace.entities .all = .ok visible)
  (isFinal : visible.isFinalFor project.schema object assignment = true)

include lawful built registered stands run isFinal

/-- Where a walk can enter no more branches, the set selects what is offered by any occurrence that
it sees, and lies within the scope of the occurrence. -/
theorem Stands.selects (mem : occurrence ∈ occurrences)
    (within : List.Forall₂ (fun scope other => scope.isWithin other = true) set.place.enclosing
      enclosing)
    (offers : occurrence.Offers project.schema assignment set.place.entity.location enclosing object
      collected) :
    set.place.scope.isWithin occurrence.place.scope = true
      ∧ ∀ field ∈ occurrence.selections.fields, set.Selects workspace.entities .all field := by
  have isDefined : set.place.entity.location.definition = definition := by
    rw [stands.definition, built.depiction.location]
    rfl
  have isRegistered : occurrence ∈ workspace.entities.occurrences set.place.entity.location := by
    rw [registered _ isDefined]
    exact List.mem_filter.mpr ⟨mem, by simpa using offers.location⟩
  have enclosed : set.place.isEnclosedLike occurrence.place = true := by
    rw [← offers.enclosing, List.forall₂_iff_zip] at within
    simp only [Place.isEnclosedLike, within.1, beq_self_eq_true, Bool.true_and, List.all_eq_true]
    exact fun pair pairMem => within.2 pairMem
  cases isItself : set.isItself occurrence with
  | true =>
      have isDirect := stands.written.direct_eq_of_isItself built mem isItself
      constructor
      · simp only [SelectionSet.isItself, Bool.and_eq_true] at isItself
        have samePath := Scope.forall₂_of_beq (Place.of_beq isItself.2).2.2
        exact Scope.isWithin_of_beq_path stands.reachable_scope samePath
      · intro field fieldMem
        refine Or.inl ?_
        rw [SelectionSet.directFields, isDirect]
        exact fieldMem
  | false =>
      have isSource := stands.mem_sources lawful run isFinal isRegistered isItself enclosed
        offers.scope
      exact ⟨(List.mem_filter.mp isSource).2,
        fun field fieldMem => Or.inr ⟨occurrence, isSource, fieldMem⟩⟩

/-- What execution selects on the objects of a field is covered by occurrences that the set behind
the visible field sees. -/
theorem IsCovered.goesOn
    (covered : IsCovered project assignment occurrences object set others)
    (mem : field ∈ visible.fields) (isInner : set.IsInner project.schema root field inner)
    (possible : project.schema.isPossible field.summary.type.innerName next = true) :
    IsCovered project assignment occurrences next inner
      (((Execution.collectFields project.compilation object assignment others).filter
        (·.responseKey == field.responseKey)).flatMap (·.selections)) := by
  intro levels selection selectionMem
  rcases List.mem_flatMap.mp selectionMem with ⟨collected, collectedMem, below⟩
  rcases List.mem_filter.mp collectedMem with ⟨collects, sameKey⟩
  have sameKey : collected.responseKey = field.responseKey := by simpa using sameKey
  rcases covered.exists_offers collects levels with
    ⟨occurrence, occurrenceMem, enclosing, within, offers, covers⟩
  rcases stands.selects lawful built registered run isFinal occurrenceMem within offers with
    ⟨isWithin, selects⟩
  rcases offers.field with ⟨offered, offeredMem, offeredKey, offeredType, holds⟩
  have orderly := (stands.written.isDepiction built.depiction).isOrderly
  have knownHolds := (Scope.isSound_of_reachable lawful
    stands.reachable_scope).holds_knownConditions stands.scope
  have isType : field.summary.type = collected.field.type :=
    (VisibleSelections.type_of_selects orderly run (selects offered offeredMem) knownHolds holds mem
      (sameKey.symm.trans offeredKey.symm)).trans offeredType
  refine ⟨occurrence.place.scopes, collected.field.type.innerName, ?_, ?_, ?_⟩
  · rw [isInner.enclosing, Place.scopes, Place.scopes, offers.enclosing]
    exact List.rel_append within (.cons isWithin .nil)
  · rw [← isType]
    exact possible
  · rw [isInner.location, ← sameKey, isType]
    refine covers.mono ?_
    intro other otherMem
    rw [List.mem_singleton.mp otherMem]
    exact below

/-- Where a walk can enter no more branches, what execution selects is visible. -/
theorem IsCovered.exists_visible
    (covered : IsCovered project assignment occurrences object set others)
    (mem : collected ∈ Execution.collectFields project.compilation object assignment others) :
    ∃ field ∈ visible.fields,
      field.responseKey = collected.responseKey ∧ field.holds assignment = true := by
  rcases covered.exists_offers mem 0 with
    ⟨occurrence, occurrenceMem, enclosing, within, offers, -⟩
  rcases stands.selects lawful built registered run isFinal occurrenceMem within offers with
    ⟨-, selects⟩
  rcases offers.field with ⟨offered, offeredMem, offeredKey, -, holds⟩
  have orderly := (stands.written.isDepiction built.depiction).isOrderly
  have knownHolds := (Scope.isSound_of_reachable lawful
    stands.reachable_scope).holds_knownConditions stands.scope
  rcases VisibleSelections.exists_of_selects orderly run (selects offered offeredMem) knownHolds
    holds with ⟨shown, shownMem, isKey, shownHolds⟩
  exact ⟨shown, shownMem, isKey.trans offeredKey, shownHolds⟩

end Steps

section Walks

variable {project : Project} {workspace : Workspace} {assignment : Assignment}
  {shape? : Name → Option FragmentShape} {definition : DefinitionId} {type : Name}
  {selections : List Selection} {root : RootField} {occurrences : List Occurrence}
  {way : List Execution.Step} {object : Name} {set : SelectionSet} {visible : VisibleSelections}

/-- Wherever a walk through a built definition comes to, what execution selects is covered by
occurrences of the definition that the set sees. -/
theorem Visits.isCovered (lawful : project.schema.IsLawful) (sound : workspace.IsSound project)
    (built : root.IsBuilt project workspace.fragment? definition type selections occurrences)
    (registered : workspace.Registers definition occurrences)
    (visits : Visits project workspace assignment root.selectionSet way object set) :
    IsCovered project assignment occurrences object set
      (Execution.selectionsAlong project.compilation assignment (·.isIncluded assignment) way
        selections) := by
  have depiction := built.depiction
  induction visits with
  | start possible =>
      intro levels selection mem
      have covers := sound.coversAll lawful built assignment levels
      refine ⟨[], type, ?_, ?_, ?_⟩
      · rw [RootField.selectionSet, depiction.enclosing]
        exact .nil
      · rw [← depiction.selectionSet_type]
        exact possible
      · rw [RootField.selectionSet, depiction.location]
        refine covers.mono ?_
        intro other otherMem
        rw [List.mem_singleton.mp otherMem]
        exact mem
  | branch visits run mem _ covered =>
      have stands := visits.stands lawful sound depiction
      rcases VisibleSelections.narrowed_of_mem depiction stands.written run mem with ⟨narrowed, -⟩
      rcases Place.narrowed_eq_ok narrowed with ⟨-, sameEntity, sameEnclosing⟩
      rw [IsCovered, sameEntity, sameEnclosing]
      exact covered
  | field visits run isFinal mem isInner possible covered =>
      have stands := visits.stands lawful sound depiction
      rw [Execution.selectionsAlong_append_singleton]
      exact covered.goesOn lawful built registered stands run isFinal mem
        (VisibleSelections.isInner_of_mem sound depiction stands.written run mem isInner) possible

end Walks

section Operations

variable {project : Project} {workspace : Workspace} {assignment : Assignment} {schema : String}
  {sources : List SourceText} {index : Nat} {document : DocumentFile} {operation : Operation}
  {shape : OperationShape}

variable {way : List Execution.Step} {object : Name} {set : SelectionSet}
  {visible : VisibleSelections} {collected : CollectedField}

/-- Whatever execution selects on an object is visible where a walk to the object finally comes to,
whichever branches it entered on the way. -/
theorem Visits.exists_visible_of_executed
    (valid : Compilation.validated? schema sources = some project.compilation)
    (reachable : Workspace.Reachable project workspace)
    (isDocument : project.compilation.documents[index]? = some document)
    (isOperation : operation ∈ document.document.operations)
    (isBuilt : (⟨index, operation.name⟩, shape) ∈ workspace.operations)
    (visits : Visits project workspace assignment shape.root.selectionSet way object set)
    (run : set.visible project.schema workspace.entities .all = .ok visible)
    (isFinal : visible.isFinalFor project.schema object assignment = true)
    (mem : collected ∈ Execution.executed project.compilation assignment way object
      operation.selections) :
    ∃ field ∈ visible.fields,
      field.responseKey = collected.responseKey ∧ field.holds assignment = true := by
  have lawful := Schema.isLawful_of_validated? (Compilation.validated?_schema valid)
  have sound := Workspace.isSound_of_reachable reachable
  rcases sound.exists_built valid isDocument isOperation isBuilt with
    ⟨occurrences, built, registered⟩
  have covered := visits.isCovered lawful sound built registered
  exact covered.exists_visible lawful built registered
    (visits.stands lawful sound built.depiction) run isFinal mem

end Operations

theorem Visits.exists_visible_of_executed_heroes : ∃ (shape : OperationShape) (set : SelectionSet)
    (visible : VisibleSelections),
    Visits Heroes.project Heroes.workspace (fun _ => true) shape.root.selectionSet
      [⟨"Query", "hero"⟩] "Hero" set
    ∧ set.visible Heroes.project.schema Heroes.workspace.entities .all = .ok visible
    ∧ ∃ field ∈ visible.fields, field.responseKey = "age" ∧ field.holds (fun _ => true) = true := by
  rcases Heroes.exists_operation with
    ⟨document, operation, isDocument, isOperation, isNamed, executed, -⟩
  rcases Heroes.exists_visits (fun _ => true) with
    ⟨shape, set, visible, isBuilt, visits, run, isFinal, -⟩
  rw [← isNamed] at isBuilt
  have isExecuted : "age" ∈ (Execution.executed Heroes.compilation (fun _ => true)
      [⟨"Query", "hero"⟩] "Hero" operation.selections).map (·.responseKey) := by
    rw [executed]
    simp
  rcases List.mem_map.mp isExecuted with ⟨collected, mem, isKey⟩
  refine ⟨shape, set, visible, visits, run, ?_⟩
  rcases visits.exists_visible_of_executed Heroes.validated?_eq_some Heroes.reachable isDocument
    isOperation isBuilt run isFinal mem with ⟨shown, shownMem, shownKey, holds⟩
  exact ⟨shown, shownMem, shownKey.trans isKey, holds⟩

end ResponseShape
