import ResponseShape.Proofs.Walk.Standing

/-!
# Fields that validation lets share a key

Gathering and merging tell fields apart by their names, their aliases as they are written, their
types and their arguments in order. Validation asks for less: that the types have one shape and, if
some object can have both fields, that the fields have one name and the same arguments in any order.
So fields of a valid document can be told apart after all, though not in other ways
(`SelectedField.ConflictsAt.differAt`).
-/

namespace ResponseShape

namespace Compilation

/-- Whether a definition makes selections on a type. -/
inductive Defines (compilation : Compilation) : DefinitionId → TypedSelections → Prop where
  | operation {index : Nat} {document : DocumentFile} {operation : Operation}
      (isDocument : compilation.documents[index]? = some document)
      (isOperation : operation ∈ document.document.operations) :
      Defines compilation (.operation index operation.kind operation.name)
        (operation.rootType, operation.selections)
  | fragment {name : Name} {fragment : Fragment}
      (isFragment : compilation.spreadFragment? name = some fragment) :
      Defines compilation (.fragment name) (fragment.typeCondition, fragment.selections)

/-- A valid compilation of a single text defines what its one document does. -/
theorem exists_document {compilation : Compilation} {schemaText : String} {source : SourceText}
    (valid : validated? schemaText [source] = some compilation) :
    ∃ document : Document, document.isValid compilation.schema = true
      ∧ compilation.spreadFragment? = document.fragment?
      ∧ ∀ {definition root}, compilation.Defines definition root → root ∈ document.roots := by
  have single : ∃ file, compilation.documents = [file] := by
    simp only [validated?, read?, Option.bind_eq_bind, Option.bind_eq_some_iff] at valid
    rcases valid with ⟨known, -, documents, reads, same⟩
    rcases Option.some.inj same with rfl
    exact List.length_eq_one_iff.mp (forall₂_of_mapM reads).length_eq.symm
  rcases single with ⟨file, isFile⟩
  have sameFragment : compilation.spreadFragment? = file.document.fragment? := by
    funext name
    simp only [spreadFragment?, fragment?, fragmentDefinitions, isFile, List.flatMap_singleton,
      List.find?_map, Option.map_map]
    exact congrFun Option.map_id _
  refine ⟨file.document, isValid_of_mem valid (by simp [isFile]), sameFragment, ?_⟩
  intro definition root defines
  cases defines with
  | operation isDocument isOperation =>
      have mem := List.mem_of_getElem? isDocument
      rw [isFile, List.mem_singleton] at mem
      subst mem
      exact List.mem_append_left _ (List.mem_map_of_mem isOperation)
  | fragment isFragment =>
      rw [sameFragment] at isFragment
      exact List.mem_append_right _ (List.mem_map_of_mem (List.mem_of_find?_eq_some isFragment))

end Compilation

/-- Whether some object can be at a place. -/
def Place.IsInhabited (schema : Schema) (place : Place) : Prop :=
  ∃ assignment way object, place.IsAt schema assignment way object

/-- Whether two fields at a place are told apart although validation lets them share their response
key: their types have one shape, and if any object can be at the place, then validation took both
for the same selection as one field in common. -/
structure SelectedField.DifferAt (project : Project) (place : Place)
    (first second : SelectedField) : Prop where
  conflict : ∃ definition root around others, project.compilation.Defines definition root
    ∧ ConflictsAt project root place around first others second
  shape : Document.haveSameShape project.schema first.field.type second.field.type = true
  common : place.IsInhabited project.schema → ∃ common : SelectedField,
    (first = common ∨ Document.selectSame common.field first.field = true)
      ∧ (second = common ∨ Document.selectSame common.field second.field = true)

namespace SelectedField

variable {project : Project} {root : TypedSelections} {place : Place}
  {around others : List SelectedField} {first second : SelectedField}

/-- The objects of an object type are of no other. -/
theorem parentType_eq_of_isOnObject {schema : Schema} {object : Name}
    (onObject : first.isOnObject schema = true)
    (possible : schema.isPossible first.parentType object = true) : first.parentType = object := by
  simp only [isOnObject, Option.any_eq_true, beq_iff_eq] at onObject
  rcases onObject with ⟨type, found, isObject⟩
  have isType : schema.get first.parentType = .ok type := by rw [Schema.get, found]
  rw [Schema.isPossible_of_object isType isObject, beq_iff_eq] at possible
  rw [possible, (Schema.mem_types_of_get isType).2]

/-- Fields under the same response keys can coincide, level by level, if the same objects have the
types that they are selected on. -/
theorem forall₂_canCoincide {schema : Schema} {fields twins : List SelectedField}
    {objects : List Name}
    (possible : List.Forall₂ (fun field object => schema.isPossible field.parentType object = true)
      fields objects)
    (twinPossible : List.Forall₂
      (fun field object => schema.isPossible field.parentType object = true) twins objects)
    (keys : fields.map (·.field.responseKey) = twins.map (·.field.responseKey)) :
    List.Forall₂ (CanCoincide schema) fields twins := by
  induction possible generalizing twins with
  | nil =>
      cases twinPossible
      exact .nil
  | cons isPossible _ ih =>
      rcases twinPossible with _ | ⟨isTwinPossible, twinsPossible⟩
      rcases List.cons.inj keys with ⟨key, keys⟩
      refine .cons ⟨key, fun onObject twinOnObject => ?_⟩ (ih twinsPossible keys)
      exact (parentType_eq_of_isOnObject onObject isPossible).trans
        (parentType_eq_of_isOnObject twinOnObject isTwinPossible).symm

/-- All objects on a way to where a field stands have the types that it and the fields around it are
selected on. -/
theorem StandsAt.isPossible {assignment : Assignment} {way : List Execution.Step} {object : Name}
    (stands : first.StandsAt project root place around)
    (isAt : place.IsAt project.schema assignment way object) :
    List.Forall₂ (fun field object => project.schema.isPossible field.parentType object = true)
      (around ++ [first]) (way.map (·.object) ++ [object]) := by
  have types := stands.lies.types assignment way object isAt
  rw [forall₂_append_singleton_iff] at types ⊢
  exact types.imp_left List.forall₂_map_left_iff.mp

namespace ConflictsAt

variable (conflicts : ConflictsAt project root place around first others second)

include conflicts

/-- Fields in conflict, and those around them, have the same response keys, level by level. -/
theorem keys : (around ++ [first]).map (·.field.responseKey)
    = (others ++ [second]).map (·.field.responseKey) := by
  rw [List.map_append, List.map_append, ← conflicts.stands.lies.keys,
    ← conflicts.otherStands.lies.keys, List.map_singleton, List.map_singleton, conflicts.key]

/-- In a valid document, fields are told apart only where validation lets them share their key. -/
theorem differAt {schemaText : String} {source : SourceText}
    (valid : Compilation.validated? schemaText [source] = some project.compilation)
    {definition : DefinitionId} (defines : project.compilation.Defines definition root) :
    DifferAt project place first second := by
  rcases Compilation.exists_document valid with ⟨document, isValid, isFragment, isRoot⟩
  have inDocument := isRoot defines
  have below := conflicts.stands.below
  have otherBelow := conflicts.otherStands.below
  rw [isFragment] at below otherBelow
  refine ⟨⟨definition, root, around, others, defines, conflicts⟩,
    Document.haveSameShape_of_isValid isValid inDocument below otherBelow conflicts.keys, ?_⟩
  rintro ⟨assignment, way, object, isAt⟩
  refine Document.exists_selectSame_of_isValid isValid inDocument below otherBelow ?_
  exact forall₂_canCoincide (conflicts.stands.isPossible isAt)
    (conflicts.otherStands.isPossible isAt) conflicts.keys

end ConflictsAt

namespace DifferAt

variable (differ : DifferAt project place first second)

include differ

/-- Where any object can be, fields are told apart only if they have the same name. -/
theorem name (inhabited : place.IsInhabited project.schema) :
    first.field.name = second.field.name := by
  rcases differ.common inhabited with ⟨common, ofFirst, ofSecond⟩
  have isCommon {selected : SelectedField}
      (same : selected = common ∨ Document.selectSame common.field selected.field = true) :
      common.field.name = selected.field.name := by
    rcases same with rfl | same
    · rfl
    · simp only [Document.selectSame, Bool.and_eq_true, beq_iff_eq] at same
      exact same.1.1
  exact (isCommon ofFirst).symm.trans (isCommon ofSecond)

/-- Fields of one name, with one alias and the same arguments are told apart only if they return
different composite types. -/
theorem innerName (sameName : first.field.name = second.field.name)
    (sameAlias : first.field.aliasName = second.field.aliasName)
    (sameArguments : first.field.arguments = second.field.arguments) :
    first.field.type.innerName ≠ second.field.type.innerName
      ∧ project.schema.isCompositeName first.field.type.innerName = true
      ∧ project.schema.isCompositeName second.field.type.innerName = true := by
  refine Document.innerName_of_haveSameShape differ.shape fun sameType => ?_
  rcases differ.conflict with ⟨_, _, _, _, -, conflicts⟩
  have differs := conflicts.differ
  simp [summary, FieldSummary.selectsSame, FieldSummary.ofSelection, sameName, sameAlias,
    sameArguments, sameType] at differs

/-- Where any object can be, fields that are told apart have one name. They differ in how their
alias or their arguments are written, or in the composite types they return. -/
theorem cases (inhabited : place.IsInhabited project.schema) :
    first.field.name = second.field.name
      ∧ (first.field.aliasName ≠ second.field.aliasName
        ∨ first.field.arguments ≠ second.field.arguments
        ∨ first.field.type.innerName ≠ second.field.type.innerName
          ∧ project.schema.isCompositeName first.field.type.innerName = true
          ∧ project.schema.isCompositeName second.field.type.innerName = true) := by
  have sameName := differ.name inhabited
  refine ⟨sameName, ?_⟩
  by_cases sameAlias : first.field.aliasName = second.field.aliasName
  · by_cases sameArguments : first.field.arguments = second.field.arguments
    · exact Or.inr (Or.inr (differ.innerName sameName sameAlias sameArguments))
    · exact Or.inr (Or.inl sameArguments)
  · exact Or.inl sameAlias

end DifferAt

end SelectedField

end ResponseShape
