import Mathlib.Logic.Relation
import ResponseShape.Proofs.Document.Making

/-!
# Self-contained documents

A document is self-contained if all that it spreads is defined in it and no fragment reaches itself
through its spreads. Valid documents are (`Document.isSelfContained_of_isValid`): following the
spreads below a fragment comes to all that it reaches, and would have been stopped at the fragment
itself; and as some operation reaches every fragment, all spreads are looked at.
-/

namespace ResponseShape

namespace Document

variable {document : Document}

/-- Whether a fragment of a document spreads another one itself. -/
def SpreadsDirectly (document : Document) (name other : Name) : Prop :=
  other ∈ document.spreadsOf name

/-- Whether all that is spread in a document is defined there, and no fragment reaches itself
through spreads of the document. -/
structure IsSelfContained (document : Document) : Prop where
  operations : ∀ operation ∈ document.operations,
    ∀ name ∈ Selection.spreadsOfAll operation.selections, (document.fragment? name).isSome = true
  fragments : ∀ fragment ∈ document.fragments,
    ∀ name ∈ Selection.spreadsOfAll fragment.selections, (document.fragment? name).isSome = true
  acyclic : ∀ name, ¬Relation.TransGen document.SpreadsDirectly name name

section Following

variable {root name : Name} {length : Nat} {seen result : List Name}

/-- Following a spread comes to all that is spread in what it comes to, and never to the root. -/
theorem followSpread_finishes
    (run : document.followSpread root length seen name = some result) :
    seen ⊆ result ∧ name ∈ result
      ∧ ∀ other ∈ result, other ∈ seen ∨ other ≠ root ∧ document.spreadsOf other ⊆ result := by
  induction length generalizing seen name result with
  | zero =>
      simp only [followSpread] at run
      split at run
      next => cases run
      next =>
        split at run
        next isSeen =>
          rcases Option.some.inj run with rfl
          exact ⟨List.Subset.refl _, List.contains_iff_mem.mp isSeen, fun _ => Or.inl⟩
        next => cases run
  | succ length ih =>
      simp only [followSpread] at run
      split at run
      next => cases run
      next isOther =>
        split at run
        next isSeen =>
          rcases Option.some.inj run with rfl
          exact ⟨List.Subset.refl _, List.contains_iff_mem.mp isSeen, fun _ => Or.inl⟩
        next =>
          -- What is finished stays so while more is seen.
          have finishes := foldlM_finishes (fun after member => member ∈ after)
            (fun after other => other ≠ root ∧ document.spreadsOf other ⊆ after)
            (fun _ _ _ subset mem => subset mem)
            (fun _ _ _ subset finished => ⟨finished.1, List.Subset.trans finished.2 subset⟩)
            (fun _ _ _ once => ih once) run
          rcases finishes with ⟨subset, areSpread, finishes⟩
          refine ⟨fun _ mem => subset (List.mem_cons_of_mem _ mem), subset List.mem_cons_self, ?_⟩
          intro other mem
          rcases finishes other mem with isStart | isFinished
          · rcases List.mem_cons.mp isStart with rfl | isSeen
            · exact Or.inr ⟨by simpa using isOther, areSpread⟩
            · exact Or.inl isSeen
          · exact Or.inr isFinished

/-- What can be followed to its end reaches no fragment from itself. -/
theorem not_transGen_of_spreadsAreBounded (bounded : document.spreadsAreBounded = true) :
    ¬Relation.TransGen document.SpreadsDirectly name name := by
  intro cycle
  rcases Relation.TransGen.head'_iff.mp cycle with ⟨next, isNext, back⟩
  have isDefined : ∃ fragment ∈ document.fragments, fragment.name = name := by
    simp only [SpreadsDirectly, spreadsOf, selectionsOf] at isNext
    cases found : document.fragment? name with
    | none => simp [found, Selection.spreadsOfAll] at isNext
    | some fragment =>
        exact ⟨fragment, List.mem_of_find?_eq_some found, by simpa using List.find?_some found⟩
  rcases isDefined with ⟨fragment, mem, rfl⟩
  rcases Option.isSome_iff_exists.mp (List.all_eq_true.mp bounded fragment mem) with ⟨result, run⟩
  have finishes := foldlM_finishes (fun after member => member ∈ after)
    (fun after other => other ≠ fragment.name ∧ document.spreadsOf other ⊆ after)
    (fun _ _ _ subset mem => subset mem)
    (fun _ _ _ subset finished => ⟨finished.1, List.Subset.trans finished.2 subset⟩)
    (fun _ _ _ once => followSpread_finishes once) run
  rcases finishes with ⟨-, areSpread, finishes⟩
  have finished {other : Name} (mem : other ∈ result) :
      other ≠ fragment.name ∧ document.spreadsOf other ⊆ result :=
    (finishes other mem).resolve_left List.not_mem_nil
  have reached : fragment.name ∈ result := by
    generalize fragment.name = last at back
    induction back with
    | refl => exact areSpread next isNext
    | tail _ spreads inResult => exact (finished inResult).2 spreads
  exact (finished reached).1 rfl

end Following

section Validity

variable {schema : Schema}

mutual

/-- A valid selection spreads only fragments that are defined. -/
theorem isSome_of_selectionIsValid {declared : List Written.VariableDefinition} {parent : Name} :
    (selection : Selection) →
    selectionIsValid schema document declared parent selection = true →
      ∀ name ∈ selection.spreads, (document.fragment? name).isSome = true
  | .field _ selections, valid => by
      simp only [selectionIsValid, Bool.and_eq_true] at valid
      exact isSome_of_selectionsAreValid selections valid.2
  | .inlineFragment _ _ selections, valid => by
      simp only [selectionIsValid, Bool.and_eq_true] at valid
      exact isSome_of_selectionsAreValid selections valid.2
  | .fragmentSpread name _, valid => by
      simp only [selectionIsValid, Bool.and_eq_true] at valid
      intro other mem
      rw [List.mem_singleton.mp mem]
      rcases (Option.any_eq_true _ _).mp valid.2 with ⟨fragment, found, -⟩
      rw [found, Option.isSome_some]

theorem isSome_of_selectionsAreValid {declared : List Written.VariableDefinition} {parent : Name} :
    (selections : List Selection) →
    selectionsAreValid schema document declared parent selections = true →
      ∀ name ∈ Selection.spreadsOfAll selections, (document.fragment? name).isSome = true
  | [], _ => by simp [Selection.spreadsOfAll]
  | selection :: rest, valid => by
      simp only [selectionsAreValid, Bool.and_eq_true] at valid
      intro name mem
      rcases List.mem_append.mp mem with here | later
      · exact isSome_of_selectionIsValid selection valid.1 name here
      · exact isSome_of_selectionsAreValid rest valid.2 name later

end

theorem isSelfContained_of_isValid (valid : document.isValid schema = true) :
    document.IsSelfContained := by
  have nodup := nodup_names_of_isValid valid
  simp only [isValid, Bool.and_eq_true, List.all_eq_true] at valid
  have ofOperation {operation : Operation} (isOperation : operation ∈ document.operations) :
      document.operationIsValid schema operation = true := valid.1.2 operation isOperation
  simp only [operationIsValid, Bool.and_eq_true, List.all_eq_true] at ofOperation
  constructor
  · intro operation isOperation
    exact isSome_of_selectionsAreValid _ (ofOperation isOperation).1.1.1.1.1.2
  · intro fragment isFragment
    have areUsed := valid.1.1.1.2
    simp only [fragmentsAreValid, Bool.and_eq_true, List.all_eq_true, List.contains_iff_mem,
      List.mem_flatMap] at areUsed
    rcases (areUsed.2 fragment isFragment).2 with ⟨operation, isOperation, isUsed⟩
    have isReached : fragment ∈ document.fragmentsOf operation :=
      List.mem_filterMap.mpr ⟨fragment.name, isUsed, fragment?_name nodup isFragment⟩
    have isValid := (ofOperation isOperation).1.1.1.1.2 fragment isReached
    simp only [fragmentIsValid, Bool.and_eq_true] at isValid
    exact isSome_of_selectionsAreValid _ isValid.2
  · exact fun name => not_transGen_of_spreadsAreBounded valid.1.1.1.1.2

end Validity

end Document

end ResponseShape
