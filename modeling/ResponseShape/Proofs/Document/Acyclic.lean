import ResponseShape.Proofs.Definition.Inlining
import ResponseShape.Proofs.Document.SelfContained
import ResponseShape.Proofs.Text.Bytes

/-!
# Spreads across documents

Each document is checked on its own, but a fragment is looked up in all of them, and of several
definitions the first one counts. Still no fragment comes to spread itself: along spreads the place
of the defining document among the documents never grows, so a cycle would lie in a single one
(`Compilation.isAcyclic_of_isSelfContained`).
-/

namespace ResponseShape

/-- Whether no fragment spreads itself, directly or through others. -/
def Compilation.IsAcyclic (compilation : Compilation) : Prop :=
  ∀ name fragment, compilation.spreadFragment? name = some fragment →
    ¬compilation.Spreads name fragment.selections

namespace Compilation

variable {compilation : Compilation} {name other : Name} {fragment : Fragment}

/-- The place of the first document that defines a fragment. -/
def home (compilation : Compilation) (name : Name) : Nat :=
  compilation.documents.findIdx fun file => (file.document.fragment? name).isSome

theorem fragment?_eq_findSome? : compilation.fragment? name
    = compilation.documents.findSome? fun file => (file.document.fragment? name).map (file, ·) := by
  simp only [fragment?, fragmentDefinitions, List.find?_flatMap, List.find?_map, Document.fragment?]
  rfl

/-- A fragment is looked up in the first document that defines it. -/
theorem exists_home (found : compilation.spreadFragment? name = some fragment) :
    ∃ file, compilation.documents[compilation.home name]? = some file
      ∧ file.document.fragment? name = some fragment := by
  simp only [spreadFragment?, fragment?_eq_findSome?, Option.map_eq_some_iff] at found
  rcases found with ⟨⟨file, _⟩, isFirst, rfl⟩
  rcases List.findSome?_eq_some_iff.mp isFirst with ⟨before, other, after, split, isHere, earlier⟩
  rcases Option.map_eq_some_iff.mp isHere with ⟨fragment, isFragment, same⟩
  rcases Prod.mk.inj same with ⟨rfl, rfl⟩
  have isHome : compilation.home name = before.length := by
    have undefined : before.findIdx (fun file => (file.document.fragment? name).isSome)
        = before.length := by
      refine List.findIdx_eq_length.mpr fun file mem => ?_
      rw [Option.map_eq_none_iff.mp (earlier file mem), Option.isSome_none]
    rw [home, split, List.findIdx_append, undefined]
    simp [List.findIdx_cons, isFragment]
  refine ⟨other, ?_, isFragment⟩
  rw [isHome, split]
  simp

theorem isSome_fragment?_of_mem {file : DocumentFile} (mem : file ∈ compilation.documents)
    (isDefined : (file.document.fragment? name).isSome = true) :
    (compilation.fragment? name).isSome = true := by
  rw [fragment?_eq_findSome?, List.findSome?_isSome_iff]
  exact ⟨file, mem, by rw [Option.isSome_map, isDefined]⟩

theorem home_le {index : Nat} {file : DocumentFile}
    (isFile : compilation.documents[index]? = some file)
    (isDefined : (file.document.fragment? name).isSome = true) :
    compilation.home name ≤ index := by
  by_contra isBefore
  rcases List.getElem?_eq_some_iff.mp isFile with ⟨isIndex, rfl⟩
  have undefined := List.not_of_lt_findIdx (Nat.lt_of_not_le isBefore)
  rw [isDefined] at undefined
  cases undefined

section SelfContained

variable (selfContained : ∀ file ∈ compilation.documents, file.document.IsSelfContained)

include selfContained

theorem isSome_of_spreads (found : compilation.spreadFragment? name = some fragment)
    (isSpread : other ∈ Selection.spreadsOfAll fragment.selections) :
    (compilation.fragment? other).isSome = true := by
  rcases exists_home found with ⟨file, isFile, isFragment⟩
  have mem := List.mem_of_getElem? isFile
  exact isSome_fragment?_of_mem mem ((selfContained file mem).fragments fragment
    (List.mem_of_find?_eq_some isFragment) other isSpread)

/-- What a fragment spreads is at home where the fragment is, or before. -/
theorem home_le_of_spreads (found : compilation.spreadFragment? name = some fragment)
    (isSpread : other ∈ Selection.spreadsOfAll fragment.selections) :
    compilation.home other ≤ compilation.home name
      ∧ ∃ file, compilation.documents[compilation.home name]? = some file
        ∧ file.document.SpreadsDirectly name other := by
  rcases exists_home found with ⟨file, isFile, isFragment⟩
  have isDefined := (selfContained file (List.mem_of_getElem? isFile)).fragments fragment
    (List.mem_of_find?_eq_some isFragment) other isSpread
  refine ⟨home_le isFile isDefined, file, isFile, ?_⟩
  rw [Document.SpreadsDirectly, Document.spreadsOf, Document.selectionsOf, isFragment]
  exact isSpread

/-- What a fragment reaches is at home where the fragment is, or before; if it is there, it is
reached within that document. -/
theorem home_le_of_reaches {selections : List Selection}
    (spreads : compilation.Spreads other selections)
    (found : compilation.spreadFragment? name = some fragment)
    (isOf : fragment.selections = selections) :
    compilation.home other ≤ compilation.home name
      ∧ (compilation.home other = compilation.home name →
        ∃ file, compilation.documents[compilation.home name]? = some file
          ∧ Relation.TransGen file.document.SpreadsDirectly name other) := by
  induction spreads generalizing name fragment with
  | written mem =>
      subst isOf
      rcases home_le_of_spreads selfContained found mem with ⟨le, file, isFile, direct⟩
      exact ⟨le, fun _ => ⟨file, isFile, .single direct⟩⟩
  | @fragment _ between _ mem isFragment _ ih =>
      subst isOf
      rcases home_le_of_spreads selfContained found mem with ⟨le, file, isFile, direct⟩
      rcases ih isFragment rfl with ⟨further, within⟩
      refine ⟨further.trans le, fun same => ?_⟩
      have sameHome : compilation.home between = compilation.home name :=
        le_antisymm le (same ▸ further)
      rcases within (same.trans sameHome.symm) with ⟨inside, isInside, reaches⟩
      rw [sameHome, isFile, Option.some.injEq] at isInside
      subst isInside
      exact ⟨file, isFile, .head direct reaches⟩

/-- If each document is free of cycles, then so is what the first definitions of fragments spread in
all of them together. -/
theorem isAcyclic_of_isSelfContained : compilation.IsAcyclic := by
  intro name fragment found spreads
  rcases (home_le_of_reaches selfContained spreads found rfl).2 rfl with ⟨file, isFile, cycle⟩
  exact (selfContained file (List.mem_of_getElem? isFile)).acyclic name cycle

end SelfContained

end Compilation

namespace Sample

variable (sample : Sample)

theorem areSelfContained :
    ∀ file ∈ sample.project.compilation.documents, file.document.IsSelfContained := fun _ mem =>
  Document.isSelfContained_of_isValid (Compilation.isValid_of_mem sample.validated?_eq_some mem)

theorem isAcyclic : sample.project.compilation.IsAcyclic :=
  Compilation.isAcyclic_of_isSelfContained sample.areSelfContained

end Sample

end ResponseShape
