import ResponseShape.Compilation
import ResponseShape.Proofs.Inclusion.Directives
import ResponseShape.Proofs.Schema.PossibleObjects

/-!
# Collecting fields

How execution finds the fields of one object, and of the objects below it. `Execution.fields` goes
through selections as execution does: it enters an inline fragment or a spread that applies to the
object, and each fragment only once. `Execution.Reaches` says what it finds without that
bookkeeping, and `Execution.mem_fields_iff` that both agree.

On the objects that a field returns, execution makes the selections of all fields it collected under
the field's response key, so `Execution.selectionsAlong` follows the keys from a root down.
-/

namespace ResponseShape

/-- Whether execution selects a field that it reaches. -/
def FieldSelection.isIncluded (assignment : Assignment) (field : FieldSelection) : Bool :=
  Directive.allLetThrough assignment field.directives

/-- A field as execution collects it: one selection of it, and the selections made there. -/
structure CollectedField where
  field : FieldSelection
  selections : List Selection
deriving Inhabited

/-- The key under which the response holds the field. -/
def CollectedField.responseKey (collected : CollectedField) : Name := collected.field.responseKey

theorem Selection.sizeOfAll_append (selections others : List Selection) :
    sizeOfAll (selections ++ others) = sizeOfAll selections + sizeOfAll others := by
  induction selections with
  | nil => simp [sizeOfAll]
  | cons selection rest ih => simp [sizeOfAll, ih, Nat.add_assoc]

namespace Execution

/-- Whether a fragment applies to an object. -/
def applies (schema : Schema) (object : Name) (assignment : Assignment)
    (typeCondition : Option Name) (directives : List Directive) : Bool :=
  Directive.allLetThrough assignment directives && typeCondition.all (schema.isPossible · object)

/-- The fields that selections reach on an object, those that are to be kept. Fragments are entered
where they are met first. -/
def fieldsFrom (schema : Schema) (object : Name) (assignment : Assignment)
    (keeps : FieldSelection → Bool) (unvisited : List Fragment) :
    List Selection → List CollectedField
  | [] => []
  | .field field selections :: rest =>
      if keeps field then
        ⟨field, selections⟩ :: fieldsFrom schema object assignment keeps unvisited rest
      else fieldsFrom schema object assignment keeps unvisited rest
  | .inlineFragment typeCondition directives selections :: rest =>
      if applies schema object assignment typeCondition directives then
        fieldsFrom schema object assignment keeps unvisited (selections ++ rest)
      else fieldsFrom schema object assignment keeps unvisited rest
  | .fragmentSpread name directives :: rest =>
      if Directive.allLetThrough assignment directives then
        match _ : unvisited.find? (·.name == name) with
        | some fragment =>
            let others := unvisited.eraseP (·.name == name)
            if schema.isPossible fragment.typeCondition object then
              fieldsFrom schema object assignment keeps others (fragment.selections ++ rest)
            else fieldsFrom schema object assignment keeps others rest
        | none => fieldsFrom schema object assignment keeps unvisited rest
      else fieldsFrom schema object assignment keeps unvisited rest
termination_by selections => Document.fragmentsSize unvisited + Selection.sizeOfAll selections
decreasing_by
  all_goals simp only [Selection.sizeOfAll, Selection.size, Selection.sizeOfAll_append]
  · omega
  · omega
  · omega
  · omega
  · have := Document.fragmentsSize_eraseP ‹unvisited.find? _ = some _›
    omega
  · have := Document.fragmentsSize_eraseP ‹unvisited.find? _ = some _›
    omega
  · omega
  · omega

/-- The fields that selections reach on an object of a compilation, those that are to be kept. -/
def fields (compilation : Compilation) (object : Name) (assignment : Assignment)
    (keeps : FieldSelection → Bool) (selections : List Selection) : List CollectedField :=
  fieldsFrom compilation.schema object assignment keeps (compilation.fragments.map (·.2)) selections

/-- The fields that execution collects on an object. -/
def collectFields (compilation : Compilation) (object : Name) (assignment : Assignment)
    (selections : List Selection) : List CollectedField :=
  fields compilation object assignment (·.isIncluded assignment) selections

/-- A step of the way into a response: an object, and the key under which it holds the next one. -/
structure Step where
  object : Name
  key : Name
deriving DecidableEq, Inhabited

/-- The selections made on the objects at the end of a way into the response. At each step those of
all the kept fields under the step's key are taken together. -/
def selectionsAlong (compilation : Compilation) (assignment : Assignment)
    (keeps : FieldSelection → Bool) : List Step → List Selection → List Selection
  | [], selections => selections
  | step :: rest, selections =>
      selectionsAlong compilation assignment keeps rest
        (((fields compilation step.object assignment keeps selections).filter
          (·.responseKey == step.key)).flatMap (·.selections))

/-- What execution selects on the objects at the end of a way into the response. -/
def executed (compilation : Compilation) (assignment : Assignment) (way : List Step)
    (object : Name) (selections : List Selection) : List CollectedField :=
  collectFields compilation object assignment
    (selectionsAlong compilation assignment (·.isIncluded assignment) way selections)

/-- The fields that selections reach on an object through inline fragments and spreads that apply to
it, whatever the directives of the fields themselves say. -/
inductive Reaches (schema : Schema) (fragment? : Name → Option Fragment) (object : Name)
    (assignment : Assignment) : List Selection → CollectedField → Prop where
  | field {selections : List Selection} {field : FieldSelection} {below : List Selection}
      (mem : .field field below ∈ selections) :
      Reaches schema fragment? object assignment selections ⟨field, below⟩
  | inlineFragment {selections inner : List Selection} {typeCondition : Option Name}
      {directives : List Directive} {collected : CollectedField}
      (mem : .inlineFragment typeCondition directives inner ∈ selections)
      (entered : applies schema object assignment typeCondition directives = true)
      (reached : Reaches schema fragment? object assignment inner collected) :
      Reaches schema fragment? object assignment selections collected
  | fragmentSpread {selections : List Selection} {name : Name} {directives : List Directive}
      {fragment : Fragment} {collected : CollectedField}
      (mem : .fragmentSpread name directives ∈ selections)
      (found : fragment? name = some fragment)
      (entered : applies schema object assignment (some fragment.typeCondition) directives = true)
      (reached : Reaches schema fragment? object assignment fragment.selections collected) :
      Reaches schema fragment? object assignment selections collected

namespace Reaches

variable {schema : Schema} {fragment? : Name → Option Fragment} {object : Name}
  {assignment : Assignment} {selections others : List Selection} {collected : CollectedField}

theorem exists_mem (reached : Reaches schema fragment? object assignment selections collected) :
    ∃ selection ∈ selections, Reaches schema fragment? object assignment [selection] collected := by
  cases reached with
  | field mem => exact ⟨_, mem, .field (by simp)⟩
  | inlineFragment mem entered reached =>
      exact ⟨_, mem, .inlineFragment (by simp) entered reached⟩
  | fragmentSpread mem found entered reached =>
      exact ⟨_, mem, .fragmentSpread (by simp) found entered reached⟩

theorem mono (subset : ∀ selection ∈ selections, selection ∈ others)
    (reached : Reaches schema fragment? object assignment selections collected) :
    Reaches schema fragment? object assignment others collected := by
  cases reached with
  | field mem => exact .field (subset _ mem)
  | inlineFragment mem entered reached => exact .inlineFragment (subset _ mem) entered reached
  | fragmentSpread mem found entered reached =>
      exact .fragmentSpread (subset _ mem) found entered reached

theorem iff_exists_mem : Reaches schema fragment? object assignment selections collected ↔
    ∃ selection ∈ selections, Reaches schema fragment? object assignment [selection] collected := by
  refine ⟨exists_mem, ?_⟩
  rintro ⟨selection, mem, reached⟩
  exact reached.mono (by simpa using mem)

theorem append_iff : Reaches schema fragment? object assignment (selections ++ others) collected ↔
    Reaches schema fragment? object assignment selections collected
      ∨ Reaches schema fragment? object assignment others collected := by
  rw [iff_exists_mem, @iff_exists_mem _ _ _ _ selections, @iff_exists_mem _ _ _ _ others]
  simp only [List.mem_append, or_and_right, exists_or]

theorem not_nil : ¬Reaches schema fragment? object assignment [] collected := by
  rw [iff_exists_mem]
  simp

theorem cons_iff {selection : Selection} :
    Reaches schema fragment? object assignment (selection :: others) collected ↔
      Reaches schema fragment? object assignment [selection] collected
        ∨ Reaches schema fragment? object assignment others collected := by
  rw [← List.singleton_append, append_iff]

theorem field_iff {field : FieldSelection} {below : List Selection} :
    Reaches schema fragment? object assignment [.field field below] collected ↔
      collected = ⟨field, below⟩ := by
  constructor
  · intro reached
    cases reached with
    | field mem => simp_all
    | inlineFragment mem => simp at mem
    | fragmentSpread mem => simp at mem
  · rintro rfl
    exact .field (by simp)

theorem inlineFragment_iff {typeCondition : Option Name} {directives : List Directive}
    {inner : List Selection} :
    Reaches schema fragment? object assignment [.inlineFragment typeCondition directives inner]
        collected ↔
      applies schema object assignment typeCondition directives = true
        ∧ Reaches schema fragment? object assignment inner collected := by
  constructor
  · intro reached
    cases reached with
    | field mem => simp at mem
    | inlineFragment mem entered reached =>
        simp only [List.mem_singleton, Selection.inlineFragment.injEq] at mem
        rcases mem with ⟨rfl, rfl, rfl⟩
        exact ⟨entered, reached⟩
    | fragmentSpread mem => simp at mem
  · rintro ⟨entered, reached⟩
    exact .inlineFragment (by simp) entered reached

theorem fragmentSpread_iff {name : Name} {directives : List Directive} :
    Reaches schema fragment? object assignment [.fragmentSpread name directives] collected ↔
      ∃ fragment, fragment? name = some fragment
        ∧ applies schema object assignment (some fragment.typeCondition) directives = true
        ∧ Reaches schema fragment? object assignment fragment.selections collected := by
  constructor
  · intro reached
    cases reached with
    | field mem => simp at mem
    | inlineFragment mem => simp at mem
    | fragmentSpread mem found entered reached =>
        simp only [List.mem_singleton, Selection.fragmentSpread.injEq] at mem
        rcases mem with ⟨rfl, rfl⟩
        exact ⟨_, found, entered, reached⟩
  · rintro ⟨fragment, found, entered, reached⟩
    exact .fragmentSpread (by simp) found entered reached

/-- A fragment needs to be entered once only: what is reached through it again is also reached from
where it was entered last. -/
theorem enter_once {name : Name} {fragment : Fragment} (found : fragment? name = some fragment)
    (reached : Reaches schema fragment? object assignment selections collected) :
    Reaches schema (fun other => if other = name then none else fragment? other) object assignment
        selections collected
      ∨ schema.isPossible fragment.typeCondition object = true
        ∧ Reaches schema (fun other => if other = name then none else fragment? other) object
          assignment fragment.selections collected := by
  induction reached with
  | field mem => exact Or.inl (.field mem)
  | inlineFragment mem entered _ ih =>
      rcases ih with direct | again
      · exact Or.inl (.inlineFragment mem entered direct)
      · exact Or.inr again
  | @fragmentSpread _ other _ spread _ mem otherFound entered _ ih =>
      rcases ih with direct | again
      · by_cases same : other = name
        · subst same
          rw [found, Option.some.injEq] at otherFound
          subst otherFound
          simp only [applies, Option.all_some, Bool.and_eq_true] at entered
          exact Or.inr ⟨entered.2, direct⟩
        · exact Or.inl (.fragmentSpread mem (by simpa [same] using otherFound) entered direct)
      · exact Or.inr again

theorem of_forget {name : Name}
    (reached : Reaches schema (fun other => if other = name then none else fragment? other) object
      assignment selections collected) :
    Reaches schema fragment? object assignment selections collected := by
  induction reached with
  | field mem => exact .field mem
  | inlineFragment mem entered _ ih => exact .inlineFragment mem entered ih
  | fragmentSpread mem found entered _ ih =>
      refine .fragmentSpread mem ?_ entered ih
      split at found
      · cases found
      · exact found

end Reaches

section Fields

variable {schema : Schema} {object : Name} {assignment : Assignment}
  {keeps : FieldSelection → Bool} {collected : CollectedField}

/-- Without a fragment that was entered, the others are still found by their names. -/
theorem find?_eraseP {fragments : List Fragment} (nodup : (fragments.map (·.name)).Nodup)
    (name other : Name) :
    (fragments.eraseP (·.name == name)).find? (·.name == other)
      = if other = name then none else fragments.find? (·.name == other) := by
  induction fragments with
  | nil => simp
  | cons fragment rest ih =>
      simp only [List.map_cons, List.nodup_cons] at nodup
      by_cases isErased : fragment.name = name
      · subst isErased
        rw [List.eraseP_cons_of_pos (by simp)]
        split
        next same =>
          subst same
          rw [List.find?_eq_none]
          intro twin mem
          simp only [beq_iff_eq]
          exact fun same => nodup.1 (List.mem_map.mpr ⟨twin, mem, same⟩)
        next differs =>
          rw [List.find?_cons_of_neg (by simpa using fun same => differs same.symm)]
      · rw [List.eraseP_cons_of_neg (by simpa using isErased)]
        by_cases isFound : fragment.name = other
        · subst isFound
          simp [isErased]
        · rw [List.find?_cons_of_neg (by simpa using isFound),
            List.find?_cons_of_neg (by simpa using isFound), ih nodup.2]

/-- Entering each fragment only once, execution keeps what there is to keep of all it reaches. -/
theorem mem_fieldsFrom_iff {unvisited : List Fragment} {selections : List Selection}
    (nodup : (unvisited.map (·.name)).Nodup) :
    collected ∈ fieldsFrom schema object assignment keeps unvisited selections ↔
      Reaches schema (fun name => unvisited.find? (·.name == name)) object assignment selections
          collected
        ∧ keeps collected.field = true := by
  -- An entered fragment is no longer looked up afterwards, though execution may reach it again:
  -- what it leads to is then found where it was entered.
  fun_induction fieldsFrom schema object assignment keeps unvisited selections with
  | case1 => simp [Reaches.not_nil]
  | case2 unvisited field below rest isKept ih =>
      rw [List.mem_cons, ih nodup, Reaches.cons_iff, Reaches.field_iff, or_and_right]
      refine or_congr_left ⟨?_, And.left⟩
      rintro rfl
      exact ⟨rfl, isKept⟩
  | case3 unvisited field below rest isDropped ih =>
      rw [ih nodup, Reaches.cons_iff, Reaches.field_iff, or_and_right]
      refine (or_iff_right ?_).symm
      rintro ⟨rfl, isKept⟩
      exact isDropped isKept
  | case4 unvisited typeCondition directives inner rest entered ih =>
      rw [ih nodup, Reaches.append_iff, Reaches.cons_iff, Reaches.inlineFragment_iff]
      simp [entered]
  | case5 unvisited typeCondition directives inner rest skipped ih =>
      rw [ih nodup, Reaches.cons_iff, Reaches.inlineFragment_iff]
      simp [skipped]
  | case6 unvisited name directives rest letThrough fragment found others possible ih =>
      have lookup := find?_eraseP nodup name
      rw [ih (nodup.sublist (List.eraseP_sublist.map _)), Reaches.append_iff, Reaches.cons_iff,
        Reaches.fragmentSpread_iff]
      refine and_congr_left' ⟨?_, ?_⟩
      · simp only [others, lookup]
        rintro (below | after)
        · refine Or.inl ⟨fragment, found, ?_, below.of_forget⟩
          simp [applies, letThrough, possible]
        · exact Or.inr after.of_forget
      · simp only [others, lookup]
        rintro (⟨same, sameFound, -, below⟩ | after)
        · rw [found, Option.some.injEq] at sameFound
          subst sameFound
          exact Or.inl ((Reaches.enter_once found below).elim id (·.2))
        · exact (Reaches.enter_once found after).elim Or.inr fun again => Or.inl again.2
  | case7 unvisited name directives rest letThrough fragment found others impossible ih =>
      have lookup := find?_eraseP nodup name
      rw [ih (nodup.sublist (List.eraseP_sublist.map _)), Reaches.cons_iff,
        Reaches.fragmentSpread_iff]
      refine and_congr_left' ⟨?_, ?_⟩
      · simp only [others, lookup]
        exact fun after => Or.inr after.of_forget
      · simp only [others, lookup]
        rintro (⟨same, sameFound, entered, -⟩ | after)
        · rw [found, Option.some.injEq] at sameFound
          subst sameFound
          simp [applies, impossible] at entered
        · exact (Reaches.enter_once found after).elim id fun again => absurd again.1 impossible
  | case8 unvisited name directives rest letThrough unknown ih =>
      rw [ih nodup, Reaches.cons_iff, Reaches.fragmentSpread_iff]
      simp [unknown]
  | case9 unvisited name directives rest skipped ih =>
      rw [ih nodup, Reaches.cons_iff, Reaches.fragmentSpread_iff]
      simp [applies, skipped]

end Fields

end Execution

namespace Compilation

variable {compilation : Compilation}

/-- The definition that spreads of a name resolve to. -/
def spreadFragment? (compilation : Compilation) (name : Name) : Option Fragment :=
  (compilation.fragment? name).map (·.2)

section Lookups

variable {name : Name} {fragment : Fragment} {definition : DocumentFile × Fragment}

theorem name_of_fragment? (found : compilation.fragment? name = some definition) :
    definition.2.name = name := by
  simpa using List.find?_some found

theorem spreadFragment?_of_fragment? (found : compilation.fragment? name = some definition) :
    compilation.spreadFragment? name = some definition.2 := by
  rw [spreadFragment?, found, Option.map_some]

theorem exists_fragment?_of_spreadFragment?
    (isFragment : compilation.spreadFragment? name = some fragment) :
    ∃ document, compilation.fragment? name = some (document, fragment) := by
  rcases Option.map_eq_some_iff.mp isFragment with ⟨⟨document, _⟩, found, rfl⟩
  exact ⟨document, found⟩

theorem name_of_spreadFragment? (isFragment : compilation.spreadFragment? name = some fragment) :
    fragment.name = name := by
  rcases exists_fragment?_of_spreadFragment? isFragment with ⟨_, found⟩
  exact name_of_fragment? found

end Lookups

theorem validated?_schema {schema : String} {sources : List SourceText}
    (valid : validated? schema sources = some compilation) :
    Schema.validated? schema = some compilation.schema := by
  simp only [validated?, read?, Option.bind_eq_bind, Option.bind_eq_some_iff] at valid
  rcases valid with ⟨known, isKnown, documents, -, same⟩
  rw [isKnown, ← Option.some.inj same]

theorem isValid_of_mem {schema : String} {sources : List SourceText} {document : DocumentFile}
    (valid : validated? schema sources = some compilation)
    (mem : document ∈ compilation.documents) :
    document.document.isValid compilation.schema = true := by
  simp only [validated?, read?, Option.bind_eq_bind, Option.bind_eq_some_iff] at valid
  rcases valid with ⟨known, -, documents, reads, same⟩
  rcases Option.some.inj same with rfl
  rcases exists_mem_of_forall₂_right (forall₂_of_mapM reads) mem with ⟨source, -, isRead⟩
  simp only [Option.bind_eq_some_iff] at isRead
  rcases isRead with ⟨found, isValid, same⟩
  rcases Option.some.inj same with rfl
  simp only [Document.validated?, Option.bind_eq_bind, Option.bind_eq_some_iff] at isValid
  rcases isValid with ⟨assumed, -, checked⟩
  split at checked
  next checks =>
    rcases Option.some.inj checked with rfl
    exact checks
  next => cases checked

theorem nodup_operations {schema : String} {sources : List SourceText} {document : DocumentFile}
    (valid : validated? schema sources = some compilation)
    (mem : document ∈ compilation.documents) :
    (document.document.operations.map (·.name)).Nodup := by
  have isValid := isValid_of_mem valid mem
  simp only [Document.isValid, Bool.and_eq_true] at isValid
  have distinct := isValid.1.1.1.1.1
  simp only [Document.operationsAreDistinct] at distinct
  split at distinct
  next isAnonymous =>
    rcases List.length_eq_one_iff.mp (by simpa using distinct) with ⟨operation, alone⟩
    rw [alone]
    exact List.nodup_singleton _
  next => exact nodup_of_areDistinct distinct

theorem find?_fragments_go (seen : List Name) (definitions : List (DocumentFile × Fragment))
    (name : Name) :
    (fragments.go seen definitions).find? (·.2.name == name)
      = if name ∈ seen then none else definitions.find? (·.2.name == name) := by
  induction definitions generalizing seen with
  | nil => simp [fragments.go]
  | cons definition rest ih =>
      rcases definition with ⟨document, fragment⟩
      simp only [fragments.go]
      by_cases isName : fragment.name = name
      · subst isName
        split
        next isSeen =>
          have : fragment.name ∈ seen := by simpa using isSeen
          simp [ih, this]
        next isFresh =>
          have : fragment.name ∉ seen := by simpa using isFresh
          simp [this]
      · have isOther : ((document, fragment).2.name == name) = false := by simpa using isName
        split
        next => rw [ih, List.find?_cons_of_neg (by simp [isName])]
        next =>
          rw [List.find?_cons_of_neg (by simp [isName]), ih,
            List.find?_cons_of_neg (by simp [isName])]
          simp [Ne.symm isName]

theorem nodup_fragments_go (seen : List Name) (definitions : List (DocumentFile × Fragment)) :
    ((fragments.go seen definitions).map (·.2.name)).Nodup
      ∧ ∀ name ∈ (fragments.go seen definitions).map (·.2.name), name ∉ seen := by
  induction definitions generalizing seen with
  | nil => simp [fragments.go]
  | cons definition rest ih =>
      rcases definition with ⟨document, fragment⟩
      simp only [fragments.go]
      split
      next => exact ih seen
      next isFresh =>
        rcases ih (fragment.name :: seen) with ⟨nodup, fresh⟩
        refine ⟨List.nodup_cons.mpr ⟨fun mem => fresh _ mem (by simp), nodup⟩, ?_⟩
        intro name mem
        rcases List.mem_cons.mp mem with rfl | later
        · simpa using isFresh
        · exact fun isSeen => fresh name later (by simp [isSeen])

/-- The first definitions of fragments are those that spreads resolve to. -/
theorem find?_fragments (compilation : Compilation) (name : Name) :
    (compilation.fragments.map (·.2)).find? (·.name == name)
      = compilation.spreadFragment? name := by
  rw [List.find?_map, spreadFragment?, fragment?]
  have found := find?_fragments_go [] compilation.fragmentDefinitions name
  simp only [List.not_mem_nil, if_false] at found
  rw [← found]
  rfl

theorem nodup_fragments (compilation : Compilation) :
    ((compilation.fragments.map (·.2)).map (·.name)).Nodup := by
  have nodup := (nodup_fragments_go [] compilation.fragmentDefinitions).1
  simpa [Function.comp_def, fragments] using nodup

/-- What a compilation's selections reach on an object. -/
abbrev Reaches (compilation : Compilation) (object : Name) (assignment : Assignment)
    (selections : List Selection) (collected : CollectedField) : Prop :=
  Execution.Reaches compilation.schema compilation.spreadFragment? object assignment selections
    collected

end Compilation

namespace Execution

variable {compilation : Compilation} {object : Name} {assignment : Assignment}
  {keeps : FieldSelection → Bool} {selections : List Selection} {collected : CollectedField}

/-- Execution keeps, of all the fields that it reaches, those that there are to keep. -/
theorem mem_fields_iff :
    collected ∈ fields compilation object assignment keeps selections ↔
      compilation.Reaches object assignment selections collected
        ∧ keeps collected.field = true := by
  rw [fields, mem_fieldsFrom_iff compilation.nodup_fragments]
  simp only [Compilation.find?_fragments, Compilation.Reaches]

/-- A way goes on from what is selected at the end of its start. -/
theorem selectionsAlong_append (way more : List Step) :
    selectionsAlong compilation assignment keeps (way ++ more) selections
      = selectionsAlong compilation assignment keeps more
        (selectionsAlong compilation assignment keeps way selections) := by
  induction way generalizing selections with
  | nil => rfl
  | cons step rest ih => exact ih

theorem selectionsAlong_append_singleton (way : List Step) (step : Step) :
    selectionsAlong compilation assignment keeps (way ++ [step]) selections
      = ((fields compilation step.object assignment keeps
        (selectionsAlong compilation assignment keeps way selections)).filter
          (·.responseKey == step.key)).flatMap (·.selections) := by
  rw [selectionsAlong_append]
  rfl

theorem mem_collectFields_iff :
    collected ∈ collectFields compilation object assignment selections ↔
      compilation.Reaches object assignment selections collected
        ∧ collected.field.isIncluded assignment = true := mem_fields_iff

end Execution

end ResponseShape
