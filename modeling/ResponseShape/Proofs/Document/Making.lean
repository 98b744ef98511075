import ResponseShape.Proofs.Document.Equality
import ResponseShape.Proofs.Execution.CollectedFields
import ResponseShape.Proofs.Ordered

/-!
# The fields that selections make

The fields of selections are made through inline fragments and spreads, each on the type that is
selected on there (`Selection.Makes`). A field lies somewhere below the selections of a definition:
`Selection.MakesBelow` names the fields around it, one for each level. In a valid document some
operation spreads every fragment, so what lies below a fragment lies below an operation, further
down (`Document.exists_operation_of_mem_roots`).
-/

namespace ResponseShape

namespace Selection

/-- The fields that selections on a type make, in themselves or through inline fragments and
spreads. -/
inductive Makes (fragment? : Name → Option Fragment) :
    Name → List Selection → SelectedField → Prop where
  | field {type : Name} {selections below : List Selection} {field : FieldSelection}
      (mem : .field field below ∈ selections) :
      Makes fragment? type selections ⟨type, field, below⟩
  | inlineFragment {type : Name} {selections inner : List Selection} {typeCondition : Option Name}
      {directives : List Directive} {selected : SelectedField}
      (mem : .inlineFragment typeCondition directives inner ∈ selections)
      (makes : Makes fragment? (typeCondition.getD type) inner selected) :
      Makes fragment? type selections selected
  | fragmentSpread {type : Name} {selections : List Selection} {name : Name}
      {directives : List Directive} {fragment : Fragment} {selected : SelectedField}
      (mem : .fragmentSpread name directives ∈ selections) (found : fragment? name = some fragment)
      (makes : Makes fragment? fragment.typeCondition fragment.selections selected) :
      Makes fragment? type selections selected

namespace Makes

variable {fragment? : Name → Option Fragment} {type name : Name}
  {selections others : List Selection} {selected : SelectedField}

theorem mono (makes : Makes fragment? type selections selected)
    (subset : ∀ selection ∈ selections, selection ∈ others) :
    Makes fragment? type others selected := by
  cases makes with
  | field mem => exact .field (subset _ mem)
  | inlineFragment mem makes => exact .inlineFragment (subset _ mem) makes
  | fragmentSpread mem found makes => exact .fragmentSpread (subset _ mem) found makes

theorem exists_mem (makes : Makes fragment? type selections selected) :
    ∃ selection ∈ selections, Makes fragment? type [selection] selected := by
  cases makes with
  | field mem => exact ⟨_, mem, .field (List.mem_singleton_self _)⟩
  | inlineFragment mem makes =>
      exact ⟨_, mem, .inlineFragment (List.mem_singleton_self _) makes⟩
  | fragmentSpread mem found makes =>
      exact ⟨_, mem, .fragmentSpread (List.mem_singleton_self _) found makes⟩

theorem not_nil : ¬ Makes fragment? type [] selected := by
  intro makes
  rcases makes.exists_mem with ⟨_, mem, -⟩
  cases mem

theorem cons_iff {selection : Selection} : Makes fragment? type (selection :: others) selected ↔
    Makes fragment? type [selection] selected ∨ Makes fragment? type others selected := by
  constructor
  · intro makes
    rcases makes.exists_mem with ⟨other, mem, makesOne⟩
    rcases List.mem_cons.mp mem with rfl | later
    · exact Or.inl makesOne
    · exact Or.inr (makesOne.mono (by simpa using later))
  · rintro (makes | makes)
    · exact makes.mono (by simp)
    · exact makes.mono fun _ mem => List.mem_cons_of_mem _ mem

theorem field_iff {field : FieldSelection} {below : List Selection} :
    Makes fragment? type [.field field below] selected ↔ selected = ⟨type, field, below⟩ := by
  constructor
  · intro makes
    cases makes with
    | field mem => simp_all
    | inlineFragment mem => simp at mem
    | fragmentSpread mem => simp at mem
  · rintro rfl
    exact .field (List.mem_singleton_self _)

theorem inlineFragment_iff {typeCondition : Option Name} {directives : List Directive}
    {inner : List Selection} :
    Makes fragment? type [.inlineFragment typeCondition directives inner] selected ↔
      Makes fragment? (typeCondition.getD type) inner selected := by
  constructor
  · intro makes
    cases makes with
    | field mem => simp at mem
    | inlineFragment mem makes =>
        simp only [List.mem_singleton, Selection.inlineFragment.injEq] at mem
        rcases mem with ⟨rfl, -, rfl⟩
        exact makes
    | fragmentSpread mem => simp at mem
  · exact .inlineFragment (List.mem_singleton_self _)

theorem fragmentSpread_iff {directives : List Directive} :
    Makes fragment? type [.fragmentSpread name directives] selected ↔
      ∃ fragment, fragment? name = some fragment
        ∧ Makes fragment? fragment.typeCondition fragment.selections selected := by
  constructor
  · intro makes
    cases makes with
    | field mem => simp at mem
    | inlineFragment mem => simp at mem
    | fragmentSpread mem found makes =>
        simp only [List.mem_singleton, Selection.fragmentSpread.injEq] at mem
        rcases mem with ⟨rfl, -⟩
        exact ⟨_, found, makes⟩
  · rintro ⟨fragment, found, makes⟩
    exact .fragmentSpread (List.mem_singleton_self _) found makes

/-- A fragment needs to be entered once only, from wherever it is met. -/
theorem enter_once {fragment : Fragment} (found : fragment? name = some fragment)
    (makes : Makes fragment? type selections selected) :
    Makes (fun other => if other = name then none else fragment? other) type selections selected
      ∨ Makes (fun other => if other = name then none else fragment? other) fragment.typeCondition
        fragment.selections selected := by
  induction makes with
  | field mem => exact Or.inl (.field mem)
  | inlineFragment mem _ ih => exact ih.imp_left (.inlineFragment mem)
  | @fragmentSpread _ _ other _ spread _ mem otherFound _ ih =>
      rcases ih with direct | again
      · by_cases same : other = name
        · subst same
          rw [found, Option.some.injEq] at otherFound
          subst otherFound
          exact Or.inr direct
        · exact Or.inl (.fragmentSpread mem (by simpa [same] using otherFound) direct)
      · exact Or.inr again

end Makes

/-- The fields below selections on a type, each with the fields around it, from the outermost one
inwards. -/
inductive MakesBelow (fragment? : Name → Option Fragment) (root : TypedSelections) :
    List SelectedField → SelectedField → Prop where
  | here {selected : SelectedField} (makes : Makes fragment? root.1 root.2 selected) :
      MakesBelow fragment? root [] selected
  | nested {around : List SelectedField} {outer selected : SelectedField}
      (isOuter : MakesBelow fragment? root around outer)
      (makes : Makes fragment? outer.field.type.innerName outer.selections selected) :
      MakesBelow fragment? root (around ++ [outer]) selected

/-- What lies below selections that are made somewhere lies there, further down. -/
theorem MakesBelow.within {fragment? : Name → Option Fragment} {root inner : TypedSelections}
    {before around : List SelectedField} {selected : SelectedField}
    (stands : ∀ other, Makes fragment? inner.1 inner.2 other →
      MakesBelow fragment? root before other)
    (below : MakesBelow fragment? inner around selected) :
    MakesBelow fragment? root (before ++ around) selected := by
  induction below with
  | here makes =>
      rw [List.append_nil]
      exact stands _ makes
  | nested _ makes ih =>
      rw [← List.append_assoc]
      exact .nested ih makes

end Selection

namespace Document

/-- What a document's operations and fragments select, and on which types. -/
def roots (document : Document) : List TypedSelections :=
  document.operations.map (fun operation => (operation.rootType, operation.selections))
    ++ document.fragments.map fun fragment => (fragment.typeCondition, fragment.selections)

section Fragments

variable {document : Document} {root : TypedSelections}

/-- Whether the fields of a fragment lie below the given fields of a definition. -/
def IsSpreadBelow (document : Document) (root : TypedSelections) (around : List SelectedField)
    (name : Name) : Prop :=
  ∀ fragment, document.fragment? name = some fragment → ∀ selected,
    Selection.Makes document.fragment? fragment.typeCondition fragment.selections selected →
      Selection.MakesBelow document.fragment? root around selected

mutual

/-- A fragment that a selection spreads lies somewhere below the definition of the selection. -/
theorem exists_isSpreadBelow {name : Name} : ∀ {selection : Selection} {type : Name}
    {around : List SelectedField},
    (∀ selected, Selection.Makes document.fragment? type [selection] selected →
      Selection.MakesBelow document.fragment? root around selected) →
    name ∈ selection.spreads → ∃ inner, document.IsSpreadBelow root inner name
  | .field field below, type, around, stands, mem => by
      have isOuter := stands ⟨type, field, below⟩ (.field (List.mem_singleton_self _))
      exact exists_isSpreadBelow_ofAll (fun _ makes => .nested isOuter makes) mem
  | .inlineFragment typeCondition _ inner, type, around, stands, mem => by
      have inside (selected : SelectedField)
          (makes : Selection.Makes document.fragment? (typeCondition.getD type) inner selected) :=
        stands selected (Selection.Makes.inlineFragment_iff.mpr makes)
      exact exists_isSpreadBelow_ofAll inside mem
  | .fragmentSpread _ _, type, around, stands, mem => by
      refine ⟨around, fun fragment found selected makes => ?_⟩
      rw [List.mem_singleton.mp mem] at found
      exact stands selected (Selection.Makes.fragmentSpread_iff.mpr ⟨fragment, found, makes⟩)

theorem exists_isSpreadBelow_ofAll {name : Name} : ∀ {selections : List Selection} {type : Name}
    {around : List SelectedField},
    (∀ selected, Selection.Makes document.fragment? type selections selected →
      Selection.MakesBelow document.fragment? root around selected) →
    name ∈ Selection.spreadsOfAll selections →
    ∃ inner, document.IsSpreadBelow root inner name
  | [], _, _, _, mem => by cases mem
  | selection :: rest, type, around, stands, mem => by
      rcases List.mem_append.mp mem with ofFirst | ofRest
      · exact exists_isSpreadBelow
          (fun selected makes => stands selected (Selection.Makes.cons_iff.mpr (Or.inl makes)))
          ofFirst
      · exact exists_isSpreadBelow_ofAll
          (fun selected makes => stands selected (Selection.Makes.cons_iff.mpr (Or.inr makes)))
          ofRest

end

/-- Every fragment that selections reach lies somewhere below their definition. -/
theorem exists_isSpreadBelow_of_reachable {name : Name}
    (mem : name ∈ document.reachableFragments root.2) :
    ∃ inner, document.IsSpreadBelow root inner name := by
  refine forall_mem_closure (motive := fun name => ∃ inner, document.IsSpreadBelow root inner name)
    ?_ ?_ name mem
  · intro name mem
    exact exists_isSpreadBelow_ofAll (fun _ makes => .here makes) (mem_distinct.mp mem)
  · rintro name ⟨inner, isBelow⟩ next isNext
    rw [spreadsOf, selectionsOf] at isNext
    cases found : document.fragment? name with
    | none => simp [found, Selection.spreadsOfAll] at isNext
    | some fragment =>
        rw [found, Option.map_some, Option.getD_some] at isNext
        exact exists_isSpreadBelow_ofAll (isBelow fragment found) isNext

variable {schema : Schema}

theorem nodup_names_of_isValid (valid : document.isValid schema = true) :
    (document.fragments.map (·.name)).Nodup := by
  simp only [isValid, fragmentsAreValid, Bool.and_eq_true] at valid
  exact nodup_of_areDistinct valid.1.1.1.2.1

theorem fragment?_name (nodup : (document.fragments.map (·.name)).Nodup) {fragment : Fragment}
    (mem : fragment ∈ document.fragments) : document.fragment? fragment.name = some fragment := by
  cases found : document.fragment? fragment.name with
  | none => simpa using List.find?_eq_none.mp found fragment mem
  | some other =>
      have sameName : other.name = fragment.name := by simpa using List.find?_some found
      rw [List.inj_on_of_nodup_map nodup (List.mem_of_find?_eq_some found) mem sameName]

/-- What a definition of a valid document selects lies below some operation. -/
theorem exists_operation_of_mem_roots (valid : document.isValid schema = true)
    (isRoot : root ∈ document.roots) : ∃ operation ∈ document.operations, ∃ before, ∀ selected,
      Selection.Makes document.fragment? root.1 root.2 selected → Selection.MakesBelow
        document.fragment? (operation.rootType, operation.selections) before selected := by
  rcases List.mem_append.mp isRoot with ofOperation | ofFragment
  · rcases List.mem_map.mp ofOperation with ⟨operation, mem, rfl⟩
    exact ⟨operation, mem, [], fun _ makes => .here makes⟩
  · rcases List.mem_map.mp ofFragment with ⟨fragment, mem, rfl⟩
    have nodup := nodup_names_of_isValid valid
    simp only [isValid, fragmentsAreValid, Bool.and_eq_true, List.all_eq_true,
      List.contains_iff_mem] at valid
    rcases List.mem_flatMap.mp (valid.1.1.1.2.2 fragment mem).2 with
      ⟨operation, isOperation, isUsed⟩
    rcases @exists_isSpreadBelow_of_reachable document (operation.rootType, operation.selections)
      fragment.name isUsed with ⟨before, isBelow⟩
    exact ⟨operation, isOperation, before, isBelow fragment (fragment?_name nodup mem)⟩

end Fragments

end Document

end ResponseShape
