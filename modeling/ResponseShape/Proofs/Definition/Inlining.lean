import ResponseShape.Proofs.Definition.SelectsFor

/-!
# Writing a fragment where it is spread

Selections with a fragment written at one of its spreads (`Selection.Inlines`) select what they did,
with one exception. A field with selections that stands behind the opposite of a test that it makes
itself is left out as written, while in a spread fragment nothing is known of the tests that the
spread stands behind. So the spread selects no less than the written fragment, and no more if no
field of the fragment makes a test that the spread stands behind the opposite of
(`Fragment.IsUnopposed`).
-/

namespace ResponseShape

/-- Whether selections, which stand behind some tests, become others if a fragment is written at one
of its spreads. Up to the field around it the spread stands behind the tests of its site. -/
inductive Selection.Inlines (compilation : Compilation) (fragment : Fragment)
    (site : Set VariableTest) : Set VariableTest → List Selection → List Selection → Prop where
  | spread {known : Set VariableTest} {before after : List Selection} {name : Name}
      {directives : List Directive} (found : compilation.spreadFragment? name = some fragment)
      (isSite : site = known ∪ Directive.tests directives) :
      Inlines compilation fragment site known
        (before ++ .fragmentSpread name directives :: after)
        (before ++ .inlineFragment (some fragment.typeCondition) directives fragment.selections
          :: after)
  | field {known : Set VariableTest} {before after below written : List Selection}
      {field : FieldSelection} (inlines : Inlines compilation fragment site ∅ below written) :
      Inlines compilation fragment site known (before ++ .field field below :: after)
        (before ++ .field field written :: after)
  | inlineFragment {known : Set VariableTest} {before after inner written : List Selection}
      {typeCondition : Option Name} {directives : List Directive}
      (inlines : Inlines compilation fragment site (known ∪ Directive.tests directives) inner
        written) :
      Inlines compilation fragment site known
        (before ++ .inlineFragment typeCondition directives inner :: after)
        (before ++ .inlineFragment typeCondition directives written :: after)

mutual

/-- The fields with selections that a selection makes on its own object, in inline fragments or
not. -/
def Selection.nestedFields : Selection → List FieldSelection
  | .field selected selections => if selections.isEmpty then [] else [selected]
  | .inlineFragment _ _ selections => nestedFieldsOfAll selections
  | .fragmentSpread .. => []

/-- The fields with selections that selections make on their own object. -/
def Selection.nestedFieldsOfAll : List Selection → List FieldSelection
  | [] => []
  | selection :: rest => nestedFields selection ++ nestedFieldsOfAll rest

end

/-- Whether no field with selections that a fragment makes on its own object makes a test whose
opposite is known at a site. -/
def Fragment.IsUnopposed (site : Set VariableTest) (fragment : Fragment) : Prop :=
  ∀ field ∈ Selection.nestedFieldsOfAll fragment.selections,
    ∀ test ∈ Directive.tests field.directives, test.opposite ∉ site

theorem Fragment.isUnopposed_of_unconditional {site : Set VariableTest} {fragment : Fragment}
    (unconditional : ∀ field ∈ Selection.nestedFieldsOfAll fragment.selections,
      field.directives = []) : fragment.IsUnopposed site := by
  rintro field isNested test ⟨group, isGroup, -⟩
  rw [unconditional field isNested] at isGroup
  cases isGroup

/-- Whether selections spread the fragment of a name, themselves or in fragments that they
spread. -/
inductive Compilation.Spreads (compilation : Compilation) (name : Name) :
    List Selection → Prop where
  | written {selections : List Selection} (mem : name ∈ Selection.spreadsOfAll selections) :
      Spreads compilation name selections
  | fragment {selections : List Selection} {other : Name} {fragment : Fragment}
      (mem : other ∈ Selection.spreadsOfAll selections)
      (found : compilation.spreadFragment? other = some fragment)
      (spreads : Spreads compilation name fragment.selections) : Spreads compilation name selections

/-- Whether all fragments that selections spread in a compilation are the same in another one. -/
def Compilation.Agrees (compilation other : Compilation) (selections : List Selection) : Prop :=
  ∀ name, compilation.Spreads name selections →
    other.spreadFragment? name = compilation.spreadFragment? name

section Agrees

variable {compilation other : Compilation} {selections inner : List Selection}

theorem Selection.spreadsOfAll_eq_flatMap :
    Selection.spreadsOfAll selections = selections.flatMap Selection.spreads := by
  induction selections with
  | nil => rfl
  | cons selection rest ih => rw [Selection.spreadsOfAll, ih, List.flatMap_cons]

theorem Selection.mem_spreadsOfAll {name : Name} {selection : Selection}
    (mem : selection ∈ selections) (isSpread : name ∈ selection.spreads) :
    name ∈ Selection.spreadsOfAll selections := by
  rw [Selection.spreadsOfAll_eq_flatMap]
  exact List.mem_flatMap.mpr ⟨selection, mem, isSpread⟩

namespace Compilation.Agrees

theorem mono (agrees : compilation.Agrees other selections)
    (subset : ∀ name ∈ Selection.spreadsOfAll inner, name ∈ Selection.spreadsOfAll selections) :
    compilation.Agrees other inner := by
  intro name spreads
  apply agrees name
  cases spreads with
  | written mem => exact .written (subset _ mem)
  | fragment mem found spreads => exact .fragment (subset _ mem) found spreads

theorem of_selection {selection : Selection} (agrees : compilation.Agrees other selections)
    (mem : selection ∈ selections) (isInner : Selection.spreadsOfAll inner = selection.spreads) :
    compilation.Agrees other inner :=
  agrees.mono fun _ isSpread => Selection.mem_spreadsOfAll mem (isInner ▸ isSpread)

theorem symm (agrees : compilation.Agrees other selections) :
    other.Agrees compilation selections := by
  intro name spreads
  symm
  apply agrees
  induction spreads with
  | written mem => exact .written mem
  | fragment mem found _ ih =>
      rw [agrees _ (.written mem)] at found
      exact .fragment mem found (ih fun name spreads => agrees name (.fragment mem found spreads))

theorem of_spreadsOfAll_eq_nil (none : Selection.spreadsOfAll selections = []) :
    compilation.Agrees other selections := by
  rintro name (mem | ⟨mem, -, -⟩) <;> simp [none] at mem

end Compilation.Agrees

end Agrees

theorem Selection.nestedFieldsOfAll_eq_flatMap {selections : List Selection} :
    Selection.nestedFieldsOfAll selections = selections.flatMap Selection.nestedFields := by
  induction selections with
  | nil => rfl
  | cons selection rest ih => rw [Selection.nestedFieldsOfAll, ih, List.flatMap_cons]

theorem Selection.mem_nestedFieldsOfAll {selection : Selection} {selections : List Selection}
    {field : FieldSelection} (mem : selection ∈ selections)
    (isNested : field ∈ selection.nestedFields) :
    field ∈ Selection.nestedFieldsOfAll selections := by
  rw [Selection.nestedFieldsOfAll_eq_flatMap]
  exact List.mem_flatMap.mpr ⟨selection, mem, isNested⟩

namespace SelectsFor

variable {compilation other : Compilation} {fragment : Fragment} {key : Name}
  {assignment : Assignment} {known site : Set VariableTest} {scopes : List Scope}
  {steps : List FieldStep} {selections written before after : List Selection}
  {selection replacement : Selection}

/-- What selections select depends on the fragments that they spread and on the schema. -/
theorem of_agrees (schema : other.schema = compilation.schema)
    (agrees : compilation.Agrees other selections)
    (selects : SelectsFor compilation key assignment known scopes steps selections) :
    SelectsFor other key assignment known scopes steps selections := by
  induction selects with
  | field mem isKey included => exact .field mem isKey included
  | nested mem evaluated notSkipped unopposed isKey isType isComposite onType selects ih =>
      rw [← schema] at isComposite
      exact .nested mem evaluated notSkipped unopposed isKey isType isComposite onType
        (ih (agrees.of_selection mem rfl))
  | inlineFragment mem asks implied selects ih =>
      exact .inlineFragment mem asks implied (ih (agrees.of_selection mem rfl))
  | fragmentSpread mem found asks implied selects ih =>
      have isSpread := Selection.mem_spreadsOfAll mem (List.mem_singleton_self _)
      have isFound := (agrees _ (.written isSpread)).trans found
      apply fragmentSpread mem isFound asks implied
      exact ih fun name spreads => agrees name (.fragment isSpread found spreads)

/-- Selections keep what they select if one of them is replaced by one that selects no less. -/
theorem of_replaced
    (selects : SelectsFor compilation key assignment known scopes steps
      (before ++ selection :: after))
    (noLess : SelectsFor compilation key assignment known scopes steps [selection] →
      SelectsFor compilation key assignment known scopes steps [replacement]) :
    SelectsFor compilation key assignment known scopes steps (before ++ replacement :: after) := by
  rw [← List.singleton_append, append_iff, append_iff] at selects ⊢
  exact selects.imp_right (Or.imp_left noLess)

/-- A field keeps what is selected through it if the selections on it do. -/
theorem of_below {field : FieldSelection} {below : List Selection}
    (selects : SelectsFor compilation key assignment known scopes steps [.field field below])
    (noLess : ∀ scopes steps, SelectsFor compilation key assignment ∅ scopes steps below →
      SelectsFor compilation key assignment ∅ scopes steps written) :
    SelectsFor compilation key assignment known scopes steps [.field field written] := by
  cases selects with
  | field mem isKey included =>
      cases List.mem_singleton.mp mem
      exact .field (List.mem_singleton_self _) isKey included
  | nested mem evaluated notSkipped unopposed isKey isType isComposite onType selects =>
      cases List.mem_singleton.mp mem
      exact .nested (List.mem_singleton_self _) evaluated notSkipped unopposed isKey isType
        isComposite onType (noLess _ _ selects)
  | inlineFragment mem => cases List.mem_singleton.mp mem
  | fragmentSpread mem => cases List.mem_singleton.mp mem

/-- An inline fragment keeps what it selects if the selections in it do. -/
theorem of_inner {typeCondition : Option Name} {directives : List Directive}
    {inner : List Selection}
    (selects : SelectsFor compilation key assignment known scopes steps
      [.inlineFragment typeCondition directives inner])
    (noLess : SelectsFor compilation key assignment (known ∪ Directive.tests directives) scopes
        steps inner →
      SelectsFor compilation key assignment (known ∪ Directive.tests directives) scopes steps
        written) :
    SelectsFor compilation key assignment known scopes steps
      [.inlineFragment typeCondition directives written] := by
  rcases selects.exists_cons with ⟨scope, rest, rfl⟩
  rcases inlineFragment_iff.mp selects with ⟨narrowing, asks, implied, selects⟩
  exact inlineFragment_iff.mpr ⟨narrowing, asks, implied, noLess selects⟩

/-- Selections may stand behind further tests if these oppose no field with selections. -/
theorem behind_site
    (selects : SelectsFor compilation key assignment known scopes steps selections)
    (unopposed : ∀ field ∈ Selection.nestedFieldsOfAll selections,
      ∀ test ∈ Directive.tests field.directives, test.opposite ∉ site) :
    SelectsFor compilation key assignment (site ∪ known) scopes steps selections := by
  induction selects with
  | field mem isKey included => exact .field mem isKey included
  | nested mem evaluated notSkipped notKnown isKey isType isComposite onType selects ih =>
      refine .nested mem evaluated notSkipped ?_ isKey isType isComposite onType selects
      rintro test made (atSite | isKnown)
      · apply unopposed _ (Selection.mem_nestedFieldsOfAll mem ?_) test made atSite
        simp [Selection.nestedFields, selects.ne_nil]
      · exact notKnown test made isKnown
  | inlineFragment mem asks implied selects ih =>
      apply SelectsFor.inlineFragment mem asks implied
      rw [Set.union_assoc]
      apply ih
      intro field isNested
      apply unopposed field
      apply Selection.mem_nestedFieldsOfAll mem
      rwa [Selection.nestedFields]
  | fragmentSpread mem found asks implied selects ih =>
      exact .fragmentSpread mem found asks implied selects

/-- A spread selects what the written fragment does. -/
theorem of_inlined (inlines : Selection.Inlines compilation fragment site known selections written)
    (selects : SelectsFor compilation key assignment known scopes steps written) :
    SelectsFor compilation key assignment known scopes steps selections := by
  induction inlines generalizing scopes steps with
  | spread found isSite =>
      apply selects.of_replaced
      intro selects
      rcases selects.exists_cons with ⟨scope, rest, rfl⟩
      rcases inlineFragment_iff.mp selects with ⟨narrowing, asks, implied, selects⟩
      have alone := selects.mono (Set.empty_subset _) fun _ mem => mem
      exact fragmentSpread_iff.mpr ⟨_, narrowing, found, asks, implied, alone⟩
  | field _ ih =>
      apply selects.of_replaced
      exact fun selects => selects.of_below fun scopes steps => ih
  | inlineFragment _ ih =>
      apply selects.of_replaced
      exact fun selects => selects.of_inner ih

/-- The written fragment selects what the spread does if the site does not oppose its fields. -/
theorem inlined (inlines : Selection.Inlines compilation fragment site known selections written)
    (unopposed : fragment.IsUnopposed site)
    (selects : SelectsFor compilation key assignment known scopes steps selections) :
    SelectsFor compilation key assignment known scopes steps written := by
  induction inlines generalizing scopes steps with
  | spread found isSite =>
      apply selects.of_replaced
      intro selects
      rcases selects.exists_cons with ⟨scope, rest, rfl⟩
      rcases fragmentSpread_iff.mp selects with ⟨other, narrowing, isOther, asks, implied, selects⟩
      rcases Option.some.inj (found.symm.trans isOther) with rfl
      have behind := selects.behind_site unopposed
      rw [Set.union_empty, isSite] at behind
      exact inlineFragment_iff.mpr ⟨narrowing, asks, implied, behind⟩
  | field _ ih =>
      apply selects.of_replaced
      exact fun selects => selects.of_below fun scopes steps => ih
  | inlineFragment _ ih =>
      apply selects.of_replaced
      exact fun selects => selects.of_inner ih

end SelectsFor

end ResponseShape
