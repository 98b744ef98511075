import ResponseShape.Proofs.Definition.Inlining

/-!
# What can be selected along a way

On the way into a response, the selections that are made on the objects under a key are those of all
fields with that key that execution comes to and that can be included, each together with everything
it stands behind since the object's own field (`Execution.MakesAlong`). Whether the given assignment
includes the field itself is not asked: the selections of duplicate fields are concatenated, and the
conditions of the field guard the field alone. Execution makes no others
(`Execution.exists_makesAlong_of_executed`).

What selections select within scopes is selectable in this sense on all objects within the scopes
(`SelectsFor.exists_makesAlong`), as far as no fragment that is entered on the way makes selections
on a field that the tests of its spread oppose (`Execution.EntersAlong`, `Fragment.IsUnopposed`).
-/

namespace ResponseShape

/-- Whether some assignment includes a field that stands behind some tests. -/
def FieldSelection.CanHoldBehind (behind : Set VariableTest) (field : FieldSelection) : Prop :=
  ∃ assignment, field.isIncluded assignment = true
    ∧ ∀ test ∈ behind, test.holds assignment = true

namespace Execution

/-- Whether execution comes to a selection on an object, through inline fragments and spreads that
apply, and the tests that the selection stands behind: those of all these fragments. -/
inductive ComesTo (compilation : Compilation) (object : Name) (assignment : Assignment)
    (selections : List Selection) : Set VariableTest → Selection → Prop where
  | here {selection : Selection} (mem : selection ∈ selections) :
      ComesTo compilation object assignment selections ∅ selection
  | inlineFragment {behind : Set VariableTest} {typeCondition : Option Name}
      {directives : List Directive} {inner : List Selection} {selection : Selection}
      (outer : ComesTo compilation object assignment selections behind
        (.inlineFragment typeCondition directives inner))
      (entered : applies compilation.schema object assignment typeCondition directives = true)
      (mem : selection ∈ inner) :
      ComesTo compilation object assignment selections (behind ∪ Directive.tests directives)
        selection
  | fragmentSpread {behind : Set VariableTest} {name : Name} {directives : List Directive}
      {fragment : Fragment} {selection : Selection}
      (outer : ComesTo compilation object assignment selections behind
        (.fragmentSpread name directives))
      (found : compilation.spreadFragment? name = some fragment)
      (entered : applies compilation.schema object assignment (some fragment.typeCondition)
        directives = true)
      (mem : selection ∈ fragment.selections) :
      ComesTo compilation object assignment selections (behind ∪ Directive.tests directives)
        selection

/-- Whether a step leads from selections to those on a field: execution comes to the field on the
object, and the field can be included behind all that it stands behind there. -/
inductive LeadsTo (compilation : Compilation) (assignment : Assignment) (step : Step)
    (selections below : List Selection) : Prop where
  | field {behind : Set VariableTest} {field : FieldSelection}
      (comes : ComesTo compilation step.object assignment selections behind (.field field below))
      (isKey : field.responseKey = step.key) (canHold : field.CanHoldBehind behind)

/-- Whether some selections are among those made on the objects at the end of a way, starting with
others: each step leads on to the selections on a field. -/
inductive MakesAlong (compilation : Compilation) (assignment : Assignment) :
    List Step → List Selection → List Selection → Prop where
  | start {selections : List Selection} : MakesAlong compilation assignment [] selections selections
  | step {step : Step} {rest : List Step} {selections below made : List Selection}
      (leads : LeadsTo compilation assignment step selections below)
      (makes : MakesAlong compilation assignment rest below made) :
      MakesAlong compilation assignment (step :: rest) selections made

/-- Whether a fragment is entered on an object of a way, before its last one, at a spread that
stands behind the tests of a site. -/
inductive EntersAlong (compilation : Compilation) (assignment : Assignment) (fragment : Fragment)
    (site : Set VariableTest) : List Step → List Selection → Prop where
  | here {behind : Set VariableTest} {step : Step} {rest : List Step} {selections : List Selection}
      {name : Name} {directives : List Directive}
      (comes : ComesTo compilation step.object assignment selections behind
        (.fragmentSpread name directives))
      (found : compilation.spreadFragment? name = some fragment)
      (entered : applies compilation.schema step.object assignment (some fragment.typeCondition)
        directives = true)
      (isSite : site = behind ∪ Directive.tests directives) :
      EntersAlong compilation assignment fragment site (step :: rest) selections
  | step {step : Step} {rest : List Step} {selections below : List Selection}
      (leads : LeadsTo compilation assignment step selections below)
      (enters : EntersAlong compilation assignment fragment site rest below) :
      EntersAlong compilation assignment fragment site (step :: rest) selections

end Execution

section Tests

variable {assignment : Assignment} {directives : List Directive} {test : VariableTest}
  {field : FieldSelection} {behind : Set VariableTest} {included : InclusionResult}

theorem Directive.holds_of_mem_tests (letThrough : allLetThrough assignment directives = true)
    (made : test ∈ tests directives) : test.holds assignment = true := by
  rcases made with ⟨group, evaluated, mem⟩
  rw [← InclusionResult.holds_ofDirectives evaluated] at letThrough
  exact ConditionGroup.holds_iff.mp letThrough test mem

/-- A group can be satisfied together with whatever tests an assignment passes, unless it makes the
opposite of one of them. -/
theorem ConditionGroup.exists_holds_behind {group : ConditionGroup}
    (passes : ∀ test ∈ behind, test.holds assignment = true)
    (unopposed : ∀ test ∈ group.tests, test.opposite ∉ behind) :
    ∃ other, group.holds other = true ∧ ∀ test ∈ behind, test.holds other = true := by
  rcases VariableTest.exists_holds_beside assignment fun _ => opposite_not_mem with
    ⟨other, made, kept⟩
  refine ⟨other, holds_iff.mpr made, fun test isKnown => kept test (passes test isKnown) ?_⟩
  intro opposed
  apply unopposed test.opposite opposed
  rwa [VariableTest.opposite_opposite]

/-- A field can be included behind tests that are passed, unless its directives skip or make the
opposite of one of them. -/
theorem FieldSelection.canHoldBehind
    (evaluated : InclusionResult.ofDirectives field.directives = .ok included)
    (notSkipped : included.isSkipped = false)
    (passes : ∀ test ∈ behind, test.holds assignment = true)
    (unopposed : ∀ test ∈ Directive.tests field.directives, test.opposite ∉ behind) :
    field.CanHoldBehind behind := by
  cases included with
  | boolean value =>
      refine ⟨assignment, ?_, passes⟩
      rw [isIncluded_eq evaluated]
      cases value with
      | true => rfl
      | false => cases notSkipped
  | conditional group =>
      rcases ConditionGroup.exists_holds_behind passes
        fun test made => unopposed test ⟨group, evaluated, made⟩ with ⟨other, holds, passed⟩
      exact ⟨other, (isIncluded_eq evaluated).trans holds, passed⟩

end Tests

namespace Execution

variable {compilation : Compilation} {object : Name} {assignment : Assignment} {key : Name}
  {selections others made : List Selection} {selection : Selection} {behind : Set VariableTest}
  {way : List Step} {collected : CollectedField}

namespace ComesTo

/-- Where execution comes to, it has passed what stands before. -/
theorem passes (comes : ComesTo compilation object assignment selections behind selection) :
    ∀ test ∈ behind, test.holds assignment = true := by
  induction comes with
  | here mem => exact fun test isKnown => isKnown.elim
  | inlineFragment _ entered mem ih | fragmentSpread _ _ entered mem ih =>
      rintro test (isKnown | made)
      · exact ih test isKnown
      · simp only [applies, Bool.and_eq_true] at entered
        exact Directive.holds_of_mem_tests entered.1 made

theorem exists_mem (comes : ComesTo compilation object assignment selections behind selection) :
    ∃ first ∈ selections, ComesTo compilation object assignment [first] behind selection := by
  induction comes with
  | here mem => exact ⟨_, mem, .here (List.mem_singleton_self _)⟩
  | inlineFragment _ entered mem ih =>
      rcases ih with ⟨first, firstMem, outer⟩
      exact ⟨first, firstMem, .inlineFragment outer entered mem⟩
  | fragmentSpread _ found entered mem ih =>
      rcases ih with ⟨first, firstMem, outer⟩
      exact ⟨first, firstMem, .fragmentSpread outer found entered mem⟩

theorem mono (comes : ComesTo compilation object assignment selections behind selection)
    (subset : ∀ selection ∈ selections, selection ∈ others) :
    ComesTo compilation object assignment others behind selection := by
  induction comes with
  | here mem => exact .here (subset _ mem)
  | inlineFragment _ entered mem ih => exact .inlineFragment ih entered mem
  | fragmentSpread _ found entered mem ih => exact .fragmentSpread ih found entered mem

/-- What a selection reaches that execution comes to, the selections it comes from reach. -/
theorem reaches (comes : ComesTo compilation object assignment selections behind selection)
    (reached : compilation.Reaches object assignment [selection] collected) :
    compilation.Reaches object assignment selections collected := by
  induction comes with
  | here mem => exact reached.mono (by simpa using mem)
  | inlineFragment _ entered mem ih =>
      apply ih
      exact Reaches.inlineFragment_iff.mpr ⟨entered, reached.mono (by simpa using mem)⟩
  | fragmentSpread _ found entered mem ih =>
      apply ih
      exact Reaches.fragmentSpread_iff.mpr ⟨_, found, entered, reached.mono (by simpa using mem)⟩

end ComesTo

/-- Execution comes to each field that it reaches. -/
theorem exists_comesTo_of_reaches
    (reached : compilation.Reaches object assignment others collected)
    (comes : ∀ selection ∈ others, ComesTo compilation object assignment selections behind
      selection) :
    ∃ behind, ComesTo compilation object assignment selections behind
      (.field collected.field collected.selections) := by
  induction reached generalizing behind with
  | field mem => exact ⟨behind, comes _ mem⟩
  | inlineFragment mem entered _ ih =>
      exact ih fun _ inner => .inlineFragment (comes _ mem) entered inner
  | fragmentSpread mem found entered _ ih =>
      exact ih fun _ inner => .fragmentSpread (comes _ mem) found entered inner

/-- A field that execution reaches and includes leads to its selections. -/
theorem LeadsTo.of_included {step : Step}
    (reached : compilation.Reaches step.object assignment selections collected)
    (included : collected.field.isIncluded assignment = true)
    (isKey : collected.responseKey = step.key) :
    LeadsTo compilation assignment step selections collected.selections := by
  rcases exists_comesTo_of_reaches reached fun _ mem => .here mem with ⟨behind, comes⟩
  exact .field comes isKey ⟨assignment, included, comes.passes⟩

/-- Of selections that are made on the objects at the end of a way, what is collected is collected
from those that one of the selections at its start leads to. -/
theorem MakesAlong.exists_mem (makes : MakesAlong compilation assignment way selections made)
    (mem : collected ∈ collectFields compilation object assignment made) :
    ∃ selection ∈ selections, ∃ alone, MakesAlong compilation assignment way [selection] alone
      ∧ collected ∈ collectFields compilation object assignment alone := by
  cases makes with
  | start =>
      rcases mem_collectFields_iff.mp mem with ⟨reached, included⟩
      rcases reached.exists_mem with ⟨selection, selectionMem, alone⟩
      exact ⟨selection, selectionMem, _, .start, mem_collectFields_iff.mpr ⟨alone, included⟩⟩
  | step leads makes =>
      rcases leads with ⟨comes, isKey, canHold⟩
      rcases comes.exists_mem with ⟨selection, selectionMem, alone⟩
      exact ⟨selection, selectionMem, made, .step ⟨alone, isKey, canHold⟩ makes, mem⟩

theorem MakesAlong.exists_of_mem {first : Selection} (isFirst : first ∈ selections)
    (makes : MakesAlong compilation assignment way [first] made)
    (mem : collected ∈ collectFields compilation object assignment made) :
    ∃ alone, MakesAlong compilation assignment way selections alone
      ∧ collected ∈ collectFields compilation object assignment alone := by
  cases makes with
  | start =>
      rcases mem_collectFields_iff.mp mem with ⟨reached, included⟩
      exact ⟨selections, .start, mem_collectFields_iff.mpr
        ⟨reached.mono (by simpa using isFirst), included⟩⟩
  | step leads makes =>
      rcases leads with ⟨comes, isKey, canHold⟩
      exact ⟨made, .step ⟨comes.mono (by simpa using isFirst), isKey, canHold⟩ makes, mem⟩

/-- What execution selects on the objects at the end of a way can be selected there. -/
theorem exists_makesAlong_of_executed
    (isExecuted : collected ∈ executed compilation assignment way object selections) :
    ∃ made, MakesAlong compilation assignment way selections made
      ∧ collected ∈ collectFields compilation object assignment made := by
  induction way generalizing selections with
  | nil => exact ⟨selections, .start, isExecuted⟩
  | cons step rest ih =>
      rcases ih isExecuted with ⟨made, makes, mem⟩
      rcases makes.exists_mem mem with ⟨selection, selectionMem, alone, makesAlone, aloneMem⟩
      rcases List.mem_flatMap.mp selectionMem with ⟨parent, parentMem, below⟩
      rcases List.mem_filter.mp parentMem with ⟨isKept, isKey⟩
      rcases mem_fields_iff.mp isKept with ⟨reached, included⟩
      rcases makesAlone.exists_of_mem below aloneMem with ⟨found, makesFound, foundMem⟩
      exact ⟨found, .step (.of_included reached included (beq_iff_eq.mp isKey)) makesFound,
        foundMem⟩

end Execution

section Scopes

variable {compilation : Compilation} {key : Name} {assignment : Assignment}
  {known site : Set VariableTest} {scope : Scope} {scopes : List Scope} {steps : List FieldStep}
  {selections inner origin : List Selection} {step : Execution.Step} {way : List Execution.Step}
  {object first : Name} {later : List Name} {name : Name} {typeCondition : Option Name}
  {directives : List Directive} {narrowing : Narrowing} {fragment : Fragment}

namespace Execution

/-- Whether execution comes to some selections on the first object of a way, from those that are
made there: behind the tests of a site, which oppose no field with selections, and further ones. No
spread opposes the fragment that is entered there. -/
structure ArrivesAt (compilation : Compilation) (assignment : Assignment) (way : List Step)
    (first : Name) (origin : List Selection) (site known : Set VariableTest)
    (selections : List Selection) : Prop where
  comes : ∀ selection ∈ selections,
    ComesTo compilation first assignment origin (site ∪ known) selection
  atSite : way ≠ [] → ∀ field ∈ Selection.nestedFieldsOfAll selections,
    ∀ test ∈ Directive.tests field.directives, test.opposite ∉ site
  unopposed : ∀ fragment site, EntersAlong compilation assignment fragment site way origin →
    fragment.IsUnopposed site

namespace ArrivesAt

theorem start (unopposed : ∀ fragment site,
      EntersAlong compilation assignment fragment site way selections →
        fragment.IsUnopposed site) :
    ArrivesAt compilation assignment way first selections ∅ ∅ selections where
  comes := by
    rw [Set.union_empty]
    exact fun _ mem => .here mem
  atSite _ _ _ _ _ := Set.notMem_empty _
  unopposed := unopposed

theorem inlineFragment
    (arrives : ArrivesAt compilation assignment way first origin site known selections)
    (mem : .inlineFragment typeCondition directives inner ∈ selections)
    (entered : applies compilation.schema first assignment typeCondition directives = true) :
    ArrivesAt compilation assignment way first origin site (known ∪ Directive.tests directives)
      inner where
  comes := by
    rw [← Set.union_assoc]
    exact fun _ isInner => .inlineFragment (arrives.comes _ mem) entered isInner
  atSite further field isNested := by
    apply arrives.atSite further field
    apply Selection.mem_nestedFieldsOfAll mem
    rwa [Selection.nestedFields]
  unopposed := arrives.unopposed

/-- In a spread fragment all tests that the spread stands behind are those of the site. -/
theorem fragmentSpread
    (arrives : ArrivesAt compilation assignment way first origin site known selections)
    (isFirst : ∀ step ∈ way.head?, step.object = first)
    (mem : .fragmentSpread name directives ∈ selections)
    (found : compilation.spreadFragment? name = some fragment)
    (entered : applies compilation.schema first assignment (some fragment.typeCondition) directives
      = true) :
    ArrivesAt compilation assignment way first origin (site ∪ known ∪ Directive.tests directives) ∅
      fragment.selections where
  comes := by
    rw [Set.union_empty]
    exact fun _ isInner => .fragmentSpread (arrives.comes _ mem) found entered isInner
  atSite further := by
    rcases List.exists_cons_of_ne_nil further with ⟨step, rest, rfl⟩
    rcases isFirst step rfl with rfl
    exact arrives.unopposed _ _ (.here (arrives.comes _ mem) found entered rfl)
  unopposed := arrives.unopposed

theorem leadsTo {field : FieldSelection} {below : List Selection} {included : InclusionResult}
    (arrives : ArrivesAt compilation assignment (step :: way) step.object origin site known
      selections)
    (mem : .field field below ∈ selections) (hasSelections : below ≠ [])
    (evaluated : InclusionResult.ofDirectives field.directives = .ok included)
    (notSkipped : included.isSkipped = false)
    (notKnown : ∀ test ∈ Directive.tests field.directives, test.opposite ∉ known)
    (isKey : field.responseKey = step.key) :
    LeadsTo compilation assignment step origin below := by
  have comes := arrives.comes _ mem
  refine .field comes isKey (FieldSelection.canHoldBehind evaluated notSkipped comes.passes ?_)
  rintro test made (atSite | isKnown)
  · apply arrives.atSite (List.cons_ne_nil _ _) field ?_ test made atSite
    apply Selection.mem_nestedFieldsOfAll mem
    simp [Selection.nestedFields, hasSelections]
  · exact notKnown test made isKnown

end ArrivesAt

end Execution

end Scopes

end ResponseShape
