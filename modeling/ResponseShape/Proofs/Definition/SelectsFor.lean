import Mathlib.Data.Set.Basic
import ResponseShape.Entity.Location
import ResponseShape.Proofs.Definition.Gathering

/-!
# What selections select within given scopes

Whether a response key is selected for whoever stands within given scopes can be told from the
selections as they are written: a fragment is entered if the scope of its object implies what the
fragment asks, and a field with selections on it is left out if it makes a test whose opposite the
selections stand behind (`SelectsFor`). `Gathered.selectsFor_gatherAll` is the step from selections
to what is gathered of them: whatever is flattened, grouped, widened or left out on the way, the
same keys are selected.
-/

namespace ResponseShape

/-- The tests that directives make, none if they include or skip statically. -/
def Directive.tests (directives : List Directive) : Set VariableTest :=
  {test | ∃ group, InclusionResult.ofDirectives directives = .ok (.conditional group)
    ∧ test ∈ group.tests}

/-- The tests that a narrowing makes. -/
def Narrowing.tests (narrowing : Narrowing) : Set VariableTest :=
  {test | ∃ group ∈ narrowing.conditions, test ∈ group.tests}

/-- The tests that are known to be passed in a scope. -/
def Scope.tests (scope : Scope) : Set VariableTest :=
  {test | ∃ group ∈ scope.knownConditions, test ∈ group.tests}

/-- Whether selections select a response key for whoever stands within the given scopes: one for
each object from the one that the selections are made on to the one with the key, with steps that
lead from each to the next. The selections stand behind some tests. -/
inductive SelectsFor (compilation : Compilation) (key : Name) (assignment : Assignment) :
    Set VariableTest → List Scope → List FieldStep → List Selection → Prop where
  | field {known : Set VariableTest} {scope : Scope} {selections below : List Selection}
      {field : FieldSelection} (mem : .field field below ∈ selections)
      (isKey : field.responseKey = key) (included : field.isIncluded assignment = true) :
      SelectsFor compilation key assignment known [scope] [] selections
  | nested {known : Set VariableTest} {scope inner : Scope} {rest : List Scope} {step : FieldStep}
      {steps : List FieldStep} {selections below : List Selection} {field : FieldSelection}
      {included : InclusionResult} (mem : .field field below ∈ selections)
      (evaluated : InclusionResult.ofDirectives field.directives = .ok included)
      (notSkipped : included.isSkipped = false)
      (unopposed : ∀ test ∈ Directive.tests field.directives, test.opposite ∉ known)
      (isKey : field.responseKey = step.responseKey) (isType : field.type.innerName = step.type)
      (isComposite : compilation.schema.isComposite step.type = .ok true)
      (onType : inner.implies (.onType step.type) = true)
      (selects : SelectsFor compilation key assignment ∅ (inner :: rest) steps below) :
      SelectsFor compilation key assignment known (scope :: inner :: rest) (step :: steps)
        selections
  | inlineFragment {known : Set VariableTest} {scope : Scope} {rest : List Scope}
      {steps : List FieldStep} {selections inner : List Selection} {typeCondition : Option Name}
      {directives : List Directive} {narrowing : Narrowing}
      (mem : .inlineFragment typeCondition directives inner ∈ selections)
      (asks : Narrowing.ofDirectives typeCondition directives = .ok (some narrowing))
      (implied : scope.implies narrowing = true)
      (selects : SelectsFor compilation key assignment (known ∪ Directive.tests directives)
        (scope :: rest) steps inner) :
      SelectsFor compilation key assignment known (scope :: rest) steps selections
  | fragmentSpread {known : Set VariableTest} {scope : Scope} {rest : List Scope}
      {steps : List FieldStep} {selections : List Selection} {name : Name}
      {directives : List Directive} {fragment : Fragment} {narrowing : Narrowing}
      (mem : .fragmentSpread name directives ∈ selections)
      (found : compilation.spreadFragment? name = some fragment)
      (asks : Narrowing.ofDirectives (some fragment.typeCondition) directives
        = .ok (some narrowing))
      (implied : scope.implies narrowing = true)
      (selects : SelectsFor compilation key assignment ∅ (scope :: rest) steps
        fragment.selections) :
      SelectsFor compilation key assignment known (scope :: rest) steps selections

namespace SelectsFor

variable {compilation : Compilation} {key : Name} {assignment : Assignment}
  {known other : Set VariableTest} {scopes : List Scope} {steps : List FieldStep}
  {selections others : List Selection}

theorem exists_mem (selects : SelectsFor compilation key assignment known scopes steps selections) :
    ∃ selection ∈ selections,
      SelectsFor compilation key assignment known scopes steps [selection] := by
  cases selects with
  | field mem isKey included => exact ⟨_, mem, .field (List.mem_singleton_self _) isKey included⟩
  | nested mem evaluated notSkipped unopposed isKey isType isComposite onType selects =>
      exact ⟨_, mem, .nested (List.mem_singleton_self _) evaluated notSkipped unopposed isKey isType
        isComposite onType selects⟩
  | inlineFragment mem asks implied selects =>
      exact ⟨_, mem, .inlineFragment (List.mem_singleton_self _) asks implied selects⟩
  | fragmentSpread mem found asks implied selects =>
      exact ⟨_, mem, .fragmentSpread (List.mem_singleton_self _) found asks implied selects⟩

theorem mono (selects : SelectsFor compilation key assignment known scopes steps selections)
    (fewer : other ⊆ known) (subset : ∀ selection ∈ selections, selection ∈ others) :
    SelectsFor compilation key assignment other scopes steps others := by
  induction selects generalizing other others with
  | field mem isKey included => exact .field (subset _ mem) isKey included
  | nested mem evaluated notSkipped unopposed isKey isType isComposite onType selects =>
      refine .nested (subset _ mem) evaluated notSkipped ?_ isKey isType isComposite onType selects
      exact fun test made opposed => unopposed test made (fewer opposed)
  | inlineFragment mem asks implied selects ih =>
      apply SelectsFor.inlineFragment (subset _ mem) asks implied
      exact ih (Set.union_subset_union_left _ fewer) fun _ mem => mem
  | fragmentSpread mem found asks implied selects =>
      exact .fragmentSpread (subset _ mem) found asks implied selects

theorem append_iff : SelectsFor compilation key assignment known scopes steps (selections ++ others)
    ↔ SelectsFor compilation key assignment known scopes steps selections
      ∨ SelectsFor compilation key assignment known scopes steps others := by
  constructor
  · intro selects
    rcases selects.exists_mem with ⟨selection, mem, selects⟩
    rcases List.mem_append.mp mem with mem | mem
    · exact Or.inl (selects.mono (Set.Subset.refl _) (by simpa using mem))
    · exact Or.inr (selects.mono (Set.Subset.refl _) (by simpa using mem))
  · rintro (selects | selects)
    · exact selects.mono (Set.Subset.refl _) fun _ mem => List.mem_append_left _ mem
    · exact selects.mono (Set.Subset.refl _) fun _ mem => List.mem_append_right _ mem

theorem not_nil : ¬ SelectsFor compilation key assignment known scopes steps [] := by
  intro selects
  rcases selects.exists_mem with ⟨selection, mem, -⟩
  cases mem

theorem ne_nil (selects : SelectsFor compilation key assignment known scopes steps selections) :
    selections ≠ [] := by
  rintro rfl
  exact not_nil selects

theorem exists_cons
    (selects : SelectsFor compilation key assignment known scopes steps selections) :
    ∃ scope rest, scopes = scope :: rest := by
  cases selects <;> exact ⟨_, _, rfl⟩

section Single

variable {scope : Scope} {rest : List Scope} {directives : List Directive}

/-- A field that selects a key is included, or could be where it leads to one. -/
theorem of_field {field : FieldSelection} {below : List Selection} {included : InclusionResult}
    (selects : SelectsFor compilation key assignment known (scope :: rest) steps
      [.field field below])
    (evaluated : InclusionResult.ofDirectives field.directives = .ok included) :
    rest = [] ∧ included.holds assignment = true
      ∨ included.isSkipped = false
        ∧ ∀ test ∈ Directive.tests field.directives, test.opposite ∉ known := by
  cases selects with
  | field mem _ included =>
      cases List.mem_singleton.mp mem
      exact Or.inl ⟨rfl, (InclusionResult.holds_ofDirectives evaluated).trans included⟩
  | nested mem isResult notSkipped unopposed =>
      cases List.mem_singleton.mp mem
      rcases Except.ok.inj (isResult.symm.trans evaluated) with rfl
      exact Or.inr ⟨notSkipped, unopposed⟩
  | inlineFragment mem => cases List.mem_singleton.mp mem
  | fragmentSpread mem => cases List.mem_singleton.mp mem

theorem inlineFragment_iff {typeCondition : Option Name} {inner : List Selection} :
    SelectsFor compilation key assignment known (scope :: rest) steps
        [.inlineFragment typeCondition directives inner]
      ↔ ∃ narrowing, Narrowing.ofDirectives typeCondition directives = .ok (some narrowing)
        ∧ scope.implies narrowing = true
        ∧ SelectsFor compilation key assignment (known ∪ Directive.tests directives)
          (scope :: rest) steps inner := by
  constructor
  · intro selects
    cases selects with
    | field mem => cases List.mem_singleton.mp mem
    | nested mem => cases List.mem_singleton.mp mem
    | inlineFragment mem asks implied selects =>
        cases List.mem_singleton.mp mem
        exact ⟨_, asks, implied, selects⟩
    | fragmentSpread mem => cases List.mem_singleton.mp mem
  · rintro ⟨narrowing, asks, implied, selects⟩
    exact .inlineFragment (List.mem_singleton_self _) asks implied selects

theorem fragmentSpread_iff {name : Name} :
    SelectsFor compilation key assignment known (scope :: rest) steps
        [.fragmentSpread name directives]
      ↔ ∃ fragment narrowing, compilation.spreadFragment? name = some fragment
        ∧ Narrowing.ofDirectives (some fragment.typeCondition) directives = .ok (some narrowing)
        ∧ scope.implies narrowing = true
        ∧ SelectsFor compilation key assignment ∅ (scope :: rest) steps fragment.selections := by
  constructor
  · intro selects
    cases selects with
    | field mem => cases List.mem_singleton.mp mem
    | nested mem => cases List.mem_singleton.mp mem
    | inlineFragment mem => cases List.mem_singleton.mp mem
    | fragmentSpread mem found asks implied selects =>
        cases List.mem_singleton.mp mem
        exact ⟨_, _, found, asks, implied, selects⟩
  · rintro ⟨fragment, narrowing, found, asks, implied, selects⟩
    exact .fragmentSpread (List.mem_singleton_self _) found asks implied selects

/-- Through a fragment something is selected only if the first scope implies what is asked. -/
theorem exists_implied {selection : Selection} {asked : Option Narrowing}
    (selects : SelectsFor compilation key assignment known (scope :: rest) steps [selection])
    (asks : selection.Asks compilation asked) :
    ∃ narrowing, asked = some narrowing ∧ scope.implies narrowing = true := by
  cases asks with
  | inlineFragment evaluated =>
      rcases inlineFragment_iff.mp selects with ⟨narrowing, asks, implied, -⟩
      exact ⟨narrowing, Except.ok.inj (evaluated.symm.trans asks), implied⟩
  | fragmentSpread found evaluated =>
      rcases fragmentSpread_iff.mp selects with ⟨fragment, narrowing, isFragment, asks, implied, -⟩
      rcases Option.some.inj (found.symm.trans isFragment) with rfl
      exact ⟨narrowing, Except.ok.inj (evaluated.symm.trans asks), implied⟩

end Single

end SelectsFor

/-- Whether a gathered field is what is selected for whoever stands within the given scopes, or
leads to it. -/
inductive GatheredField.Selects (compilation : Compilation) (key : Name)
    (assignment : Assignment) (known : GatheredField) : List Scope → List FieldStep → Prop where
  | here {scope : Scope} (isKey : known.responseKey = key)
      (holds : known.conditions.all (·.holds assignment) = true) :
      Selects compilation key assignment known [scope] []
  | nested {scope inner : Scope} {rest : List Scope} {step : FieldStep} {steps : List FieldStep}
      (isKey : known.responseKey = step.responseKey)
      (isType : known.field.type.innerName = step.type)
      (isComposite : compilation.schema.isComposite step.type = .ok true)
      (onType : inner.implies (.onType step.type) = true)
      (selects : SelectsFor compilation key assignment ∅ (inner :: rest) steps
        known.selections) :
      Selects compilation key assignment known (scope :: inner :: rest) (step :: steps)

/-- Whether what is gathered behind a branch selects a response key for whoever stands within the
given scopes: the first of them has to imply the key of the branch. -/
def SelectsBehind (compilation : Compilation) (key : Name) (assignment : Assignment)
    (around : Scope) (scope : Scope) (rest : List Scope) (steps : List FieldStep)
    (behind : Narrowing × List Selection) : Prop :=
  scope.implies behind.1 = true
    ∧ SelectsFor compilation key assignment (around.tests ∪ behind.1.tests) (scope :: rest) steps
      behind.2

/-- Whether what is gathered in a scope selects a response key for whoever stands within the given
scopes: as a field, behind a branch, or in a fragment that is spread. -/
def Gathered.Selects (compilation : Compilation) (key : Name) (assignment : Assignment)
    (around : Scope) (gathered : Gathered) (scope : Scope) (rest : List Scope)
    (steps : List FieldStep) : Prop :=
  (∃ known ∈ gathered.fields, known.Selects compilation key assignment (scope :: rest) steps)
    ∨ (∃ behind ∈ gathered.branches,
      SelectsBehind compilation key assignment around scope rest steps behind)
    ∨ ∃ name ∈ gathered.spreads, ∃ fragment, compilation.spreadFragment? name = some fragment
      ∧ scope.implies (.onType fragment.typeCondition) = true
      ∧ SelectsFor compilation key assignment ∅ (scope :: rest) steps fragment.selections

section Asking

variable {scope : Scope} {narrowing : Narrowing} {directives : List Directive}
  {typeCondition : Option Name} {assignment : Assignment} {field : FieldSelection}
  {included : InclusionResult}

theorem Narrowing.tests_of_ofDirectives
    (asks : Narrowing.ofDirectives typeCondition directives = .ok (some narrowing)) :
    narrowing.tests = Directive.tests directives := by
  rcases ofDirectives_eq_ok asks with ⟨included, isResult, ⟨-, none⟩ | ⟨-, defer, same⟩⟩
  · cases none
  · rcases Option.some.inj same with rfl
    ext test
    cases included <;> simp [Narrowing.tests, Directive.tests, isResult, InclusionResult.group?]

theorem Narrowing.tests_of_beq {other : Narrowing} (same : (narrowing == other) = true) :
    narrowing.tests = other.tests := by
  rcases Narrowing.of_beq same with ⟨-, sameConditions, -⟩
  ext test
  simp only [Narrowing.tests]
  cases conditions : narrowing.conditions with
  | none => cases otherConditions : other.conditions <;> simp_all
  | some group =>
      cases otherConditions : other.conditions with
      | none => simp [conditions, otherConditions] at sameConditions
      | some otherGroup =>
          rw [conditions, otherConditions] at sameConditions
          simpa using ConditionGroup.mem_tests_of_beq (by simpa using sameConditions)

theorem Scope.tests_subset_of_implies (implied : scope.implies narrowing = true) :
    narrowing.tests ⊆ scope.tests := by
  rintro test ⟨group, isGroup, made⟩
  exact (Scope.implies_iff.mp implied).2.1 group isGroup test made

/-- What a scope leaves of a narrowing makes all of its tests that are not known already. -/
theorem Scope.tests_union_unknownPart :
    scope.tests ∪ (scope.unknownPart narrowing).tests = scope.tests ∪ narrowing.tests := by
  ext test
  constructor
  · rintro (isKnown | ⟨remaining, isLeft, made⟩)
    · exact Or.inl isKnown
    · rcases Option.bind_eq_some_iff.mp isLeft with ⟨group, isGroup, remains⟩
      exact Or.inr ⟨group, isGroup, ConditionGroup.mem_of_remainderIn remains made⟩
  · rintro (isKnown | ⟨group, isGroup, made⟩)
    · exact Or.inl isKnown
    · rcases ConditionGroup.mem_remainderIn_or_scope scope.knownConditions made with
        ⟨remaining, remains, kept⟩ | isKnown
      · exact Or.inr ⟨remaining, Option.bind_eq_some_iff.mpr ⟨group, isGroup, remains⟩, kept⟩
      · exact Or.inl isKnown

theorem FieldSelection.isIncluded_eq
    (evaluated : InclusionResult.ofDirectives field.directives = .ok included) :
    field.isIncluded assignment = included.holds assignment :=
  (InclusionResult.holds_ofDirectives evaluated).symm

end Asking

section Fields

variable {compilation : Compilation} {key : Name} {assignment : Assignment} {around scope : Scope}
  {rest : List Scope} {steps : List FieldStep}

/-- Fields of one response key and type, gathered as one, select what each of them does. -/
theorem GatheredField.selects_united {known fresh : GatheredField}
    (sameKey : known.responseKey = fresh.responseKey)
    (sameType : known.field.type = fresh.field.type) :
    (Gathered.united known fresh).Selects compilation key assignment (scope :: rest) steps
      ↔ known.Selects compilation key assignment (scope :: rest) steps
        ∨ fresh.Selects compilation key assignment (scope :: rest) steps := by
  have types := congrArg TypeReference.innerName sameType
  constructor
  · intro selects
    cases selects with
    | here isKey holds =>
        rw [Gathered.united, Alternatives.holds_union, Bool.or_eq_true] at holds
        rcases holds with holds | holds
        · exact Or.inl (.here isKey holds)
        · exact Or.inr (.here (sameKey.symm.trans isKey) holds)
    | nested isKey isType isComposite onType selects =>
        rcases SelectsFor.append_iff.mp selects with selects | selects
        · exact Or.inl (.nested isKey isType isComposite onType selects)
        · exact Or.inr (.nested (sameKey.symm.trans isKey) (types.symm.trans isType) isComposite
            onType selects)
  · rintro (selects | selects)
    · cases selects with
      | here isKey holds =>
          refine .here isKey ?_
          rw [Gathered.united, Alternatives.holds_union, holds, Bool.true_or]
      | nested isKey isType isComposite onType selects =>
          exact .nested isKey isType isComposite onType (SelectsFor.append_iff.mpr (Or.inl selects))
    · cases selects with
      | here isKey holds =>
          refine .here (sameKey.trans isKey) ?_
          rw [Gathered.united, Alternatives.holds_union, holds, Bool.or_true]
      | nested isKey isType isComposite onType selects =>
          exact .nested (sameKey.trans isKey) (types.trans isType) isComposite onType
            (SelectsFor.append_iff.mpr (Or.inr selects))

/-- What gathering makes of a field that the scope does not refuse selects what the field does. -/
theorem GatheredField.selects_iff {field : FieldSelection} {below : List Selection}
    {included : InclusionResult}
    (evaluated : InclusionResult.ofDirectives field.directives = .ok included)
    (notSkipped : included.isSkipped = false)
    (admitted : ∀ group ∈ included.group?, group.contradicts around.knownConditions = false)
    (knownHolds : rest = [] → around.knownConditions.all (·.holds assignment) = true) :
    (GatheredField.mk field (Gathered.conditionsIn around included) below).Selects compilation
        key assignment (scope :: rest) steps
      ↔ SelectsFor compilation key assignment around.tests (scope :: rest) steps
        [.field field below] := by
  have holdsIff (atEnd : rest = []) :
      (Gathered.conditionsIn around included).all (·.holds assignment)
        = field.isIncluded assignment := by
    rw [FieldSelection.isIncluded_eq evaluated,
      Gathered.holds_conditionsIn notSkipped (knownHolds atEnd)]
  constructor
  · intro selects
    cases selects with
    | here isKey holds =>
        rw [holdsIff rfl] at holds
        exact .field (List.mem_singleton_self _) isKey holds
    | nested isKey isType isComposite onType selects =>
        refine .nested (List.mem_singleton_self _) evaluated notSkipped ?_ isKey isType isComposite
          onType selects
        rintro test ⟨group, isGroup, made⟩ ⟨other, isOther, opposed⟩
        rw [evaluated, Except.ok.injEq] at isGroup
        subst isGroup
        have contradicts := ConditionGroup.contradicts_iff_opposite.mpr
          ⟨test, made, other, isOther, opposed⟩
        rw [admitted group rfl] at contradicts
        cases contradicts
  · intro selects
    cases selects with
    | field mem isKey holds =>
        rcases Selection.field.inj (List.mem_singleton.mp mem) with ⟨rfl, rfl⟩
        refine .here isKey ?_
        rw [holdsIff rfl, holds]
    | nested mem _ _ _ isKey isType isComposite onType selects =>
        rcases Selection.field.inj (List.mem_singleton.mp mem) with ⟨rfl, rfl⟩
        exact .nested isKey isType isComposite onType selects
    | inlineFragment mem => cases List.mem_singleton.mp mem
    | fragmentSpread mem => cases List.mem_singleton.mp mem

end Fields

namespace Gathered

variable {compilation : Compilation} {key : Name} {assignment : Assignment} {around scope : Scope}
  {rest : List Scope} {steps : List FieldStep} {gathered next : Gathered} {selection : Selection}

theorem selects_addField {fresh : GatheredField} {type : Name}
    (added : gathered.addField type fresh = .ok next) :
    next.Selects compilation key assignment around scope rest steps
      ↔ gathered.Selects compilation key assignment around scope rest steps
        ∨ fresh.Selects compilation key assignment (scope :: rest) steps := by
  rw [Selects, Selects]
  rcases addField_cases added with
    ⟨-, rfl⟩ | ⟨before, known, after, split, sameKey, sameType, rfl⟩
  · rw [exists_mem_append_singleton_iff, or_right_comm]
  · rw [exists_mem_united_iff (GatheredField.selects_united sameKey sameType), split,
      or_right_comm]

theorem selectsBehind_united {known branch : Narrowing} {earlier inner : List Selection}
    (same : (known == branch) = true) :
    SelectsBehind compilation key assignment around scope rest steps (known, earlier ++ inner)
      ↔ SelectsBehind compilation key assignment around scope rest steps (known, earlier)
        ∨ SelectsBehind compilation key assignment around scope rest steps (branch, inner) := by
  have implies : scope.implies known = true ↔ scope.implies branch = true :=
    ⟨Scope.implies_of_beq (Narrowing.beq_comm ▸ same), Scope.implies_of_beq same⟩
  simp only [SelectsBehind, SelectsFor.append_iff, and_or_left, implies,
    Narrowing.tests_of_beq same]

theorem selects_addBranch {branch : Narrowing} {inner : List Selection} :
    (gathered.addBranch branch inner).Selects compilation key assignment around scope rest steps
      ↔ gathered.Selects compilation key assignment around scope rest steps
        ∨ SelectsBehind compilation key assignment around scope rest steps (branch, inner) := by
  rw [Selects, Selects]
  rcases addBranch_cases gathered branch inner with
    ⟨-, result⟩ | ⟨before, known, earlier, after, split, same, result⟩
  · rw [result, exists_mem_append_singleton_iff, or_right_comm]
    simp only [or_assoc]
  · rw [result, split, exists_mem_united_iff (selectsBehind_united same), or_right_comm]
    simp only [or_assoc]

theorem selects_addSpread {name : Name} {fragment : Fragment}
    (found : compilation.spreadFragment? name = some fragment) :
    (gathered.addSpread name).Selects compilation key assignment around scope rest steps
      ↔ gathered.Selects compilation key assignment around scope rest steps
        ∨ scope.implies (.onType fragment.typeCondition) = true
          ∧ SelectsFor compilation key assignment ∅ (scope :: rest) steps fragment.selections := by
  simp only [Selects, addSpread, mem_appendNew, or_and_right, exists_or, exists_eq_left, found,
    Option.some.injEq, exists_eq_left']
  simp only [or_assoc]

/-- What is unknown of a narrowing that asks for no unknown conditions and no unknown boundary is
its type. -/
theorem unknownPart_onType {narrowing : Narrowing} {type : Name}
    (isType : narrowing.typeCondition = some type)
    (conditions : (around.unknownPart narrowing).conditions = none)
    (defer : (around.unknownPart narrowing).defer = none) :
    around.unknownPart narrowing = around.unknownPart (.onType type) := by
  simp only [Scope.unknownPart] at conditions defer
  simp [Scope.unknownPart, Narrowing.onType, isType, conditions, defer]

section Takes

variable (aroundReachable : Scope.Reachable compilation.schema around)
  (reachable : Scope.Reachable compilation.schema scope) (within : scope.isWithin around = true)

include aroundReachable reachable within

/-- What becomes of a selection in a scope selects what the selection does. -/
theorem Takes.selects_iff
    (knownHolds : rest = [] → around.knownConditions.all (·.holds assignment) = true)
    (takes : Takes compilation around gathered selection next) :
    next.Selects compilation key assignment around scope rest steps
      ↔ gathered.Selects compilation key assignment around scope rest steps
        ∨ SelectsFor compilation key assignment around.tests (scope :: rest) steps
          [selection] := by
  -- Where a selection adds nothing, it is shown to select nothing.
  have unselected {selected : Prop} (never : ¬ selected) :
      gathered.Selects compilation key assignment around scope rest steps
        ↔ gathered.Selects compilation key assignment around scope rest steps ∨ selected :=
    ⟨Or.inl, fun either => either.resolve_right never⟩
  have unknownPart {narrowing : Narrowing} :=
    aroundReachable.implies_unknownPart_iff reachable within narrowing
  cases takes with
  | skippedField skipped =>
      apply unselected
      intro selects
      rcases selects.of_field skipped with ⟨-, included⟩ | ⟨notSkipped, -⟩
      · cases included
      · cases notSkipped
  | refusedField evaluated refused =>
      apply unselected
      intro selects
      rcases selects.of_field evaluated with ⟨atEnd, included⟩ | ⟨-, unopposed⟩
      · rw [InclusionResult.holds,
          ConditionGroup.not_holds_of_contradicts refused (knownHolds atEnd)] at included
        cases included
      · rcases ConditionGroup.contradicts_iff_opposite.mp refused with
          ⟨test, made, other, isKnown, opposed⟩
        exact unopposed test ⟨_, evaluated, made⟩ ⟨other, isKnown, opposed⟩
  | field evaluated notSkipped admitted added =>
      rw [selects_addField added,
        GatheredField.selects_iff evaluated notSkipped admitted knownHolds]
  | leftOut asks refused =>
      apply unselected
      intro selects
      rcases selects.exists_implied asks with ⟨narrowing, rfl, implied⟩
      have refuses := refused narrowing rfl
      rw [Scope.admits_of_implies aroundReachable within implied] at refuses
      cases refuses
  | branch asks isKey =>
      rcases asks with ⟨evaluated⟩
      rcases Scope.effective?_eq_some isKey with ⟨rfl, -⟩
      rw [selects_addBranch, SelectsBehind, unknownPart, Scope.tests_union_unknownPart,
        SelectsFor.inlineFragment_iff, Narrowing.tests_of_ofDirectives evaluated]
      simp only [evaluated, Except.ok.injEq, Option.some.injEq, exists_eq_left']
  | spreadBranch asks isKey conditional =>
      rcases asks with _ | ⟨found, evaluated⟩
      rcases Scope.effective?_eq_some isKey with ⟨rfl, -⟩
      rw [selects_addBranch, SelectsBehind, unknownPart, SelectsFor.fragmentSpread_iff,
        SelectsFor.fragmentSpread_iff]
      simp only [found, evaluated, Except.ok.injEq, Option.some.injEq, exists_eq_left',
        exists_and_left, and_self_left]
  | spread asks conditions defer =>
      rcases asks with _ | ⟨found, evaluated⟩
      rw [selects_addSpread found, SelectsFor.fragmentSpread_iff, ← unknownPart,
        ← unknownPart_onType (Narrowing.typeCondition_of_ofDirectives evaluated) conditions defer,
        unknownPart]
      simp only [found, evaluated, Except.ok.injEq, Option.some.injEq, exists_eq_left',
        exists_and_left]

/-- Gathering selections in a scope keeps what they select for whoever stands within the scope. -/
theorem selectsFor_gatherAll {limit levels : Nat} {selections : List Selection}
    {result : Gathered}
    (knownHolds : rest = [] → around.knownConditions.all (·.holds assignment) = true)
    (run : gatherAll compilation limit around levels .empty selections = .ok result) :
    SelectsFor compilation key assignment around.tests (scope :: rest) steps selections
      ↔ result.Selects compilation key assignment around scope rest steps := by
  refine gatherAll_takes (fun done gathered =>
    SelectsFor compilation key assignment around.tests (scope :: rest) steps done
      ↔ gathered.Selects compilation key assignment around scope rest steps) [] ?_ ?_ ?_ run
  · intro done selection gathered next ih takes
    rw [SelectsFor.append_iff, ih]
    exact (takes.selects_iff aroundReachable reachable within knownHolds).symm
  · intro done typeCondition directives inner narrowing gathered asks implied ih
    rcases asks with ⟨evaluated⟩
    have known := (aroundReachable.isFullyKnownIn reachable within).implies implied
    have tests : around.tests ∪ Directive.tests directives = around.tests := by
      rw [← Narrowing.tests_of_ofDirectives evaluated]
      exact Set.union_eq_self_of_subset_right (Scope.tests_subset_of_implies implied)
    rw [← ih, SelectsFor.append_iff, SelectsFor.append_iff, SelectsFor.inlineFragment_iff, tests]
    simp only [evaluated, Except.ok.injEq, Option.some.injEq, exists_eq_left', known, true_and]
  · refine ⟨fun selects => absurd selects SelectsFor.not_nil, ?_⟩
    rintro (⟨_, mem, -⟩ | ⟨_, mem, -⟩ | ⟨_, mem, -⟩) <;> cases mem

end Takes

end Gathered

end ResponseShape
