import ResponseShape.Proofs.Execution.CollectedFields
import ResponseShape.Proofs.Scope.Failures

/-!
# How selections are taken

What gathering makes of one selection, told by its directives: a field is left out, or gathered
under what the scope leaves of its conditions; what a fragment asks makes it a branch or a spread,
unless the scope refuses it; and an inline fragment that asks for nothing new dissolves.
`Gathered.Takes` lists the ways to succeed and `Gathered.Refuses` those to fail
(`Gathered.gather_cases`).

Dissolving is the one recursion of gathering. Induction along selections and those in their inline
fragments (`Selection.dissolving_induction`) carries what a step does over to a whole run: to what
holds of the selections done so far (`Gathered.gatherAll_takes`), and to what is kept by each step
or else fails in some way (`Gathered.yields_gatherAll_of_steps`). A property of the selections that
goes over to those in them holds for all that is gathered (`Gathered.isTakenFrom_gatherAll`). It
takes a level of nesting, and a run with fewer of them differs only in that it can be cut off
(`Gathered.isCutOff_gatherAll`).
-/

namespace ResponseShape

/-- Whether an outcome is that of exceeding a limit, or the same as another. -/
def IsCutOff {α : Type} (limit : Nat) (outcome other : Except BuildError α) : Prop :=
  outcome = .error (.recursionLimitExceeded limit) ∨ outcome = other

theorem IsCutOff.refl {α : Type} {limit : Nat} (outcome : Except BuildError α) :
    IsCutOff limit outcome outcome := .inr rfl

theorem IsCutOff.bind {α β : Type} {limit : Nat} {outcome other : Except BuildError α}
    {next otherNext : α → Except BuildError β} (first : IsCutOff limit outcome other)
    (second : ∀ value, IsCutOff limit (next value) (otherNext value)) :
    IsCutOff limit (outcome >>= next) (other >>= otherNext) := by
  rcases first with rfl | rfl
  · exact .inl rfl
  · cases outcome with
    | error error => exact .inr rfl
    | ok value => exact second value

theorem IsCutOff.eq_of_ok {α : Type} {limit : Nat} {outcome other : Except BuildError α}
    {result same : α} (isCutOff : IsCutOff limit outcome other) (run : outcome = .ok result)
    (otherRun : other = .ok same) : result = same := by
  rcases isCutOff with cut | rfl
  · rw [cut] at run
    cases run
  · exact Except.ok.inj (run.symm.trans otherRun)

/-- Induction along selections: those in an inline fragment come before what begins with it. -/
@[elab_as_elim]
theorem Selection.dissolving_induction {motive : List Selection → Prop} (nil : motive [])
    (cons : ∀ selection rest, (∀ typeCondition directives inner,
      selection = .inlineFragment typeCondition directives inner → motive inner) →
      motive rest → motive (selection :: rest)) : (selections : List Selection) → motive selections
  | [] => nil
  | .field _ _ :: rest => cons _ rest (fun _ _ _ same => nomatch same)
      (dissolving_induction nil cons rest)
  | .fragmentSpread _ _ :: rest => cons _ rest (fun _ _ _ same => nomatch same)
      (dissolving_induction nil cons rest)
  | .inlineFragment _ _ inner :: rest => cons _ rest (by
      rintro _ _ _ ⟨⟩
      exact dissolving_induction nil cons inner) (dissolving_induction nil cons rest)

/-- What an inline fragment or a spread asks of the scope around it, nothing if its directives skip
it statically. -/
inductive Selection.Asks (compilation : Compilation) : Selection → Option Narrowing → Prop where
  | inlineFragment {typeCondition : Option Name} {directives : List Directive}
      {selections : List Selection} {asked : Option Narrowing}
      (evaluated : Narrowing.ofDirectives typeCondition directives = .ok asked) :
      Asks compilation (.inlineFragment typeCondition directives selections) asked
  | fragmentSpread {name : Name} {directives : List Directive} {fragment : Fragment}
      {asked : Option Narrowing} (found : compilation.spreadFragment? name = some fragment)
      (evaluated : Narrowing.ofDirectives (some fragment.typeCondition) directives = .ok asked) :
      Asks compilation (.fragmentSpread name directives) asked

/-- What asking is of a narrowing: its directives are evaluated, and they do not skip statically. -/
theorem Narrowing.ofDirectives_eq_ok {typeCondition : Option Name} {directives : List Directive}
    {asked : Option Narrowing} (evaluated : ofDirectives typeCondition directives = .ok asked) :
    ∃ included, InclusionResult.ofDirectives directives = .ok included
      ∧ (included = .boolean false ∧ asked = none
        ∨ included.isSkipped = false
          ∧ ∃ defer, asked = some ⟨typeCondition, included.group?, defer⟩) := by
  simp only [ofDirectives] at evaluated
  cases result : InclusionResult.ofDirectives directives with
  | error error => simp [result, bind, Except.bind] at evaluated
  | ok included =>
      refine ⟨included, rfl, ?_⟩
      simp only [result, bind, Except.bind] at evaluated
      split at evaluated
      next => exact Or.inl ⟨rfl, (Except.ok.inj evaluated).symm⟩
      next notSkipped =>
        right
        have isKept : included.isSkipped = false := by
          cases included with
          | conditional => rfl
          | boolean value => cases value <;> first | rfl | exact absurd rfl notSkipped
        cases deferred : deferOfDirectives directives with
        | error error => simp [deferred] at evaluated
        | ok defer =>
            simp only [deferred, pure, Except.pure, Except.ok.injEq] at evaluated
            exact ⟨isKept, defer, evaluated.symm⟩

theorem Narrowing.typeCondition_of_ofDirectives {typeCondition : Option Name}
    {directives : List Directive} {narrowing : Narrowing}
    (evaluated : ofDirectives typeCondition directives = .ok (some narrowing)) :
    narrowing.typeCondition = typeCondition := by
  rcases ofDirectives_eq_ok evaluated with ⟨included, -, ⟨-, none⟩ | ⟨-, defer, same⟩⟩
  · cases none
  · rw [Option.some.inj same]

namespace Gathered

/-- The conditions that a scope leaves of those of a field. -/
def conditionsIn (scope : Scope) (included : InclusionResult) : Option Alternatives :=
  (included.group?.bind (·.remainderIn scope.knownConditions)).map .single

/-- What becomes of one selection in a scope. -/
inductive Takes (compilation : Compilation) (scope : Scope) (gathered : Gathered) :
    Selection → Gathered → Prop where
  | skippedField {field : FieldSelection} {below : List Selection}
      (skipped : InclusionResult.ofDirectives field.directives = .ok (.boolean false)) :
      Takes compilation scope gathered (.field field below) gathered
  | refusedField {field : FieldSelection} {below : List Selection} {group : ConditionGroup}
      (evaluated : InclusionResult.ofDirectives field.directives = .ok (.conditional group))
      (refused : group.contradicts scope.knownConditions = true) :
      Takes compilation scope gathered (.field field below) gathered
  | field {field : FieldSelection} {below : List Selection} {included : InclusionResult}
      {next : Gathered}
      (evaluated : InclusionResult.ofDirectives field.directives = .ok included)
      (notSkipped : included.isSkipped = false)
      (admitted : ∀ group ∈ included.group?, group.contradicts scope.knownConditions = false)
      (added : gathered.addField scope.type ⟨field, conditionsIn scope included, below⟩
        = .ok next) :
      Takes compilation scope gathered (.field field below) next
  | leftOut {selection : Selection} {asked : Option Narrowing}
      (asks : selection.Asks compilation asked)
      (refused : ∀ narrowing ∈ asked, scope.admits narrowing = false) :
      Takes compilation scope gathered selection gathered
  | branch {typeCondition : Option Name} {directives : List Directive}
      {inner : List Selection} {narrowing key : Narrowing}
      (asks : Selection.Asks compilation (.inlineFragment typeCondition directives inner)
        (some narrowing))
      (isKey : scope.effective? narrowing = some key) (admits : scope.admits narrowing = true) :
      Takes compilation scope gathered (.inlineFragment typeCondition directives inner)
        (gathered.addBranch key inner)
  | spreadBranch {name : Name} {directives : List Directive} {narrowing key : Narrowing}
      (asks : Selection.Asks compilation (.fragmentSpread name directives) (some narrowing))
      (isKey : scope.effective? narrowing = some key)
      (conditional : key.conditions.isSome = true ∨ key.defer.isSome = true)
      (admits : scope.admits narrowing = true) :
      Takes compilation scope gathered (.fragmentSpread name directives)
        (gathered.addBranch key [.fragmentSpread name directives])
  | spread {name : Name} {directives : List Directive} {narrowing : Narrowing}
      (asks : Selection.Asks compilation (.fragmentSpread name directives) (some narrowing))
      (conditions : (scope.unknownPart narrowing).conditions = none)
      (defer : (scope.unknownPart narrowing).defer = none) :
      Takes compilation scope gathered (.fragmentSpread name directives) (gathered.addSpread name)

/-- How one selection fails in a scope. -/
inductive Refuses (compilation : Compilation) (scope : Scope) (limit : Nat) (gathered : Gathered) :
    Selection → BuildError → Prop where
  | malformed {selection : Selection} {error : BuildError}
      (isTextError : error.isTextError = true) :
      Refuses compilation scope limit gathered selection error
  | conflict {field : FieldSelection} {below : List Selection} {conditions : Option Alternatives}
      {error : BuildError}
      (refused : gathered.addField scope.type ⟨field, conditions, below⟩ = .error error) :
      Refuses compilation scope limit gathered (.field field below) error
  | undefined {name : Name} {directives : List Directive}
      (notFound : compilation.fragment? name = none) :
      Refuses compilation scope limit gathered (.fragmentSpread name directives)
        (.unknownFragment name)
  | exhausted {typeCondition : Option Name} {directives : List Directive}
      {inner : List Selection} :
      Refuses compilation scope limit gathered (.inlineFragment typeCondition directives inner)
        (.recursionLimitExceeded limit)

section Additions

variable {gathered next : Gathered} {type : Name} {fresh : GatheredField}

/-- A gathered field with another selection of it. -/
def united (known fresh : GatheredField) : GatheredField :=
  { known with
    conditions := Alternatives.union known.conditions fresh.conditions
    selections := known.selections ++ fresh.selections }

/-- All that adding a field can do: it joins the end, or unites with one that selects the same. -/
theorem addField_cases (added : gathered.addField type fresh = .ok next) :
    ((∀ known ∈ gathered.fields, known.responseKey ≠ fresh.responseKey)
        ∧ next = { gathered with fields := gathered.fields ++ [fresh] })
      ∨ ∃ before known after, gathered.fields = before ++ known :: after
        ∧ known.responseKey = fresh.responseKey ∧ known.field.type = fresh.field.type
        ∧ next = { gathered with fields := before ++ united known fresh :: after } := by
  simp only [addField] at added
  rcases updateOrAppend_cases (fun known => known.responseKey == fresh.responseKey)
      (fun known => united known fresh) fresh gathered.fields with
    ⟨none, result⟩ | ⟨before, known, after, split, none, isFirst, result⟩
  · left
    have notFound : gathered.fields.find? (fun known => known.responseKey == fresh.responseKey)
        = Option.none := by
      simpa [List.find?_eq_none] using none
    rw [notFound] at added
    refine ⟨by simpa using none, ?_⟩
    rw [← Except.ok.inj added, ← result]
    rfl
  · right
    have found : gathered.fields.find? (fun known => known.responseKey == fresh.responseKey)
        = some known := by
      rw [List.find?_eq_some_iff_append]
      exact ⟨isFirst, before, after, split, fun earlier mem => by simp [none earlier mem]⟩
    rw [found] at added
    simp only at added
    split at added
    next same =>
      simp only [FieldSummary.selectsSame, FieldSummary.ofSelection, Bool.and_eq_true,
        beq_iff_eq] at same
      refine ⟨before, known, after, split, by simpa using isFirst, same.1.2, ?_⟩
      rw [← Except.ok.inj added, ← result]
      rfl
    next => cases added

theorem addBranch_cases (gathered : Gathered) (key : Narrowing) (inner : List Selection) :
    ((∀ branch ∈ gathered.branches, (branch.1 == key) = false)
        ∧ gathered.addBranch key inner =
          { gathered with branches := gathered.branches ++ [(key, inner)] })
      ∨ ∃ before known earlier after, gathered.branches = before ++ (known, earlier) :: after
        ∧ (known == key) = true
        ∧ gathered.addBranch key inner =
          { gathered with branches := before ++ (known, earlier ++ inner) :: after } := by
  rcases updateOrAppend_cases (·.1 == key)
      (fun branch => (branch.1, branch.2 ++ inner)) (key, inner) gathered.branches with
    ⟨none, result⟩ | ⟨before, ⟨known, earlier⟩, after, split, -, isFirst, result⟩
  · refine Or.inl ⟨none, ?_⟩
    rw [← result]
    rfl
  · refine Or.inr ⟨before, known, earlier, after, split, isFirst, ?_⟩
    rw [addBranch]
    simp only [Gathered.mk.injEq, true_and, and_true]
    exact result

/-- Adding a field only fails in conflict with a gathered one, of which it is told apart. -/
theorem exists_conflict_of_addField {error : BuildError}
    (refused : gathered.addField type fresh = .error error) :
    ∃ known ∈ gathered.fields, known.responseKey = fresh.responseKey
      ∧ (FieldSummary.ofSelection known.field none).selectsSame (.ofSelection fresh.field none)
        = false
      ∧ error = FieldSummary.conflict type (.ofSelection known.field none)
        (.ofSelection fresh.field none) := by
  simp only [addField] at refused
  split at refused
  next => cases refused
  next known found =>
    split at refused
    next => cases refused
    next differ =>
      refine ⟨known, List.mem_of_find?_eq_some found, ?_, Bool.eq_false_iff.mpr differ,
        (Except.error.inj refused).symm⟩
      simpa using List.find?_some found

/-- With a field added, each gathered field is one from before, the new one, or both in one. -/
theorem exists_fields_of_addField (added : gathered.addField type fresh = .ok next) :
    ∃ fields, next = { gathered with fields := fields }
      ∧ ∀ known ∈ fields, known ∈ gathered.fields ∨ known = fresh
        ∨ ∃ old ∈ gathered.fields, old.responseKey = fresh.responseKey
          ∧ old.field.type = fresh.field.type ∧ known = united old fresh := by
  rcases addField_cases added with ⟨-, rfl⟩ | ⟨before, old, after, split, sameKey, sameType, rfl⟩
  · refine ⟨_, rfl, fun known mem => ?_⟩
    exact (List.mem_append.mp mem).imp_right fun isNew => Or.inl (List.mem_singleton.mp isNew)
  · refine ⟨_, rfl, fun known mem => ?_⟩
    rcases List.mem_append.mp mem with isOld | here
    · exact Or.inl (by simp [split, isOld])
    · rcases List.mem_cons.mp here with isUnited | isOld
      · exact Or.inr (Or.inr ⟨old, by simp [split], sameKey, sameType, isUnited⟩)
      · exact Or.inl (by simp [split, isOld])

/-- With a branch added, each branch is one from before, the new one, or one from before with more
behind it. -/
theorem exists_branches_of_addBranch (gathered : Gathered) (key : Narrowing)
    (inner : List Selection) :
    ∃ branches, gathered.addBranch key inner = { gathered with branches := branches }
      ∧ ∀ branch ∈ branches, branch ∈ gathered.branches ∨ branch = (key, inner)
        ∨ ∃ known earlier, (known, earlier) ∈ gathered.branches ∧ (known == key) = true
          ∧ branch = (known, earlier ++ inner) := by
  rcases addBranch_cases gathered key inner with
    ⟨-, result⟩ | ⟨before, known, earlier, after, split, same, result⟩
  · refine ⟨_, result, fun branch mem => ?_⟩
    exact (List.mem_append.mp mem).imp_right fun isNew => Or.inl (List.mem_singleton.mp isNew)
  · refine ⟨_, result, fun branch mem => ?_⟩
    rcases List.mem_append.mp mem with isOld | here
    · exact Or.inl (by simp [split, isOld])
    · rcases List.mem_cons.mp here with isUnited | isOld
      · exact Or.inr (Or.inr ⟨known, earlier, by simp [split], same, isUnited⟩)
      · exact Or.inl (by simp [split, isOld])

end Additions

section Steps

variable {compilation : Compilation} {scope : Scope} {limit remaining : Nat}
  {gathered result : Gathered} {selection : Selection} {selections : List Selection}

theorem yields_addField_takes {field : FieldSelection} {below : List Selection}
    {included : InclusionResult}
    (evaluated : InclusionResult.ofDirectives field.directives = .ok included)
    (notSkipped : included.isSkipped = false)
    (admitted : ∀ group ∈ included.group?, group.contradicts scope.knownConditions = false) :
    Yields (Refuses compilation scope limit gathered (.field field below))
      (Takes compilation scope gathered (.field field below))
      (gathered.addField scope.type ⟨field, conditionsIn scope included, below⟩) := by
  cases added : gathered.addField scope.type ⟨field, conditionsIn scope included, below⟩ with
  | error error => exact Refuses.conflict added
  | ok next => exact Takes.field evaluated notSkipped admitted added

theorem yields_gatherField_takes {field : FieldSelection} {below : List Selection} :
    Yields (Refuses compilation scope limit gathered (.field field below))
      (Takes compilation scope gathered (.field field below))
      (gatherField scope field below gathered) := by
  simp only [gatherField]
  refine ((InclusionResult.blamesInput_ofDirectives _).mono (fun _ => .malformed)
    fun _ => id).remember.bind fun included evaluated => ?_
  split
  next => exact Takes.skippedField evaluated
  next => exact yields_addField_takes evaluated rfl (by simp [InclusionResult.group?])
  next group =>
    simp only [Scope.admits, Narrowing.onConditions, Option.any_some, Bool.not_not]
    split
    next refused => exact Takes.refusedField evaluated refused
    next admitted =>
      refine yields_addField_takes evaluated rfl ?_
      rintro group ⟨⟩
      simpa using admitted

/-- What a scope admits of fragments: what they ask, if it can hold in the scope. -/
theorem yields_admitted? (typeCondition : Option Name) (directives : List Directive) :
    Yields (fun error => error.isTextError = true) (fun outcome =>
      ∃ asked, Narrowing.ofDirectives typeCondition directives = .ok asked
        ∧ (outcome = none ∧ (∀ narrowing ∈ asked, scope.admits narrowing = false)
          ∨ ∃ narrowing, asked = some narrowing ∧ outcome = some narrowing
            ∧ scope.admits narrowing = true))
      (admitted? scope typeCondition directives) := by
  simp only [admitted?]
  refine (Narrowing.blamesInput_ofDirectives typeCondition directives).remember.bind
    fun asked evaluated => ?_
  cases asked with
  | none => exact ⟨none, evaluated, Or.inl ⟨rfl, by simp⟩⟩
  | some narrowing =>
      dsimp only
      split
      next admits => exact ⟨some narrowing, evaluated, Or.inr ⟨narrowing, rfl, rfl, admits⟩⟩
      next refused =>
        refine ⟨some narrowing, evaluated, Or.inl ⟨rfl, ?_⟩⟩
        rintro narrowing ⟨⟩
        simpa using refused

theorem yields_gatherSpread_takes {name : Name} {directives : List Directive} :
    Yields (Refuses compilation scope limit gathered (.fragmentSpread name directives))
      (Takes compilation scope gathered (.fragmentSpread name directives))
      (gatherSpread compilation scope name directives gathered) := by
  simp only [gatherSpread]
  split
  next notFound => exact Refuses.undefined notFound
  next document fragment found =>
    have isSpread := Compilation.spreadFragment?_of_fragment? found
    refine ((yields_admitted? (some fragment.typeCondition) directives).mono
      (fun _ => .malformed) fun _ => id).bind ?_
    rintro _ ⟨asked, evaluated, ⟨rfl, refused⟩ | ⟨narrowing, rfl, rfl, admits⟩⟩
    · exact Takes.leftOut (.fragmentSpread isSpread evaluated) refused
    · have asks := Selection.Asks.fragmentSpread isSpread evaluated
      dsimp only
      split
      next key isKey =>
        split
        next conditional => exact Takes.spreadBranch asks isKey (by simpa using conditional) admits
        next unconditional =>
          rcases Scope.effective?_eq_some isKey with ⟨rfl, -⟩
          simp only [Bool.or_eq_true, Option.isSome_iff_ne_none, not_or, not_not] at unconditional
          exact Takes.spread asks unconditional.1 unconditional.2
      next isImplied =>
        have empty := Scope.unknownPart_isEmpty_iff.mpr (Scope.effective?_eq_none_iff.mp isImplied)
        simp only [Narrowing.isEmpty, Bool.and_eq_true, Option.isNone_iff_eq_none] at empty
        exact Takes.spread asks empty.1.2 empty.2

/-- A selection is taken as its directives say, or fails, or is an inline fragment that asks for
nothing new and dissolves. -/
theorem gather_cases (compilation : Compilation) (limit : Nat) (scope : Scope) (remaining : Nat)
    (gathered : Gathered) (selection : Selection) :
    Yields (Refuses compilation scope limit gathered selection)
        (Takes compilation scope gathered selection)
        (gather compilation limit scope remaining gathered selection)
      ∨ ∃ typeCondition directives inner narrowing fewer,
        selection = .inlineFragment typeCondition directives inner
        ∧ selection.Asks compilation (some narrowing) ∧ scope.implies narrowing = true
        ∧ gather compilation limit scope remaining gathered selection
          = gatherAll compilation limit scope fewer gathered inner := by
  cases selection with
  | field field below =>
      simp only [gather]
      exact Or.inl yields_gatherField_takes
  | fragmentSpread name directives =>
      simp only [gather]
      exact Or.inl yields_gatherSpread_takes
  | inlineFragment typeCondition directives inner =>
      simp only [gather]
      have yields := @yields_admitted? scope typeCondition directives
      cases admitted : admitted? scope typeCondition directives with
      | error error =>
          rw [admitted] at yields
          exact Or.inl (Refuses.malformed yields)
      | ok outcome =>
          rw [admitted] at yields
          rcases yields with ⟨asked, evaluated, ⟨rfl, refused⟩ | ⟨narrowing, rfl, rfl, admits⟩⟩
          · exact Or.inl (Takes.leftOut (.inlineFragment evaluated) refused)
          · simp only [bind, Except.bind]
            split
            next key isKey => exact Or.inl (Takes.branch (.inlineFragment evaluated) isKey admits)
            next isImplied =>
              cases remaining with
              | zero => exact Or.inl Refuses.exhausted
              | succ fewer =>
                  exact Or.inr ⟨typeCondition, directives, inner, narrowing, fewer, rfl,
                    .inlineFragment evaluated, Scope.effective?_eq_none_iff.mp isImplied, rfl⟩

/-- Induction along the selections of a run: each is taken, or dissolves into those it holds. -/
theorem gatherAll_takes (motive : List Selection → Gathered → Prop) (done : List Selection)
    (takes : ∀ done selection gathered next, motive done gathered →
      Takes compilation scope gathered selection next → motive (done ++ [selection]) next)
    (dissolves : ∀ done typeCondition directives inner narrowing gathered,
      Selection.Asks compilation (.inlineFragment typeCondition directives inner)
        (some narrowing) →
      scope.implies narrowing = true → motive (done ++ inner) gathered →
      motive (done ++ [.inlineFragment typeCondition directives inner]) gathered)
    (start : motive done gathered)
    (run : gatherAll compilation limit scope remaining gathered selections = .ok result) :
    motive (done ++ selections) result := by
  induction selections using Selection.dissolving_induction
    generalizing remaining done gathered result with
  | nil =>
      simp only [gatherAll] at run
      rcases Except.ok.inj run with rfl
      simpa using start
  | cons selection rest ofInner ih =>
      simp only [gatherAll] at run
      cases first : gather compilation limit scope remaining gathered selection with
      | error error => simp [first, bind, Except.bind] at run
      | ok next =>
          simp only [first, bind, Except.bind] at run
          have once : motive (done ++ [selection]) next := by
            rcases gather_cases compilation limit scope remaining gathered selection with
              taken | ⟨typeCondition, directives, inner, narrowing, fewer, rfl, asks, implied, same⟩
            · rw [first] at taken
              exact takes done selection gathered next start taken
            · exact dissolves done typeCondition directives inner narrowing next asks implied
                (ofInner _ _ _ rfl done start (same.symm.trans first))
          simpa using ih _ once run

/-- A property of what is gathered that each step keeps holds at the end of a run, from selections
that are allowed, or the run fails as some step does. -/
theorem yields_gatherAll_of_steps (allowed : Selection → Prop) {fails : BuildError → Prop}
    {holds : Gathered → Prop}
    (takes : ∀ {selection gathered next}, allowed selection → holds gathered →
      Takes compilation scope gathered selection next → holds next)
    (refuses : ∀ {selection gathered error}, allowed selection → holds gathered →
      Refuses compilation scope limit gathered selection error → fails error)
    (dissolves : ∀ {typeCondition directives inner narrowing},
      allowed (.inlineFragment typeCondition directives inner) →
      Selection.Asks compilation (.inlineFragment typeCondition directives inner)
        (some narrowing) →
      scope.implies narrowing = true → ∀ selection ∈ inner, allowed selection)
    (start : holds gathered) (areAllowed : ∀ selection ∈ selections, allowed selection) :
    Yields fails holds (gatherAll compilation limit scope remaining gathered selections) := by
  induction selections using Selection.dissolving_induction generalizing remaining gathered with
  | nil => exact start
  | cons selection rest ofInner ih =>
      rw [List.forall_mem_cons] at areAllowed
      rcases areAllowed with ⟨isAllowed, restAllowed⟩
      have once : Yields fails holds
          (gather compilation limit scope remaining gathered selection) := by
        rcases gather_cases compilation limit scope remaining gathered selection with
          taken | ⟨typeCondition, directives, inner, narrowing, fewer, rfl, asks, implied, same⟩
        · exact taken.mono (fun _ => refuses isAllowed start) fun _ => takes isAllowed start
        · rw [same]
          exact ofInner _ _ _ rfl start (dissolves isAllowed asks implied)
      rw [gatherAll]
      exact once.bind fun next nextHolds => ih nextHolds restAllowed

end Steps

section Levels

variable {compilation : Compilation} {scope : Scope} {limit higher remaining more : Nat}
  {gathered result other : Gathered} {selections : List Selection}

/-- Fewer levels than needed cut the gathering off. -/
theorem isCutOff_gatherAll (ordered : remaining ≤ more) : IsCutOff limit
    (gatherAll compilation limit scope remaining gathered selections)
    (gatherAll compilation higher scope more gathered selections) := by
  induction selections using Selection.dissolving_induction
    generalizing remaining more gathered with
  | nil => exact .refl _
  | cons selection rest ofInner ih =>
      simp only [gatherAll]
      refine IsCutOff.bind ?_ fun next => ih ordered
      cases selection with
      | field | fragmentSpread => exact .refl _
      | inlineFragment typeCondition directives inner =>
          simp only [gather]
          refine IsCutOff.bind (.refl _) fun admitted => ?_
          cases admitted with
          | none => exact .refl _
          | some narrowing =>
              dsimp only
              cases scope.effective? narrowing with
              | some effective => exact .refl _
              | none =>
                  cases remaining with
                  | zero => exact .inl rfl
                  | succ remaining =>
                      obtain ⟨further, rfl⟩ : ∃ further, more = further + 1 := ⟨more - 1, by omega⟩
                      exact ofInner _ _ _ rfl (Nat.le_of_succ_le_succ ordered)

/-- Runs that succeed gather the same, however many levels of nesting they may use. -/
theorem gatherAll_eq
    (run : gatherAll compilation limit scope remaining gathered selections = .ok result)
    (otherRun : gatherAll compilation higher scope more gathered selections = .ok other) :
    other = result := by
  rcases Nat.le_total remaining more with ordered | ordered
  · have isCutOff := @isCutOff_gatherAll compilation scope limit higher _ _ gathered selections
      ordered
    exact (isCutOff.eq_of_ok run otherRun).symm
  · have isCutOff := @isCutOff_gatherAll compilation scope higher limit _ _ gathered selections
      ordered
    exact isCutOff.eq_of_ok otherRun run

end Levels

section Results

variable {compilation : Compilation} {scope : Scope} {limit remaining : Nat}
  {gathered result : Gathered} {selection : Selection} {selections : List Selection}

/-- Whether the conditions of every gathered field can hold within the scope. -/
def CanHold (scope : Scope) (gathered : Gathered) : Prop :=
  ∀ known ∈ gathered.fields, ∃ assignment,
    scope.knownConditions.all (·.holds assignment) = true
      ∧ known.conditions.all (·.holds assignment) = true

theorem exists_holds_conditionsIn {included : InclusionResult}
    (admitted : ∀ group ∈ included.group?, group.contradicts scope.knownConditions = false) :
    ∃ assignment, scope.knownConditions.all (·.holds assignment) = true
      ∧ (conditionsIn scope included).all (·.holds assignment) = true := by
  cases included with
  | boolean value =>
      rcases scope.exists_holds_knownConditions with ⟨assignment, known⟩
      exact ⟨assignment, known, rfl⟩
  | conditional group =>
      rcases ConditionGroup.contradicts_eq_false_iff.mp (admitted group rfl) with
        ⟨assignment, known, holds⟩
      refine ⟨assignment, known, ?_⟩
      have remains := group.holds_remainderIn known
      rw [holds] at remains
      simp only [conditionsIn, InclusionResult.group?, Option.bind_some]
      cases left : group.remainderIn scope.knownConditions with
      | none => rfl
      | some rest => simpa [left] using remains

/-- What is gathered in a scope can hold there: the rest was refused. -/
theorem canHold_gatherAll
    (run : gatherAll compilation limit scope remaining .empty selections = .ok gathered) :
    CanHold scope gathered := by
  refine gatherAll_takes (fun _ gathered => CanHold scope gathered) [] ?_ ?_ ?_ run
  · intro done selection gathered next canHold takes
    cases takes with
    | skippedField => exact canHold
    | refusedField => exact canHold
    | leftOut => exact canHold
    | branch => exact canHold
    | spreadBranch => exact canHold
    | spread => exact canHold
    | field _ _ admitted added =>
        rcases exists_fields_of_addField added with ⟨fields, rfl, origins⟩
        intro known mem
        rcases origins known mem with isOld | rfl | ⟨old, oldMem, -, -, rfl⟩
        · exact canHold known isOld
        · exact exists_holds_conditionsIn admitted
        · rcases canHold old oldMem with ⟨assignment, inScope, holds⟩
          exact ⟨assignment, inScope, by simp [united, holds]⟩
  · intro done typeCondition directives inner narrowing gathered _ _ canHold
    exact canHold
  · simp [CanHold, empty]

/-- Whether what is gathered consists of selections with a property, and its branches and spreads
are what such selections ask for. -/
structure IsTakenFrom (compilation : Compilation) (scope : Scope) (property : Selection → Prop)
    (gathered : Gathered) : Prop where
  fields : ∀ field ∈ gathered.fields, ∀ selection ∈ field.selections, property selection
  branches : ∀ branch ∈ gathered.branches, ∀ selection ∈ branch.2, property selection
  keys : ∀ branch ∈ gathered.branches, ∃ selection narrowing, property selection
    ∧ selection.Asks compilation (some narrowing) ∧ scope.effective? narrowing = some branch.1
  spreads : ∀ name ∈ gathered.spreads, ∃ directives narrowing,
    property (.fragmentSpread name directives)
      ∧ Selection.Asks compilation (.fragmentSpread name directives) (some narrowing)

section Origins

variable {property : Selection → Prop}

theorem IsTakenFrom.addBranch {narrowing key : Narrowing} {inner : List Selection}
    (taken : gathered.IsTakenFrom compilation scope property) (hasProperty : property selection)
    (asks : selection.Asks compilation (some narrowing))
    (isKey : scope.effective? narrowing = some key)
    (ofInner : ∀ selection ∈ inner, property selection) :
    (gathered.addBranch key inner).IsTakenFrom compilation scope property := by
  rcases exists_branches_of_addBranch gathered key inner with ⟨branches, result, origins⟩
  rw [result]
  refine { taken with branches := ?_, keys := ?_ }
  · intro branch mem
    rcases origins branch mem with isOld | rfl | ⟨known, earlier, oldMem, -, rfl⟩
    · exact taken.branches branch isOld
    · exact ofInner
    · exact List.forall_mem_append.mpr ⟨taken.branches (known, earlier) oldMem, ofInner⟩
  · intro branch mem
    rcases origins branch mem with isOld | rfl | ⟨known, earlier, oldMem, -, rfl⟩
    · exact taken.keys branch isOld
    · exact ⟨selection, narrowing, hasProperty, asks, isKey⟩
    · exact taken.keys (known, earlier) oldMem

variable (ofField : ∀ field below, property (.field field below) →
    ∀ selection ∈ below, property selection)
  (ofInlineFragment : ∀ typeCondition directives inner,
    property (.inlineFragment typeCondition directives inner) →
      ∀ selection ∈ inner, property selection)

include ofField ofInlineFragment

theorem IsTakenFrom.takes (taken : gathered.IsTakenFrom compilation scope property)
    (hasProperty : property selection)
    (takes : Takes compilation scope gathered selection result) :
    result.IsTakenFrom compilation scope property := by
  cases takes with
  | skippedField => exact taken
  | refusedField => exact taken
  | leftOut => exact taken
  | field _ _ _ added =>
      have ofBelow := ofField _ _ hasProperty
      rcases exists_fields_of_addField added with ⟨fields, rfl, origins⟩
      refine { taken with fields := fun known mem => ?_ }
      rcases origins known mem with isOld | rfl | ⟨old, oldMem, -, -, rfl⟩
      · exact taken.fields known isOld
      · exact ofBelow
      · exact List.forall_mem_append.mpr ⟨taken.fields old oldMem, ofBelow⟩
  | branch asks isKey =>
      exact taken.addBranch hasProperty asks isKey (ofInlineFragment _ _ _ hasProperty)
  | spreadBranch asks isKey =>
      exact taken.addBranch hasProperty asks isKey (List.forall_mem_singleton.mpr hasProperty)
  | spread asks =>
      refine { taken with spreads := fun name mem => ?_ }
      rcases mem_appendNew.mp mem with isOld | rfl
      · exact taken.spreads name isOld
      · exact ⟨_, _, hasProperty, asks⟩

/-- What is gathered from selections is taken from them and those in them. -/
theorem isTakenFrom_gatherAll (all : ∀ selection ∈ selections, property selection)
    (run : gatherAll compilation limit scope remaining .empty selections = .ok result) :
    result.IsTakenFrom compilation scope property := by
  have nothing : empty.IsTakenFrom compilation scope property := by
    constructor <;> simp [empty]
  refine gatherAll_takes (fun done gathered => (∀ selection ∈ done, property selection) →
    gathered.IsTakenFrom compilation scope property) [] ?_ ?_ (fun _ => nothing) run all
  · intro done selection gathered next taken takes
    rw [List.forall_mem_append, List.forall_mem_singleton]
    rintro ⟨ofDone, hasProperty⟩
    exact (taken ofDone).takes ofField ofInlineFragment hasProperty takes
  · intro done typeCondition directives inner narrowing gathered _ _ taken
    rw [List.forall_mem_append, List.forall_mem_singleton]
    rintro ⟨ofDone, hasProperty⟩
    exact taken (List.forall_mem_append.mpr ⟨ofDone, ofInlineFragment _ _ _ hasProperty⟩)

end Origins

end Results

end Gathered

end ResponseShape
