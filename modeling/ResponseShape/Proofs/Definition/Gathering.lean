import ResponseShape.Proofs.Definition.Taking
import ResponseShape.Proofs.Inclusion.Directives
import ResponseShape.Proofs.Ordered
import ResponseShape.Proofs.Scope.Satisfaction

/-!
# What is gathered

Gathering puts every selection in one of four ways: it leaves it out, it adds a field, a branch or a
spread for it, or it goes on with the selections of an inline fragment in its stead.
`Gathered.Adds` describes the first three by what they mean for the objects within the scope, and
`Gathered.gatherAll_induction` is induction along a whole run.

What comes of it: each field that execution selects is gathered, or found behind a branch or spread
that the object enters (`Gathered.covers_gatherAll`), and nothing is gathered that execution would
not reach (`Gathered.isJustified_gatherAll`).
-/

namespace ResponseShape

namespace Gathered

variable {compilation : Compilation} {scope : Scope} {object : Name} {assignment : Assignment}

/-- What one selection adds to what is gathered in a scope. -/
inductive Adds (compilation : Compilation) (scope : Scope) (gathered : Gathered)
    (selection : Selection) : Gathered → Prop where
  | nothing
      (never : scope.IsSound compilation.schema →
        ∀ object assignment, scope.holds compilation.schema object assignment = true →
        ∀ collected, compilation.Reaches object assignment [selection] collected →
          collected.field.isIncluded assignment = false) :
      Adds compilation scope gathered selection gathered
  | field {field : FieldSelection} {below : List Selection} {conditions : Option Alternatives}
      {next : Gathered} (isField : selection = .field field below)
      (exact : scope.IsSound compilation.schema →
        ∀ object assignment, scope.holds compilation.schema object assignment = true →
        conditions.all (·.holds assignment) = field.isIncluded assignment)
      (added : gathered.addField scope.type ⟨field, conditions, below⟩ = .ok next) :
      Adds compilation scope gathered selection next
  | branch {key : Narrowing} {inner : List Selection}
      (effective : scope.effective? key = some key)
      (enters : scope.IsSound compilation.schema →
        ∀ object assignment, scope.holds compilation.schema object assignment = true →
        ∀ collected, compilation.Reaches object assignment [selection] collected ↔
          key.holds compilation.schema object assignment = true
            ∧ compilation.Reaches object assignment inner collected) :
      Adds compilation scope gathered selection (gathered.addBranch key inner)
  | spread {name : Name} {fragment : Fragment}
      (found : compilation.spreadFragment? name = some fragment)
      (enters : scope.IsSound compilation.schema →
        ∀ object assignment, scope.holds compilation.schema object assignment = true →
        ∀ collected, compilation.Reaches object assignment [selection] collected ↔
          compilation.schema.isPossible fragment.typeCondition object = true
            ∧ compilation.Reaches object assignment fragment.selections collected) :
      Adds compilation scope gathered selection (gathered.addSpread name)

section Fragments

variable {typeCondition : Option Name} {directives : List Directive} {narrowing : Narrowing}

/-- A narrowing that execution's directives set is met exactly by the objects that the fragment
applies to. -/
theorem holds_ofDirectives
    (evaluated : Narrowing.ofDirectives typeCondition directives = .ok (some narrowing)) :
    narrowing.holds compilation.schema object assignment =
        Execution.applies compilation.schema object assignment typeCondition directives := by
  rcases Narrowing.ofDirectives_eq_ok evaluated with
    ⟨included, isResult, ⟨-, none⟩ | ⟨notSkipped, defer, same⟩⟩
  · cases none
  · rcases Option.some.inj same with rfl
    simp only [Narrowing.holds, Execution.applies, ← InclusionResult.holds_ofDirectives isResult]
    cases included with
    | conditional group => exact Bool.and_comm _ _
    | boolean value =>
        cases value with
        | true => exact Bool.and_comm _ _
        | false => cases notSkipped

/-- What a scope refuses applies to no object within it. -/
theorem not_applies_of_refused {asked : Option Narrowing}
    (sound : scope.IsSound compilation.schema)
    (within : scope.holds compilation.schema object assignment = true)
    (evaluated : Narrowing.ofDirectives typeCondition directives = .ok asked)
    (refused : ∀ narrowing ∈ asked, scope.admits narrowing = false) :
    Execution.applies compilation.schema object assignment typeCondition directives = false := by
  cases asked with
  | none =>
      rcases Narrowing.ofDirectives_eq_ok evaluated with
        ⟨included, isResult, ⟨rfl, -⟩ | ⟨-, defer, same⟩⟩
      · simp [Execution.applies, ← InclusionResult.holds_ofDirectives isResult,
          InclusionResult.holds]
      · cases same
  | some narrowing =>
      rw [← holds_ofDirectives evaluated]
      cases holds : narrowing.holds compilation.schema object assignment with
      | false => rfl
      | true =>
          have admits := sound.admits_of_holds within holds
          rw [refused narrowing rfl] at admits
          cases admits

/-- Where a scope leaves no conditions of a narrowing to check, objects meet it by their type. -/
theorem holds_of_unknownPart_conditions (sound : scope.IsSound compilation.schema)
    (within : scope.holds compilation.schema object assignment = true)
    (nothingLeft : (scope.unknownPart narrowing).conditions = none) :
    narrowing.holds compilation.schema object assignment =
      narrowing.typeCondition.all (compilation.schema.isPossible · object) := by
  have conditions : narrowing.conditions.all (·.holds assignment) = true := by
    simp only [Scope.unknownPart] at nothingLeft
    cases isGroup : narrowing.conditions with
    | none => rfl
    | some group =>
        have remains := group.holds_remainderIn (sound.holds_knownConditions within)
        rw [isGroup, Option.bind_some] at nothingLeft
        rw [nothingLeft, Option.all_none] at remains
        exact remains.symm
  rw [Narrowing.holds, conditions, Bool.and_true]

/-- Where what a scope knows holds, it leaves just as much of conditions as decides. -/
theorem holds_conditionsIn {included : InclusionResult} (notSkipped : included.isSkipped = false)
    (knownHolds : scope.knownConditions.all (·.holds assignment) = true) :
    (conditionsIn scope included).all (·.holds assignment) = included.holds assignment := by
  cases included with
  | boolean value =>
      cases value with
      | true => rfl
      | false => cases notSkipped
  | conditional group =>
      rw [InclusionResult.holds, ← group.holds_remainderIn knownHolds]
      simp only [conditionsIn, InclusionResult.group?, Option.bind_some]
      cases group.remainderIn scope.knownConditions <;> simp

end Fragments

section Steps

variable {limit remaining : Nat} {gathered result : Gathered} {selection : Selection}

/-- What a selection adds is what becomes of it. -/
theorem adds_of_takes (takes : Takes compilation scope gathered selection result) :
    Adds compilation scope gathered selection result := by
  cases takes with
  | skippedField skipped =>
      apply Adds.nothing
      intro _ object assignment _ collected reached
      rw [Execution.Reaches.field_iff.mp reached]
      exact (InclusionResult.holds_ofDirectives skipped).symm
  | refusedField evaluated refused =>
      apply Adds.nothing
      intro sound object assignment within collected reached
      rw [Execution.Reaches.field_iff.mp reached]
      refine (InclusionResult.holds_ofDirectives evaluated).symm.trans ?_
      exact ConditionGroup.not_holds_of_contradicts refused (sound.holds_knownConditions within)
  | field evaluated notSkipped _ added =>
      refine .field rfl (fun sound object assignment within => ?_) added
      rw [holds_conditionsIn notSkipped (sound.holds_knownConditions within)]
      exact InclusionResult.holds_ofDirectives evaluated
  | leftOut asks refused =>
      apply Adds.nothing
      intro sound object assignment within collected reached
      exfalso
      rcases asks with evaluated | ⟨found, evaluated⟩
      · have entered := (Execution.Reaches.inlineFragment_iff.mp reached).1
        rw [not_applies_of_refused sound within evaluated refused] at entered
        cases entered
      · rcases Execution.Reaches.fragmentSpread_iff.mp reached with ⟨other, isOther, entered, -⟩
        rcases Option.some.inj (found.symm.trans isOther) with rfl
        rw [not_applies_of_refused sound within evaluated refused] at entered
        cases entered
  | branch asks isKey _ =>
      rcases asks with ⟨evaluated⟩
      refine .branch (Scope.effective?_effective isKey) fun sound object assignment within _ => ?_
      rw [sound.holds_effective within isKey, holds_ofDirectives evaluated]
      exact Execution.Reaches.inlineFragment_iff
  | spreadBranch asks isKey _ _ =>
      rcases asks with _ | ⟨found, evaluated⟩
      refine .branch (Scope.effective?_effective isKey) fun sound object assignment within _ => ?_
      rw [sound.holds_effective within isKey, holds_ofDirectives evaluated, iff_and_self]
      intro reached
      rcases Execution.Reaches.fragmentSpread_iff.mp reached with ⟨other, isOther, entered, -⟩
      rwa [Option.some.inj (found.symm.trans isOther)]
  | spread asks nothingLeft _ =>
      rcases asks with _ | ⟨found, evaluated⟩
      refine .spread found fun sound object assignment within _ => ?_
      have byType := holds_of_unknownPart_conditions sound within nothingLeft
      rw [holds_ofDirectives evaluated, Narrowing.typeCondition_of_ofDirectives evaluated,
        Option.all_some] at byType
      refine Execution.Reaches.fragmentSpread_iff.trans ?_
      simp only [found, Option.some.injEq, exists_eq_left', byType]

/-- Induction along the selections of a run: each either adds something, or has others take its
place that reach the same. -/
theorem gatherAll_induction (motive : List Selection → Gathered → Prop) (done : List Selection)
    {selections : List Selection}
    (adds : ∀ done selection gathered next, motive done gathered →
      Adds compilation scope gathered selection next → motive (done ++ [selection]) next)
    (dissolves : ∀ done selection inner gathered,
      (scope.IsSound compilation.schema → ∀ object assignment,
        scope.holds compilation.schema object assignment = true →
        ∀ collected, compilation.Reaches object assignment [selection] collected ↔
          compilation.Reaches object assignment inner collected) →
        motive (done ++ inner) gathered → motive (done ++ [selection]) gathered)
    (start : motive done gathered)
    (run : gatherAll compilation limit scope remaining gathered selections = .ok result) :
    motive (done ++ selections) result := by
  refine gatherAll_takes motive done (fun done selection gathered next holds takes =>
    adds done selection gathered next holds (adds_of_takes takes)) ?_ start run
  intro done typeCondition directives inner narrowing gathered asks implied holds
  rcases asks with ⟨evaluated⟩
  refine dissolves done _ inner gathered (fun sound object assignment within _ => ?_) holds
  refine Execution.Reaches.inlineFragment_iff.trans (and_iff_right ?_)
  rw [← holds_ofDirectives evaluated]
  exact sound.holds_of_implies within implied

end Steps

section Order

variable {gathered next : Gathered} {selection : Selection} {type name : Name}
  {fresh : GatheredField} {key : Narrowing} {inner : List Selection}

/-- What is gathered is told apart by keys, which are new to the scope, and spreads are known. -/
structure IsOrderly (compilation : Compilation) (scope : Scope) (gathered : Gathered) : Prop where
  fields : (gathered.fields.map (·.responseKey)).Nodup
  branches : gathered.branches.Pairwise fun branch later => (branch.1 == later.1) = false
  effective : ∀ branch ∈ gathered.branches, scope.effective? branch.1 = some branch.1
  spreads : gathered.spreads.Nodup
  known : ∀ name ∈ gathered.spreads, ∃ fragment, compilation.spreadFragment? name = some fragment

theorem isOrderly_empty : IsOrderly compilation scope .empty where
  fields := List.nodup_nil
  branches := .nil
  effective := by simp [empty]
  spreads := List.nodup_nil
  known := by simp [empty]

/-- A field is added under a key of its own, or to the field with its key. -/
theorem nodup_responseKeys_of_addField (nodup : (gathered.fields.map (·.responseKey)).Nodup)
    (added : gathered.addField type fresh = .ok next) :
    (next.fields.map (·.responseKey)).Nodup := by
  rcases addField_cases added with ⟨new, rfl⟩ | ⟨before, known, after, split, _, _, rfl⟩
  · rw [List.map_append, List.nodup_append]
    refine ⟨nodup, by simp, ?_⟩
    rintro _ mem _ (_ | ⟨_, ⟨⟩⟩) rfl
    rcases List.mem_map.mp mem with ⟨known, knownMem, same⟩
    exact new known knownMem same
  · rw [split] at nodup
    simpa [united, GatheredField.responseKey] using nodup

/-- Selections are added behind a branch of their own, or behind the branch with their key. -/
theorem pairwise_addBranch (key : Narrowing) (inner : List Selection)
    (pairwise : gathered.branches.Pairwise fun branch later => (branch.1 == later.1) = false) :
    (gathered.addBranch key inner).branches.Pairwise fun branch later =>
      (branch.1 == later.1) = false := by
  rcases addBranch_cases gathered key inner with
    ⟨new, result⟩ | ⟨before, known, earlier, after, split, _, result⟩
  · rw [result, List.pairwise_append]
    refine ⟨pairwise, by simp, ?_⟩
    simpa using new
  · rw [split] at pairwise
    rw [result]
    simpa [List.pairwise_append] using pairwise

theorem isOrderly_of_adds (orderly : IsOrderly compilation scope gathered)
    (adds : Adds compilation scope gathered selection next) :
    IsOrderly compilation scope next := by
  cases adds with
  | nothing => exact orderly
  | field _ _ added =>
      have nodup := nodup_responseKeys_of_addField orderly.fields added
      rcases exists_fields_of_addField added with ⟨fields, rfl, -⟩
      exact { orderly with fields := nodup }
  | @branch key inner effective _ =>
      have pairwise := pairwise_addBranch key inner orderly.branches
      rcases exists_branches_of_addBranch gathered key inner with ⟨branches, result, origins⟩
      rw [result] at pairwise ⊢
      refine { orderly with branches := pairwise, effective := fun branch mem => ?_ }
      rcases origins branch mem with old | rfl | ⟨known, earlier, knownMem, -, rfl⟩
      · exact orderly.effective branch old
      · exact effective
      · exact orderly.effective (known, earlier) knownMem
  | @spread name fragment found _ =>
      refine { orderly with
        spreads := nodup_appendNew orderly.spreads name
        known := ?_ }
      intro other mem
      rcases mem_appendNew.mp mem with old | rfl
      · exact orderly.known other old
      · exact ⟨fragment, found⟩

end Order

section Coverage

variable {gathered next : Gathered} {selection : Selection} {collected : CollectedField}
  {limit remaining : Nat} {selections : List Selection}

/-- Whether a collected field is among what was gathered: as a field, or behind a branch or a spread
that the object enters. -/
def Covers (compilation : Compilation) (object : Name) (assignment : Assignment)
    (gathered : Gathered) (collected : CollectedField) : Prop :=
  (∃ known ∈ gathered.fields, known.responseKey = collected.responseKey
      ∧ known.field.type = collected.field.type
      ∧ known.conditions.all (·.holds assignment) = true
      ∧ ∀ selection ∈ collected.selections, selection ∈ known.selections)
    ∨ (∃ branch ∈ gathered.branches,
        branch.1.holds compilation.schema object assignment = true
          ∧ compilation.Reaches object assignment branch.2 collected)
    ∨ ∃ name ∈ gathered.spreads, ∃ fragment, compilation.spreadFragment? name = some fragment
        ∧ compilation.schema.isPossible fragment.typeCondition object = true
        ∧ compilation.Reaches object assignment fragment.selections collected

theorem Covers.of_adds (covers : Covers compilation object assignment gathered collected)
    (adds : Adds compilation scope gathered selection next) :
    Covers compilation object assignment next collected := by
  cases adds with
  | nothing => exact covers
  | field _ _ added =>
      rcases addField_cases added with ⟨-, rfl⟩ | ⟨before, old, after, split, -, -, rfl⟩
      · refine covers.imp_left ?_
        rintro ⟨known, mem, rest⟩
        exact ⟨known, List.mem_append_left _ mem, rest⟩
      · refine covers.imp_left ?_
        rintro ⟨known, mem, sameKey, sameType, holds, subset⟩
        rw [split, List.mem_append, List.mem_cons] at mem
        rcases mem with earlier | rfl | later
        · exact ⟨known, by simp [earlier], sameKey, sameType, holds, subset⟩
        · refine ⟨_, List.mem_append_right _ List.mem_cons_self, sameKey, sameType, ?_, ?_⟩
          · simp [united, holds]
          · exact fun selection mem => List.mem_append_left _ (subset selection mem)
        · exact ⟨known, by simp [later], sameKey, sameType, holds, subset⟩
  | @branch key inner _ _ =>
      rcases addBranch_cases gathered key inner with
        ⟨-, result⟩ | ⟨before, old, earlier, after, split, -, result⟩
      · rw [result]
        refine covers.imp_right (Or.imp_left ?_)
        rintro ⟨branch, mem, rest⟩
        exact ⟨branch, List.mem_append_left _ mem, rest⟩
      · rw [result]
        refine covers.imp_right (Or.imp_left ?_)
        rintro ⟨branch, mem, holds, reached⟩
        rw [split, List.mem_append, List.mem_cons] at mem
        rcases mem with before | rfl | later
        · exact ⟨branch, by simp [before], holds, reached⟩
        · exact ⟨(old, earlier ++ inner), by simp, holds,
            reached.mono fun _ mem => List.mem_append_left _ mem⟩
        · exact ⟨branch, by simp [later], holds, reached⟩
  | spread _ _ =>
      refine covers.imp_right (Or.imp_right ?_)
      rintro ⟨name, mem, rest⟩
      exact ⟨name, mem_appendNew.mpr (Or.inl mem), rest⟩

/-- What a selection lets execution select is covered by what it adds. -/
theorem covers_of_adds (sound : scope.IsSound compilation.schema)
    (adds : Adds compilation scope gathered selection next)
    (within : scope.holds compilation.schema object assignment = true)
    (reached : compilation.Reaches object assignment [selection] collected)
    (included : collected.field.isIncluded assignment = true) :
    Covers compilation object assignment next collected := by
  cases adds with
  | nothing never =>
      rw [never sound object assignment within collected reached] at included
      cases included
  | @field field below conditions next isField exact added =>
      rw [isField] at reached
      rw [Execution.Reaches.field_iff.mp reached] at included ⊢
      have holds := (exact sound object assignment within).trans included
      left
      rcases addField_cases added with ⟨-, rfl⟩ | ⟨before, known, after, -, sameKey, sameType, rfl⟩
      · exact ⟨_, List.mem_append_right _ (List.mem_singleton_self _), rfl, rfl, holds,
          fun _ mem => mem⟩
      · refine ⟨_, List.mem_append_right _ List.mem_cons_self, sameKey, sameType, ?_, ?_⟩
        · simp [united, holds]
        · exact fun selection mem => List.mem_append_right _ mem
  | @branch key inner _ enters =>
      rcases (enters sound object assignment within collected).mp reached with ⟨holds, innerReached⟩
      right
      left
      rcases addBranch_cases gathered key inner with
        ⟨-, result⟩ | ⟨before, known, earlier, after, -, same, result⟩
      · rw [result]
        exact ⟨(key, inner), by simp, holds, innerReached⟩
      · rw [result]
        refine ⟨(known, earlier ++ inner), by simp, ?_, ?_⟩
        · rw [Narrowing.holds_of_beq same]
          exact holds
        · exact innerReached.mono fun _ mem => List.mem_append_right _ mem
  | @spread name fragment found enters =>
      rcases (enters sound object assignment within collected).mp reached with
        ⟨possible, innerReached⟩
      exact Or.inr (Or.inr ⟨name, mem_appendNew.mpr (Or.inr rfl), fragment, found, possible,
        innerReached⟩)

/-- Every field that execution selects on an object within the scope is gathered. -/
theorem covers_gatherAll (sound : scope.IsSound compilation.schema)
    (within : scope.holds compilation.schema object assignment = true)
    (run : gatherAll compilation limit scope remaining .empty selections = .ok gathered)
    (reached : compilation.Reaches object assignment selections collected)
    (included : collected.field.isIncluded assignment = true) :
    Covers compilation object assignment gathered collected := by
  have all := gatherAll_induction (fun done gathered =>
    ∀ collected, compilation.Reaches object assignment done collected →
      collected.field.isIncluded assignment = true →
        Covers compilation object assignment gathered collected) [] ?_ ?_ ?_ run
  · exact all collected reached included
  · intro done selection gathered next covers adds collected reached included
    rcases Execution.Reaches.append_iff.mp reached with earlier | now
    · exact (covers collected earlier included).of_adds adds
    · exact covers_of_adds sound adds within now included
  · intro done selection inner gathered same covers collected reached included
    refine covers collected (Execution.Reaches.append_iff.mpr ?_) included
    refine (Execution.Reaches.append_iff.mp reached).imp_right ?_
    exact (same sound object assignment within collected).mp
  · intro collected reached
    exact absurd reached Execution.Reaches.not_nil

end Coverage

section Justification

variable {gathered next : Gathered} {selection : Selection} {limit remaining : Nat}
  {done selections others : List Selection}

/-- Whether all that was gathered is reached by execution from the given selections: fields whose
conditions hold, and whatever is behind the branches and spreads that the object enters. -/
structure IsJustified (compilation : Compilation) (object : Name) (assignment : Assignment)
    (selections : List Selection) (gathered : Gathered) : Prop where
  fields : ∀ known ∈ gathered.fields, known.conditions.all (·.holds assignment) = true →
    ∃ collected, compilation.Reaches object assignment selections collected
      ∧ collected.field.isIncluded assignment = true
      ∧ collected.responseKey = known.responseKey
  branches : ∀ branch ∈ gathered.branches,
    branch.1.holds compilation.schema object assignment = true →
      ∀ collected, compilation.Reaches object assignment branch.2 collected →
        compilation.Reaches object assignment selections collected
  spreads : ∀ name ∈ gathered.spreads, ∀ fragment,
    compilation.spreadFragment? name = some fragment →
      compilation.schema.isPossible fragment.typeCondition object = true →
        ∀ collected, compilation.Reaches object assignment fragment.selections collected →
          compilation.Reaches object assignment selections collected

theorem isJustified_empty : IsJustified compilation object assignment selections .empty := by
  constructor <;> simp [empty]

theorem IsJustified.mono (justified : IsJustified compilation object assignment selections gathered)
    (more : ∀ collected, compilation.Reaches object assignment selections collected →
      compilation.Reaches object assignment others collected) :
    IsJustified compilation object assignment others gathered where
  fields known mem holds := by
    rcases justified.fields known mem holds with ⟨collected, reached, rest⟩
    exact ⟨collected, more collected reached, rest⟩
  branches branch mem holds collected reached :=
    more collected (justified.branches branch mem holds collected reached)
  spreads name mem fragment found possible collected reached :=
    more collected (justified.spreads name mem fragment found possible collected reached)

theorem isJustified_of_adds (sound : scope.IsSound compilation.schema)
    (within : scope.holds compilation.schema object assignment = true)
    (justified : IsJustified compilation object assignment done gathered)
    (adds : Adds compilation scope gathered selection next) :
    IsJustified compilation object assignment (done ++ [selection]) next := by
  have earlier : IsJustified compilation object assignment (done ++ [selection]) gathered :=
    justified.mono fun _ reached => Execution.Reaches.append_iff.mpr (Or.inl reached)
  cases adds with
  | nothing => exact earlier
  | @field field below conditions next isField exact added =>
      have here : compilation.Reaches object assignment (done ++ [selection]) ⟨field, below⟩ :=
        .field (by simp [isField])
      have isIncluded (holds : conditions.all (·.holds assignment) = true) :
          field.isIncluded assignment = true :=
        (exact sound object assignment within).symm.trans holds
      rcases exists_fields_of_addField added with ⟨fields, rfl, origins⟩
      refine { earlier with fields := ?_ }
      intro known mem holds
      rcases origins known mem with isOld | rfl | ⟨old, oldMem, sameKey, -, rfl⟩
      · exact earlier.fields known isOld holds
      · exact ⟨_, here, isIncluded holds, rfl⟩
      · simp only [united, Alternatives.holds_union, Bool.or_eq_true] at holds
        rcases holds with oldHolds | newHolds
        · exact earlier.fields old oldMem oldHolds
        · exact ⟨_, here, isIncluded newHolds, sameKey.symm⟩
  | @branch key inner _ enters =>
      have fresh (holds : key.holds compilation.schema object assignment = true)
          (collected : CollectedField)
          (reached : compilation.Reaches object assignment inner collected) :
          compilation.Reaches object assignment (done ++ [selection]) collected :=
        Execution.Reaches.append_iff.mpr
          (Or.inr ((enters sound object assignment within collected).mpr ⟨holds, reached⟩))
      rcases exists_branches_of_addBranch gathered key inner with ⟨branches, result, origins⟩
      rw [result]
      refine { earlier with branches := fun branch mem holds collected reached => ?_ }
      rcases origins branch mem with isOld | rfl | ⟨known, old, oldMem, same, rfl⟩
      · exact earlier.branches branch isOld holds collected reached
      · exact fresh holds collected reached
      · rcases Execution.Reaches.append_iff.mp reached with ofOld | ofNew
        · exact earlier.branches (known, old) oldMem holds collected ofOld
        · exact fresh ((Narrowing.holds_of_beq same).symm.trans holds) collected ofNew
  | @spread name fragment found enters =>
      refine { earlier with spreads := ?_ }
      intro other mem otherFragment otherFound possible collected reached
      rcases mem_appendNew.mp mem with isOld | rfl
      · exact earlier.spreads other isOld otherFragment otherFound possible collected reached
      · rw [found, Option.some.injEq] at otherFound
        subst otherFound
        exact Execution.Reaches.append_iff.mpr
          (Or.inr ((enters sound object assignment within collected).mpr ⟨possible, reached⟩))

/-- Nothing is gathered that execution would not reach on an object within the scope. -/
theorem isJustified_gatherAll (sound : scope.IsSound compilation.schema)
    (within : scope.holds compilation.schema object assignment = true)
    (run : gatherAll compilation limit scope remaining .empty selections = .ok gathered) :
    IsJustified compilation object assignment selections gathered := by
  refine gatherAll_induction (IsJustified compilation object assignment) [] ?_ ?_
    isJustified_empty run
  · intro done selection gathered next justified adds
    exact isJustified_of_adds sound within justified adds
  · intro done selection inner gathered same justified
    refine justified.mono fun collected reached => Execution.Reaches.append_iff.mpr ?_
    refine (Execution.Reaches.append_iff.mp reached).imp_right ?_
    exact (same sound object assignment within collected).mpr

end Justification

theorem isOrderly_gatherAll {limit remaining : Nat} {gathered : Gathered}
    {selections : List Selection}
    (run : gatherAll compilation limit scope remaining .empty selections = .ok gathered) :
    IsOrderly compilation scope gathered :=
  gatherAll_induction (fun _ gathered => IsOrderly compilation scope gathered) []
    (fun _ _ _ _ orderly adds => isOrderly_of_adds orderly adds) (fun _ _ _ _ _ orderly => orderly)
    isOrderly_empty run

end Gathered

end ResponseShape
