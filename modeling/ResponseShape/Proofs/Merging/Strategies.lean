import ResponseShape.Proofs.Merging.Conflicts
import ResponseShape.Proofs.Merging.Success

/-!
# Strategies combine as unions

A strategy says which origins merging draws on, and two strategies together draw on those of either
(`Origin.isEnabled_union`). What is visible under both is then the union of what is visible under
each, though the merges differ in what they come across first: the same keys, under conditions that
hold where those of either hold, the same branches and the same spreads. And if merging succeeds
under both together, it succeeds under each of them (`SelectionSet.Offered.combines_visible`).
-/

namespace ResponseShape

/-- A strategy has a flag of a single bit if it has the bit. -/
theorem MergingStrategy.includes_eq_getLsbD {strategy flag : MergingStrategy} {bit : Nat}
    (isBit : flag.bits = BitVec.twoPow 8 bit) (fits : bit < 8) :
    strategy.includes flag = strategy.bits.getLsbD bit := by
  have nonzero : BitVec.twoPow 8 bit ≠ 0#8 := fun isZero => by
    have isSet := BitVec.getLsbD_twoPow (w := 8) bit bit
    rw [isZero] at isSet
    simp [fits] at isSet
  rw [includes, isBit, BitVec.and_twoPow]
  cases strategy.bits.getLsbD bit with
  | true => simp
  | false => simpa using nonzero.symm

/-- Strategies together admit the origins that either of them admits. -/
theorem Origin.isEnabled_union (origin : Origin) (left right : MergingStrategy) :
    origin.isEnabled (left.union right) = (origin.isEnabled left || origin.isEnabled right) := by
  -- the flag of an origin is a single bit
  have isBit : ∃ bit < 8, origin.flag.bits = BitVec.twoPow 8 bit := by
    cases origin with
    | ancestor => exact ⟨0, by decide, rfl⟩
    | sibling => exact ⟨1, by decide, rfl⟩
    | namedFragment => exact ⟨2, by decide, rfl⟩
  rcases isBit with ⟨bit, fits, isBit⟩
  simp only [isEnabled, MergingStrategy.includes_eq_getLsbD isBit fits, MergingStrategy.union,
    BitVec.getLsbD_or]

section Seeing

variable {schema : Schema} {entities : EntityTable} {set : SelectionSet}
  {left right strategy : MergingStrategy} {occurrence : Occurrence} {visible : VisibleSelections}
  {key : Name} {assignment : Assignment}

theorem SelectionSet.mem_seen_union : occurrence ∈ set.seen entities (left.union right) ↔
    occurrence ∈ set.seen entities left ∨ occurrence ∈ set.seen entities right := by
  simp only [mem_seen, Origin.isEnabled_union, Bool.or_eq_true]
  tauto

theorem SelectionSet.mem_sources_union : occurrence ∈ set.sources entities (left.union right) ↔
    occurrence ∈ set.sources entities left ∨ occurrence ∈ set.sources entities right := by
  simp only [sources, List.mem_filter, mem_seen_union, or_and_right]

theorem SelectionSet.selects_union {field : Field} :
    set.Selects entities (left.union right) field ↔
      set.Selects entities left field ∨ set.Selects entities right field := by
  simp only [Selects, mem_sources_union, or_and_right, exists_or]
  exact or_or_distrib_left

theorem SelectionSet.selectsSpread_union {name : Name} :
    set.SelectsSpread entities (left.union right) name ↔
      set.SelectsSpread entities left name ∨ set.SelectsSpread entities right name := by
  simp only [SelectsSpread, mem_sources_union, or_and_right, exists_or]
  exact or_or_distrib_left

theorem SelectionSet.mem_branchKeys_union {key : Narrowing} :
    key ∈ set.branchKeys schema entities (left.union right) ↔
      key ∈ set.branchKeys schema entities left ∨ key ∈ set.branchKeys schema entities right := by
  simp only [branchKeys, List.mem_filterMap, mem_seen_union, or_and_right, exists_or]

namespace VisibleSelections

/-- A view shows the keys of the fields that are selected. -/
theorem shows_iff (orderly : set.IsOrderly)
    (run : set.visible schema entities strategy = .ok visible)
    (knownHolds : set.place.scope.knownConditions.all (·.holds assignment) = true) :
    visible.Shows key assignment ↔ ∃ field, set.Selects entities strategy field
      ∧ field.responseKey = key ∧ field.holds assignment = true := by
  constructor
  · rintro ⟨shown, mem, rfl, holds⟩
    exact exists_selects orderly run knownHolds mem holds
  · rintro ⟨field, selects, rfl, holds⟩
    exact exists_of_selects orderly run selects knownHolds holds

/-- A key is visible just if it can be shown. -/
theorem mem_responseKeys_iff (orderly : set.IsOrderly)
    (run : set.visible schema entities strategy = .ok visible)
    (directs : ∀ direct ∈ set.directFields, ∃ assignment,
      set.place.scope.knownConditions.all (·.holds assignment) = true
        ∧ direct.holds assignment = true) :
    key ∈ visible.fields.map (·.responseKey) ↔ ∃ assignment,
      set.place.scope.knownConditions.all (·.holds assignment) = true
        ∧ visible.Shows key assignment := by
  constructor
  · intro isKey
    rcases List.mem_map.mp isKey with ⟨shown, mem, rfl⟩
    rcases exists_holds orderly run directs mem with ⟨assignment, knownHolds, holds⟩
    exact ⟨assignment, knownHolds, shown, mem, rfl, holds⟩
  · rintro ⟨-, -, shown, mem, rfl, -⟩
    exact List.mem_map_of_mem mem

/-- The branches that are visible are those written at the place and those towards all else that is
seen. -/
theorem exists_branch_iff {key : Narrowing}
    (run : set.visible schema entities strategy = .ok visible) :
    (∃ branch ∈ visible.branches, (branch.key == key) = true) ↔
      (∃ branch ∈ set.directBranches, (branch.key == key) = true)
        ∨ ∃ towards ∈ set.branchKeys schema entities strategy, (towards == key) = true := by
  rcases SelectionSet.hasMerged_of_visible run with ⟨-, isDirect, merged⟩
  have keys := merged.branches.keys
  have isBranches : visible.branches = set.directBranches ++ visible.additions.branches := by
    rw [branches, isDirect]
    rfl
  rw [isBranches]
  constructor
  · rintro ⟨branch, mem, same⟩
    rcases List.mem_append.mp mem with ofDirect | isAdded
    · exact Or.inl ⟨branch, ofDirect, same⟩
    · have isKey := List.mem_map_of_mem (f := (·.key)) isAdded
      rw [keys] at isKey
      exact Or.inr ⟨_, (List.mem_filter.mp (mem_of_mem_distinct isKey)).1, same⟩
  · rintro (⟨branch, ofDirect, same⟩ | ⟨towards, mem, same⟩)
    · exact ⟨branch, List.mem_append_left _ ofDirect, same⟩
    · cases isKnown : (set.mergeTarget schema entities).direct.bind (·.branch? towards) with
      | some branch =>
          rcases Option.bind_eq_some_iff.mp isKnown with ⟨tree, isTree, found⟩
          have isDirectBranch := SelectionSet.mem_directBranches.mpr
            ⟨tree, isTree, List.mem_of_find?_eq_some found⟩
          have isTowards : (branch.key == towards) = true := by
            simpa using List.find?_some found
          exact ⟨branch, List.mem_append_left _ isDirectBranch,
            PartialEquivBEq.trans isTowards same⟩
      | none =>
          have isNew : towards ∈ (set.branchKeys schema entities strategy).filter fun key =>
              ((set.mergeTarget schema entities).direct.bind (·.branch? key)).isNone :=
            List.mem_filter.mpr ⟨mem, by rw [isKnown]; rfl⟩
          rcases exists_beq_mem_distinct Narrowing.beq_refl isNew with ⟨kept, keptMem, isKept⟩
          rw [SelectionSet.branchKeys, ← keys, List.mem_map] at keptMem
          rcases keptMem with ⟨branch, branchMem, rfl⟩
          exact ⟨branch, List.mem_append_right _ branchMem,
            PartialEquivBEq.trans (BEq.symm isKept) same⟩

end VisibleSelections

end Seeing

/-- Whether a view is the union of two others: it has the keys, branches and spreads of either, and
where some conditions are met, it shows what either of them shows. -/
structure VisibleSelections.Combines (known : Option ConditionGroup)
    (whole left right : VisibleSelections) : Prop where
  keys : ∀ key, key ∈ whole.fields.map (·.responseKey) ↔
    key ∈ left.fields.map (·.responseKey) ∨ key ∈ right.fields.map (·.responseKey)
  conditions : ∀ assignment, known.all (·.holds assignment) = true → ∀ key,
    whole.Shows key assignment ↔ left.Shows key assignment ∨ right.Shows key assignment
  branches : ∀ key, (∃ branch ∈ whole.branches, (branch.key == key) = true) ↔
    (∃ branch ∈ left.branches, (branch.key == key) = true)
      ∨ ∃ branch ∈ right.branches, (branch.key == key) = true
  spreads : ∀ name, (∃ spread ∈ whole.spreads, spread.name = name) ↔
    (∃ spread ∈ left.spreads, spread.name = name) ∨ ∃ spread ∈ right.spreads, spread.name = name

namespace SelectionSet

variable {project : Project} {workspace : Workspace} {set : SelectionSet}
  {left right strategy : MergingStrategy} {visible whole ofLeft ofRight : VisibleSelections}

/-- What is visible under two strategies together is the union of what is visible under each. -/
theorem combines_of_visible {schema : Schema} {entities : EntityTable} (orderly : set.IsOrderly)
    (directs : ∀ direct ∈ set.directFields, ∃ assignment,
      set.place.scope.knownConditions.all (·.holds assignment) = true
        ∧ direct.holds assignment = true)
    (run : set.visible schema entities (left.union right) = .ok whole)
    (leftRun : set.visible schema entities left = .ok ofLeft)
    (rightRun : set.visible schema entities right = .ok ofRight) :
    whole.Combines set.place.scope.knownConditions ofLeft ofRight := by
  have shows (assignment : Assignment)
      (knownHolds : set.place.scope.knownConditions.all (·.holds assignment) = true) (key : Name) :
      whole.Shows key assignment ↔ ofLeft.Shows key assignment ∨ ofRight.Shows key assignment := by
    rw [VisibleSelections.shows_iff orderly run knownHolds,
      VisibleSelections.shows_iff orderly leftRun knownHolds,
      VisibleSelections.shows_iff orderly rightRun knownHolds]
    simp only [selects_union, or_and_right, exists_or]
  constructor
  · intro key
    rw [VisibleSelections.mem_responseKeys_iff orderly run directs,
      VisibleSelections.mem_responseKeys_iff orderly leftRun directs,
      VisibleSelections.mem_responseKeys_iff orderly rightRun directs, ← exists_or]
    refine exists_congr fun assignment => ?_
    rw [← and_or_left]
    exact and_congr_right fun knownHolds => shows assignment knownHolds key
  · exact shows
  · intro key
    rw [VisibleSelections.exists_branch_iff run, VisibleSelections.exists_branch_iff leftRun,
      VisibleSelections.exists_branch_iff rightRun]
    simp only [mem_branchKeys_union, or_and_right, exists_or]
    exact or_or_distrib_left
  · intro name
    rw [VisibleSelections.mem_spreads_iff run, VisibleSelections.mem_spreads_iff leftRun,
      VisibleSelections.mem_spreads_iff rightRun]
    exact selectsSpread_union

/-- Where merging under two strategies together succeeds, it succeeds under the first. -/
theorem exists_visible_of_union {schema : Schema} {entities : EntityTable}
    (fits : ∀ occurrence ∈ entities.occurrences set.place.entity.location,
      ∀ field ∈ occurrence.selections.fields, field.FitsType schema)
    (run : set.visible schema entities (left.union right) = .ok whole) :
    (∃ visible, set.visible schema entities left = .ok visible)
      ∧ ∃ visible, set.visible schema entities right = .ok visible := by
  rcases (exists_visible_iff fits).mp ⟨whole, run⟩ with ⟨sees, accepts⟩
  have fewer {strategy : MergingStrategy}
      (isPart : ∀ occurrence, occurrence ∈ set.seen entities strategy →
        occurrence ∈ set.seen entities (left.union right)) :
      ∃ visible, set.visible schema entities strategy = .ok visible := by
    refine (exists_visible_iff fits).mpr ⟨sees, accepts.mono ?_ ?_⟩
    · intro field mem
      rcases List.mem_flatMap.mp mem with ⟨occurrence, isSource, fieldMem⟩
      rcases List.mem_filter.mp isSource with ⟨isSeen, isWithin⟩
      exact List.mem_flatMap.mpr
        ⟨occurrence, List.mem_filter.mpr ⟨isPart occurrence isSeen, isWithin⟩, fieldMem⟩
    · intro key mem
      rcases List.mem_filterMap.mp mem with ⟨occurrence, isSeen, towards⟩
      exact List.mem_filterMap.mpr ⟨occurrence, isPart occurrence isSeen, towards⟩
  exact ⟨fewer fun _ isSeen => mem_seen_union.mpr (Or.inl isSeen),
    fewer fun _ isSeen => mem_seen_union.mpr (Or.inr isSeen)⟩

/-- Strategies combine as unions: whatever set a project offers, and in whichever workspace, where
something is visible under two strategies together, something is visible under each, and the view
under both is the union of the two. -/
theorem Offered.combines_visible (offered : set.Offered project)
    (reachable : Workspace.Reachable project workspace)
    (run : set.visible project.schema workspace.entities (left.union right) = .ok whole) :
    ∃ ofLeft ofRight, set.visible project.schema workspace.entities left = .ok ofLeft
      ∧ set.visible project.schema workspace.entities right = .ok ofRight
      ∧ whole.Combines set.place.scope.knownConditions ofLeft ofRight := by
  have sound := Workspace.isSound_of_reachable reachable
  have fits : ∀ occurrence ∈ workspace.entities.occurrences set.place.entity.location,
      ∀ field ∈ occurrence.selections.fields, field.FitsType project.schema := by
    intro occurrence mem field fieldMem
    rcases (sound.registered _ _ mem).1.depicts with ⟨_, _, _, depicts, -⟩
    exact depicts.fitsType fieldMem
  rcases exists_visible_of_union fits run with ⟨⟨ofLeft, leftRun⟩, ofRight, rightRun⟩
  refine ⟨ofLeft, ofRight, leftRun, rightRun, ?_⟩
  refine combines_of_visible offered.isDepiction.isOrderly ?_ run leftRun rightRun
  rcases offered.exists_root with ⟨_, _, _, -, depiction, offeredBy⟩
  exact fun _ => offeredBy.exists_holds_of_direct depiction

end SelectionSet

/-- A sample in which a hero's name is selected under one condition around a branch, and under
another in a fragment that is spread beside it. -/
def Companions : Sample where
  schemaText :=
    "type Query \x7b hero: Hero \x7d type Hero \x7b id: ID name: String age: Int size: Int \x7d"
  sources :=
    [⟨"d.graphql",
      "query Q($a: Boolean!, $b: Boolean!) \x7b hero \x7b name @include(if: $a) size \x7d "
        ++ "... @include(if: $b) \x7b hero \x7b id \x7d \x7d ...F \x7d "
        ++ "fragment F on Query \x7b hero \x7b name @include(if: $b) age \x7d \x7d"⟩]
  isValid := by decide +kernel

/-- Behind the branch, ancestors and the fragment give a hero different keys, and the name different
conditions. Together they give all of these. -/
theorem SelectionSet.combines_visible_companions : ∃ (set : SelectionSet)
    (whole ofLeft ofRight : VisibleSelections), set.Offered Companions.project
    ∧ set.visible Companions.project.schema Companions.workspace.entities
      (MergingStrategy.ancestors.union .namedFragments) = .ok whole
    ∧ set.visible Companions.project.schema Companions.workspace.entities .ancestors = .ok ofLeft
    ∧ set.visible Companions.project.schema Companions.workspace.entities .namedFragments
      = .ok ofRight
    ∧ ofLeft.fields.map (·.responseKey) = ["id", "name", "size"]
    ∧ ofRight.fields.map (·.responseKey) = ["id", "name", "age"]
    ∧ whole.fields.map (·.responseKey) = ["id", "name", "size", "age"]
    ∧ whole.Combines set.place.scope.knownConditions ofLeft ofRight := by
  have computes : (Companions.workspace.operations.any fun operation =>
      operation.2.root.writtenSets.any fun member =>
        ((SelectionSet.mk member.1 (some member.2)).visible Companions.project.schema
          Companions.workspace.entities (MergingStrategy.ancestors.union .namedFragments)
          ).toOption.any fun whole =>
        ((SelectionSet.mk member.1 (some member.2)).visible Companions.project.schema
          Companions.workspace.entities .ancestors).toOption.any fun ofLeft =>
        ((SelectionSet.mk member.1 (some member.2)).visible Companions.project.schema
          Companions.workspace.entities .namedFragments).toOption.any fun ofRight =>
            ofLeft.fields.map (·.responseKey) == ["id", "name", "size"]
              && ofRight.fields.map (·.responseKey) == ["id", "name", "age"]
              && whole.fields.map (·.responseKey) == ["id", "name", "size", "age"]) = true := by
    rewrite [Companions.workspace_eq, Companions.project_eq]
    decide +kernel
  simp only [List.any_eq_true, Option.any_eq_true, Bool.and_eq_true, beq_iff_eq] at computes
  rcases computes with ⟨⟨key, shape⟩, isBuilt, member, mem, whole, isWhole, ofLeft, isLeft, ofRight,
    isRight, ⟨leftKeys, rightKeys⟩, wholeKeys⟩
  have offered := SelectionSet.Offered.operation Companions.reachable isBuilt mem
  have run := Build.eq_ok_of_toOption isWhole
  have leftRun := Build.eq_ok_of_toOption isLeft
  have rightRun := Build.eq_ok_of_toOption isRight
  rcases offered.combines_visible Companions.reachable run with
    ⟨_, _, sameLeft, sameRight, combines⟩
  rcases Except.ok.inj (leftRun.symm.trans sameLeft) with rfl
  rcases Except.ok.inj (rightRun.symm.trans sameRight) with rfl
  exact ⟨_, whole, ofLeft, ofRight, offered, run, leftRun, rightRun, leftKeys, rightKeys, wholeKeys,
    combines⟩

end ResponseShape
