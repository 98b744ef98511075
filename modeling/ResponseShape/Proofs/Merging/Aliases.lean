import ResponseShape.Proofs.Definition.Distinctness
import ResponseShape.Proofs.Merging.Union

/-!
# Aliases

A set that selects nothing of its own and has one contributor counts as an alias of it. Then either
the set lies within the contributor's scope and sees its selections, or it shows nothing but the way
there: a branch towards the contributor (`VisibleSelections.isWithin_or_leads_of_aliased?`). Merging
does not tell these apart, so that an alias can point into a narrower scope
(`VisibleSelections.exists_aliased?_narrower`).
-/

namespace ResponseShape

namespace Scope

variable {scope other : Scope}

theorem isWithin_of_beq (inside : Scope) (same : (scope == other) = true)
    (isWithin : inside.isWithin other = true) : inside.isWithin scope = true := by
  refine List.all_eq_true.mpr fun narrowing mem => ?_
  rcases exists_mem_of_forall₂ (forall₂_of_beq same) mem with ⟨partner, partnerMem, isSame⟩
  exact implies_of_beq isSame (List.all_eq_true.mp isWithin partner partnerMem)

theorem beq_comm : (scope == other) = (other == scope) := BEq.comm

end Scope

theorem Contributor.beq_refl (contributor : Contributor) : (contributor == contributor) = true := by
  change ((contributor.place.entity.location == contributor.place.entity.location
      && contributor.place.enclosing == contributor.place.enclosing
      && contributor.place.scope == contributor.place.scope)
    && contributor.origin == contributor.origin) = true
  simp

theorem Contributor.place_of_beq {contributor other : Contributor}
    (same : (contributor == other) = true) : (contributor.place == other.place) = true := by
  have parts : (contributor.place == other.place && contributor.origin == other.origin) = true :=
    same
  exact (Bool.and_eq_true_iff.mp parts).1

/-- The contributor that a sighting becomes if it contributes. -/
def Sighting.contributor (sighting : Sighting) : Contributor :=
  ⟨sighting.occurrence.place, sighting.origin⟩

/-- How many fields and spreads were added. -/
def Additions.count (additions : Additions) : Nat :=
  additions.fields.length + additions.spreads.length

/-- Whether additions are others with fields and spreads of contributed selections. -/
structure Additions.Grows (additions next : Additions) (contributed : Bool) : Prop where
  count : additions.count ≤ next.count
  contributed : contributed = true ↔ additions.count < next.count
  branches : next.branches = additions.branches

theorem Additions.Grows.add {additions before after : Additions} {contributed isNew : Bool}
    (grows : additions.Grows before contributed) (count : after.count = before.count + isNew.toNat)
    (branches : after.branches = before.branches) :
    additions.Grows after (contributed || isNew) := by
  have known := grows.count
  refine ⟨by omega, ?_, branches.trans grows.branches⟩
  rw [Bool.or_eq_true, grows.contributed, count]
  cases isNew with
  | false => simp
  | true => simpa using Nat.lt_succ_of_le known

theorem SelectionTree.parts_of_isEmpty {tree : SelectionTree} (isEmpty : tree.isEmpty = true) :
    tree.fields = [] ∧ tree.branches = [] ∧ tree.spreads = [] := by
  cases tree
  simp_all [SelectionTree.isEmpty, fields, branches, spreads]

namespace MergeTarget

variable {target : MergeTarget} {additions next : Additions} {field : Field} {spread : Spread}
  {tree : SelectionTree} {key : Narrowing} {contributed : Bool}

/-- Whether nothing is selected at the place itself. -/
def IsBlank (target : MergeTarget) : Prop := ∀ direct ∈ target.direct, direct.isEmpty = true

section Blank

variable (blank : target.IsBlank)

include blank

theorem IsBlank.bind_direct {α : Type} {find? : SelectionTree → Option α}
    (finds : ∀ tree, tree.isEmpty = true → find? tree = none) :
    target.direct.bind find? = none := by
  cases isDirect : target.direct with
  | none => rfl
  | some tree => exact finds tree (blank tree isDirect)

theorem IsBlank.directField?_eq_none (responseKey : Name) :
    target.direct.bind (·.field? responseKey) = none := by
  refine blank.bind_direct fun tree isEmpty => ?_
  cases tree
  simp_all [SelectionTree.isEmpty, SelectionTree.field?, SelectionTree.fields]

theorem IsBlank.directSpread?_eq_none (name : Name) :
    target.direct.bind (·.spread? name) = none := by
  refine blank.bind_direct fun tree isEmpty => ?_
  cases tree
  simp_all [SelectionTree.isEmpty, SelectionTree.spread?, SelectionTree.spreads]

/-- A field contributes just if it is added. -/
theorem count_mergeField (run : target.mergeField additions field = .ok (next, contributed)) :
    next.count = additions.count + contributed.toNat ∧ next.branches = additions.branches := by
  simp only [mergeField, blank.directField?_eq_none, bind, Except.bind, pure, Except.pure] at run
  split at run
  next =>
    rcases Prod.mk.inj (Except.ok.inj run) with ⟨rfl, rfl⟩
    exact ⟨rfl, rfl⟩
  next =>
    split at run
    next existing isAdded =>
      split at run
      next => cases run
      next =>
        rcases Prod.mk.inj (Except.ok.inj run) with ⟨rfl, rfl⟩
        refine ⟨?_, rfl⟩
        have isKey : existing.responseKey = field.responseKey := by
          simpa using List.find?_some isAdded
        have keys := @map_updateOrAppend _ _ (·.responseKey == existing.responseKey)
          (fun added : Field => added.under (Alternatives.union added.summary.conditions
            (field.summary.conditions.bind (·.remainderIn target.known)))) existing
          additions.fields (·.responseKey) fun _ _ _ => rfl
        rcases keys with same | ⟨none, -⟩
        · have length := congrArg List.length same
          simp only [List.length_map] at length
          simp only [Additions.count, Bool.toNat_false, Nat.add_zero]
          exact congrArg (· + additions.spreads.length) length
        · have notFound := none existing (List.mem_of_find?_eq_some isAdded)
          simp at notFound
    next notAdded =>
      split at run
      next => cases run
      next fresh adopts =>
        rcases Prod.mk.inj (Except.ok.inj run) with ⟨rfl, rfl⟩
        refine ⟨?_, rfl⟩
        simp [Additions.count]
        omega

theorem count_mergeSpread :
    (target.mergeSpread additions spread).1.count
        = additions.count + (target.mergeSpread additions spread).2.toNat
      ∧ (target.mergeSpread additions spread).1.branches = additions.branches := by
  simp only [mergeSpread, blank.directSpread?_eq_none]
  split
  next => exact ⟨rfl, rfl⟩
  next => exact ⟨by simp [Additions.count]; omega, rfl⟩

theorem grows_mergeSelections
    (run : target.mergeSelections additions tree = .ok (next, contributed)) :
    additions.Grows next contributed := by
  simp only [mergeSelections, bind, Except.bind, pure, Except.pure] at run
  split at run
  next => cases run
  next withFields fieldsRun =>
    have ofFields := foldlM_induction
      (motive := fun _ (state : Additions × Bool) => additions.Grows state.1 state.2)
      ⟨Nat.le_refl _, by simp, rfl⟩ ?_ fieldsRun
    · have ofSpreads := @foldl_induction Spread (Additions × Bool)
        (fun _ state => additions.Grows state.1 state.2) withFields tree.spreads
        (fun state spread =>
          ((target.mergeSpread state.1 spread).1, state.2 || (target.mergeSpread state.1 spread).2))
        ofFields ?_
      · rwa [Except.ok.inj run] at ofSpreads
      · rintro done spread ⟨before, known⟩ grows
        have ofSpread := @count_mergeSpread target before spread blank
        exact grows.add ofSpread.1 ofSpread.2
    · rintro done field ⟨before, known⟩ after grows step
      split at step
      next => cases step
      next merged mergedRun =>
        rcases merged with ⟨merged, isNew⟩
        rw [← Except.ok.inj step]
        rcases count_mergeField blank mergedRun with ⟨count, branches⟩
        exact grows.add count branches

end Blank

theorem mergeBranch_eq_ok (run : target.mergeBranch additions key = .ok (next, contributed)) :
    next.count = additions.count ∧ ((contributed = false ∧ next.branches = additions.branches)
      ∨ contributed = true ∧ ∃ branch : Branch, branch.key = key
        ∧ next.branches = additions.branches ++ [branch]) := by
  simp only [mergeBranch, bind, Except.bind, pure, Except.pure] at run
  split at run
  next =>
    rcases Prod.mk.inj (Except.ok.inj run) with ⟨rfl, rfl⟩
    exact ⟨rfl, Or.inl ⟨rfl, rfl⟩⟩
  next =>
    split at run
    next => cases run
    next place narrowed =>
      rcases Prod.mk.inj (Except.ok.inj run) with ⟨rfl, rfl⟩
      exact ⟨rfl, Or.inr ⟨rfl, ⟨key, ⟨place, none⟩⟩, rfl, rfl⟩⟩

/-- Where additions come from: each has a sighting among the contributors, and each contributor
brought something. -/
structure IsTraced (merged : List Sighting) (additions : Additions)
    (contributors : List Contributor) : Prop where
  origin : ∀ contributor ∈ contributors, ∃ sighting ∈ merged, sighting.contributor = contributor
  selections : 0 < additions.count → ∃ sighting ∈ merged, sighting.selections?.isSome = true
    ∧ ∃ contributor ∈ contributors, (sighting.contributor == contributor) = true
  branches : ∀ branch ∈ additions.branches, ∃ sighting ∈ merged, sighting.key? = some branch.key
    ∧ ∃ contributor ∈ contributors, (sighting.contributor == contributor) = true
  brought : contributors ≠ [] → 0 < additions.count ∨ additions.branches ≠ []

theorem isTraced_empty : IsTraced [] .empty [] := by
  constructor <;> simp [Additions.empty, Additions.count]

section Traces

variable {merged : List Sighting} {contributors nextContributors : List Contributor}
  {sighting : Sighting}

theorem exists_mem_appendNew (sighting : Sighting) (contributors : List Contributor) :
    ∃ contributor ∈ appendNew contributors sighting.contributor,
      (sighting.contributor == contributor) = true := by
  unfold appendNew
  split
  next known =>
    exact List.contains_iff_exists_mem_beq.mp known
  next => exact ⟨_, List.mem_append_right _ (List.mem_singleton_self _), Contributor.beq_refl _⟩

theorem subset_appendNew (contributors : List Contributor) (added : Contributor) :
    contributors ⊆ appendNew contributors added := by
  unfold appendNew
  split
  next => exact fun _ mem => mem
  next => exact List.subset_append_left _ _

/-- What was traced stays traced, whoever joins the contributors. -/
theorem exists_traced_append {P : Sighting → Prop} (subset : contributors ⊆ nextContributors)
    (known : ∃ earlier ∈ merged, P earlier
      ∧ ∃ contributor ∈ contributors, (earlier.contributor == contributor) = true) :
    ∃ earlier ∈ merged ++ [sighting], P earlier
      ∧ ∃ contributor ∈ nextContributors, (earlier.contributor == contributor) = true := by
  rcases known with ⟨earlier, mem, holds, contributor, contributorMem, same⟩
  exact ⟨earlier, List.mem_append_left _ mem, holds, contributor, subset contributorMem, same⟩

theorem IsTraced.keep (traced : IsTraced merged additions contributors)
    (count : next.count = additions.count) (branches : next.branches = additions.branches) :
    IsTraced (merged ++ [sighting]) next contributors := by
  constructor
  · intro contributor mem
    rcases traced.origin contributor mem with ⟨earlier, earlierMem, isOrigin⟩
    exact ⟨earlier, List.mem_append_left _ earlierMem, isOrigin⟩
  · rw [count]
    exact fun some => exists_traced_append (List.Subset.refl _) (traced.selections some)
  · rw [branches]
    exact fun branch mem => exists_traced_append (List.Subset.refl _) (traced.branches branch mem)
  · rw [count, branches]
    exact traced.brought

theorem IsTraced.join (traced : IsTraced merged additions contributors)
    (selections : 0 < next.count → 0 < additions.count ∨ sighting.selections?.isSome = true)
    (branches : ∀ branch ∈ next.branches,
      branch ∈ additions.branches ∨ sighting.key? = some branch.key)
    (brought : 0 < next.count ∨ next.branches ≠ []) :
    IsTraced (merged ++ [sighting]) next (appendNew contributors sighting.contributor) := by
  have isLast : sighting ∈ merged ++ [sighting] :=
    List.mem_append_right _ (List.mem_singleton_self _)
  have listed := exists_mem_appendNew sighting contributors
  have kept := subset_appendNew contributors sighting.contributor
  constructor
  · intro contributor mem
    rcases mem_of_mem_appendNew mem with known | rfl
    · rcases traced.origin contributor known with ⟨earlier, earlierMem, isOrigin⟩
      exact ⟨earlier, List.mem_append_left _ earlierMem, isOrigin⟩
    · exact ⟨sighting, isLast, rfl⟩
  · intro some
    rcases selections some with known | isSelections
    · exact exists_traced_append kept (traced.selections known)
    · exact ⟨sighting, isLast, isSelections, listed⟩
  · intro branch mem
    rcases branches branch mem with known | isKey
    · exact exists_traced_append kept (traced.branches branch known)
    · exact ⟨sighting, isLast, isKey, listed⟩
  · exact fun _ => brought

theorem IsTraced.mergeSighting (blank : target.IsBlank)
    (traced : IsTraced merged additions contributors)
    (run : target.mergeSighting (additions, contributors) sighting
      = .ok (next, nextContributors)) :
    IsTraced (merged ++ [sighting]) next nextContributors := by
  simp only [MergeTarget.mergeSighting, bind, Except.bind, pure, Except.pure] at run
  cases isContribution : sighting.contribution with
  | selections =>
      simp only [isContribution] at run
      split at run
      next => cases run
      next result mergedRun =>
        rcases result with ⟨result, contributed⟩
        have grows := grows_mergeSelections blank mergedRun
        cases contributed with
        | false =>
            rcases Prod.mk.inj (Except.ok.inj run) with ⟨rfl, rfl⟩
            have grew := grows.contributed.not.mp (by simp)
            exact traced.keep (Nat.le_antisymm (Nat.not_lt.mp grew) grows.count) grows.branches
        | true =>
            rcases Prod.mk.inj (Except.ok.inj run) with ⟨rfl, rfl⟩
            refine traced.join (fun _ => Or.inr ?_) (fun branch mem => Or.inl ?_) (Or.inl ?_)
            · simp [Sighting.selections?, isContribution]
            · rwa [grows.branches] at mem
            · exact Nat.zero_lt_of_lt (grows.contributed.mp rfl)
  | branch narrowing =>
      simp only [isContribution] at run
      split at run
      next => cases run
      next result mergedRun =>
        rcases result with ⟨result, contributed⟩
        rcases mergeBranch_eq_ok mergedRun with
          ⟨count, ⟨rfl, branches⟩ | ⟨rfl, added, isKey, branches⟩⟩
        · rcases Prod.mk.inj (Except.ok.inj run) with ⟨rfl, rfl⟩
          exact traced.keep count branches
        · rcases Prod.mk.inj (Except.ok.inj run) with ⟨rfl, rfl⟩
          refine traced.join (fun some => Or.inl ?_) (fun branch mem => ?_) (Or.inr ?_)
          · rwa [count] at some
          · rw [branches] at mem
            refine (List.mem_append.mp mem).imp_right fun isNew => ?_
            rw [List.mem_singleton.mp isNew, isKey, Sighting.key?, isContribution]
          · simp [branches]

end Traces

end MergeTarget

section Aliases

variable {schema : Schema} {entities : EntityTable} {set : SelectionSet}
  {strategy : MergingStrategy} {visible : VisibleSelections} {contributor : Contributor}

theorem SelectionSet.direct_eq_nil (blank : ∀ direct ∈ set.direct, direct.isEmpty = true) :
    set.directFields = [] ∧ set.directBranches = [] ∧ set.directSpreads = [] := by
  simp only [directFields, directBranches, directSpreads]
  cases isDirect : set.direct with
  | none => exact ⟨rfl, rfl, rfl⟩
  | some tree => exact SelectionTree.parts_of_isEmpty (blank tree isDirect)

theorem VisibleSelections.aliased?_eq_some (isAlias : visible.aliased? = some contributor) :
    (∀ direct ∈ visible.direct, direct.isEmpty = true)
      ∧ visible.contributors = [contributor] := by
  simp only [aliased?] at isAlias
  split at isAlias
  next => cases isAlias
  next blank =>
    split at isAlias
    next only isOnly =>
      rw [Option.some.injEq] at isAlias
      refine ⟨fun direct isDirect => ?_, by rw [isOnly, isAlias]⟩
      rw [Option.mem_def] at isDirect
      simpa [isDirect] using blank
    next => cases isAlias

/-- What an alias shows. Its set stands where the contributor does, as far as the enclosing objects
go; and either the set's scope lies within the contributor's, or no field and no spread is visible,
only branches towards the contributor's scope. -/
theorem VisibleSelections.isWithin_or_leads_of_aliased?
    (run : set.visible schema entities strategy = .ok visible)
    (isAlias : visible.aliased? = some contributor) :
    set.place.isEnclosedLike contributor.place = true
      ∧ (set.place.scope.isWithin contributor.place.scope = true
        ∨ visible.fields = [] ∧ visible.spreads = [] ∧ visible.branches ≠ []
          ∧ ∀ branch ∈ visible.branches, ∃ occurrence ∈ set.seen entities strategy,
            (occurrence.place == contributor.place) = true ∧ some branch.key
              = set.place.scope.branchTowards? schema occurrence.place.scope) := by
  rcases SelectionSet.visible_eq_ok run with
    ⟨additions, contributors, sightings, rfl, merges, -, -, seen⟩
  rcases aliased?_eq_some isAlias with ⟨blank, isOnly⟩
  have isOnly : contributors = [contributor] := isOnly
  subst isOnly
  have isBlank : (set.mergeTarget schema entities).IsBlank := blank
  have traced := foldlM_induction
    (motive := fun done (state : Additions × List Contributor) =>
      MergeTarget.IsTraced done state.1 state.2)
    MergeTarget.isTraced_empty (fun _ _ _ _ traced step => traced.mergeSighting isBlank step) merges
  have ofSighting (sighting : Sighting) (mem : sighting ∈ sightings) :=
    Sighting.of_view? (seen sighting mem).2
  have place (sighting : Sighting) (listed : ∃ other ∈ [contributor],
      (sighting.contributor == other) = true) :
      (sighting.occurrence.place == contributor.place) = true := by
    rcases listed with ⟨other, isOther, same⟩
    rw [List.mem_singleton.mp isOther] at same
    exact Contributor.place_of_beq same
  constructor
  · rcases traced.origin contributor (List.mem_singleton_self _) with ⟨sighting, mem, rfl⟩
    exact (SelectionSet.mem_seen.mp (seen sighting mem).1).2.2.1
  · rcases Nat.eq_zero_or_pos additions.count with count | count
    · right
      have nothing : additions.fields = [] ∧ additions.spreads = [] := by
        simpa [Additions.count] using count
      rcases SelectionSet.direct_eq_nil blank with ⟨noFields, noBranches, noSpreads⟩
      refine ⟨?_, ?_, ?_, ?_⟩
      · change set.directFields.map _ ++ additions.fields = []
        rw [noFields, nothing.1]
        rfl
      · change set.directSpreads ++ additions.spreads = []
        rw [noSpreads, nothing.2]
        rfl
      · change set.directBranches ++ additions.branches ≠ []
        rw [noBranches, List.nil_append]
        exact (traced.brought (by simp)).resolve_left (by simp [count])
      · intro branch mem
        change branch ∈ set.directBranches ++ additions.branches at mem
        rw [noBranches, List.nil_append] at mem
        rcases traced.branches branch mem with ⟨sighting, sightingMem, isKey, listed⟩
        exact ⟨sighting.occurrence, (seen sighting sightingMem).1, place sighting listed,
          isKey.symm.trans (ofSighting sighting sightingMem).2⟩
    · left
      rcases traced.selections count with ⟨sighting, mem, isSelections, listed⟩
      rcases Option.isSome_iff_exists.mp isSelections with ⟨tree, isTree⟩
      have within := ((ofSighting sighting mem).1 tree isTree).2
      have sameScope := (Place.of_beq (place sighting listed)).2.2
      rw [Scope.beq_comm] at sameScope
      exact Scope.isWithin_of_beq _ sameScope within

end Aliases

/-- A sample whose one operation selects on some heroes only, and something else behind a branch. -/
def Characters : Sample where
  schemaText :=
    "type Query \x7b hero: Character id: ID \x7d interface Character \x7b name: String \x7d "
      ++ "type Human implements Character \x7b name: String \x7d"
  sources :=
    [⟨"d.graphql",
      "query Q($a: Boolean!) \x7b hero \x7b ... on Human \x7b name \x7d \x7d "
        ++ "... @include(if: $a) \x7b id \x7d \x7d"⟩]
  isValid := by decide +kernel

/-- Behind the branch, heroes show nothing but the branch on humans, and count as an alias of what
is selected there. -/
theorem Characters.exists_alias : ∃ (set : SelectionSet) (visible : VisibleSelections)
    (contributor : Contributor), set.Offered Characters.project
    ∧ set.visible Characters.project.schema Characters.workspace.entities .all = .ok visible
    ∧ visible.aliased? = some contributor
    ∧ set.place.scope.isWithin contributor.place.scope = false := by
  have computes : (Characters.workspace.operations.any fun operation =>
      operation.2.root.writtenSets.any fun member =>
        ((SelectionSet.mk member.1 (some member.2)).visible Characters.project.schema
          Characters.workspace.entities .all).toOption.any fun outer =>
            outer.fields.any fun field => field.selectionSet.any fun set =>
              (set.visible Characters.project.schema Characters.workspace.entities
                .all).toOption.any fun visible => visible.aliased?.any fun contributor =>
                  !set.place.scope.isWithin contributor.place.scope) = true := by
    rewrite [Characters.workspace_eq, Characters.project_eq]
    decide +kernel
  simp only [List.any_eq_true, Option.any_eq_true, Bool.not_eq_true'] at computes
  rcases computes with ⟨⟨key, shape⟩, isBuilt, member, mem, outer, isOuter, field, fieldMem, set,
    isInner, visible, isVisible, contributor, isAlias, isOutside⟩
  have offered := SelectionSet.Offered.operation Characters.reachable isBuilt mem
  have isOuter := Build.eq_ok_of_toOption isOuter
  exact ⟨set, visible, contributor, offered.field Characters.reachable isOuter fieldMem isInner,
    Build.eq_ok_of_toOption isVisible, isAlias, isOutside⟩

/-- An alias can point into a narrower scope. -/
theorem VisibleSelections.exists_aliased?_narrower : ∃ (schemaText : String)
    (sources : List SourceText) (project : Project) (workspace : Workspace) (set : SelectionSet)
    (visible : VisibleSelections) (contributor : Contributor),
    Compilation.validated? schemaText sources = some project.compilation
    ∧ Workspace.Reachable project workspace ∧ set.Offered project
    ∧ set.visible project.schema workspace.entities .all = .ok visible
    ∧ visible.aliased? = some contributor
    ∧ set.place.scope.isWithin contributor.place.scope = false := by
  rcases Characters.exists_alias with ⟨set, visible, contributor, isAlias⟩
  exact ⟨_, _, Characters.project, Characters.workspace, set, visible, contributor,
    Characters.validated?_eq_some, Characters.reachable, isAlias⟩

/-- Such an alias shows no field. -/
theorem VisibleSelections.leads_of_aliased?_characters : ∃ (set : SelectionSet)
    (visible : VisibleSelections),
    set.visible Characters.project.schema Characters.workspace.entities .all = .ok visible
    ∧ visible.aliased?.isSome = true ∧ visible.fields = [] ∧ visible.branches ≠ [] := by
  rcases Characters.exists_alias with ⟨set, visible, contributor, -, run, isAlias, isOutside⟩
  rcases isWithin_or_leads_of_aliased? run isAlias with ⟨-, isWithin | leads⟩
  · rw [isOutside] at isWithin
    cases isWithin
  · exact ⟨set, visible, run, by simp [isAlias], leads.1, leads.2.2.1⟩

end ResponseShape
