import ResponseShape.Proofs.Merging.SideBySide

/-!
# Sole contributors

What a set that counts as an alias shows, its contributor alone would show as well: the same fields,
branches and spreads in the same order (`SelectionSet.exists_visibleThrough_of_aliased?`). Only
sources that add something become contributors, though, and weaker conditions on a field that was
added before count for nothing. So an alias can lose that a field is selected in any case
(`SelectionSet.exists_aliased?_conditional`).

The proof runs both merges side by side: what is no sighting of the contributor's changes nothing
but conditions (`MergeTarget.widenTo_of_mergeSighting`), and what is one changes both alike
(`MergeTarget.matches_mergeSighting_of_widenTo`).
-/

namespace ResponseShape

section Lists

variable {α : Type} {members : List α}

theorem updateOrAppend_id {isEntry : α → Bool} {fresh entry : α}
    (mem : entry ∈ members) (found : isEntry entry = true) :
    updateOrAppend isEntry id fresh members = members := by
  rcases updateOrAppend_cases isEntry id fresh members with
    ⟨none, -⟩ | ⟨before, entry, after, rfl, -, -, result⟩
  · rw [none entry mem] at found
    cases found
  · rw [result, id]

end Lists

/-- Whether a field is another under wider conditions, and the other itself unless its key is among
those touched. -/
structure Field.WidensTo (touched : Name → Prop) (field shown : Field) : Prop where
  under : shown = field.under shown.summary.conditions
  untouched : ¬ touched field.responseKey → shown = field

/-- Whether additions are others whose fields have wider conditions, where they were touched. -/
structure Additions.WidenTo (touched : Name → Prop) (own whole : Additions) : Prop where
  fields : List.Forall₂ (Field.WidensTo touched) own.fields whole.fields
  branches : whole.branches = own.branches
  spreads : whole.spreads = own.spreads

namespace Field.WidensTo

variable {touched : Name → Prop} {field shown : Field}

theorem responseKey (widens : field.WidensTo touched shown) :
    shown.responseKey = field.responseKey := by
  rw [widens.under]
  rfl

theorem selectsSame (widens : field.WidensTo touched shown) (incoming : FieldSummary) :
    shown.summary.selectsSame incoming = field.summary.selectsSame incoming := by
  rw [widens.under]
  rfl

theorem refl (field : Field) : field.WidensTo touched field := ⟨rfl, fun _ => rfl⟩

theorem unite (widens : field.WidensTo touched shown) (conditions : Option Alternatives) :
    (field.under (Alternatives.union field.summary.conditions conditions)).WidensTo touched
      (shown.under (Alternatives.union shown.summary.conditions conditions)) := by
  constructor
  · rw [widens.under]
    rfl
  · intro isUntouched
    rw [widens.untouched isUntouched]

theorem touch (widens : field.WidensTo touched shown) (isTouched : touched field.responseKey)
    (conditions : Option Alternatives) : field.WidensTo touched (shown.under conditions) := by
  constructor
  · rw [widens.under]
    rfl
  · exact fun isUntouched => absurd isTouched isUntouched

end Field.WidensTo

namespace MergeTarget

variable {target : MergeTarget} {touched : Name → Prop} {own whole next : Additions}
  {field : Field} {spread : Spread} {tree : SelectionTree} {contributed : Bool}

theorem ensureSame_of_widensTo {existing shown : Field}
    (widens : existing.WidensTo touched shown) :
    target.ensureSame shown field = target.ensureSame existing field := by
  rw [ensureSame, ensureSame, widens.selectsSame]
  rw [widens.under]
  rfl

section Blank

variable (blank : target.IsBlank)

include blank

/-- A field is merged alike into both additions. -/
theorem matches_mergeField (widen : own.WidenTo touched whole) :
    Matches (Pairs (Additions.WidenTo touched)) (target.mergeField own field)
      (target.mergeField whole field) := by
  simp only [mergeField, blank.directField?_eq_none]
  split
  next => exact .ok ⟨rfl, widen⟩
  next =>
    have found := find?_of_forall₂ (·.responseKey == field.responseKey)
      (·.responseKey == field.responseKey) widen.fields
      fun _ _ widens => by rw [widens.responseKey]
    simp only [Additions.field?]
    rcases found with ⟨isNew, alsoNew⟩ | ⟨existing, shown, isOwn, isShown, widens⟩
    · rw [isNew, alsoNew]
      refine (Matches.refl _).bind fun fresh other same => ?_
      subst same
      exact .ok ⟨rfl, List.rel_append widen.fields (.cons (.refl fresh) .nil), widen.branches,
        widen.spreads⟩
    · simp only [isOwn, isShown, ensureSame_of_widensTo widens]
      refine (Matches.refl _).bind fun _ _ _ => .ok ⟨rfl, ?_, widen.branches,
        widen.spreads⟩
      exact forall₂_updateOrAppend widen.fields
        (fun _ _ related => by rw [related.responseKey, widens.responseKey])
        (fun _ _ related _ => related.unite _) widens

/-- A field that contributes nothing at most widens one that it touches. -/
theorem widenTo_of_mergeField (widen : own.WidenTo touched whole)
    (isTouched : field.canHoldIn target.known = true → touched field.responseKey)
    (run : target.mergeField whole field = .ok (next, false)) : own.WidenTo touched next := by
  have isKept {merged : Additions} (merges : target.MergesField whole field merged)
      (count : merged.count = whole.count) : own.WidenTo touched merged := by
    cases merges with
    | refused => exact widen
    | widened _ isDirect _ =>
        rw [directField?, blank.directField?_eq_none] at isDirect
        cases isDirect
    | @united existing canHold _ isAdded _ =>
        rcases exists_mem_of_forall₂_right widen.fields (List.mem_of_find?_eq_some isAdded) with
          ⟨known, knownMem, ofKnown⟩
        have isKey : existing.responseKey = field.responseKey := by
          simpa using List.find?_some isAdded
        refine ⟨?_, widen.branches, widen.spreads⟩
        have kept : updateOrAppend (·.responseKey == existing.responseKey) id known own.fields
            = own.fields := updateOrAppend_id knownMem (by simpa using ofKnown.responseKey.symm)
        rw [← kept]
        refine forall₂_updateOrAppend widen.fields (fun _ _ related => by rw [related.responseKey])
          (fun member _ related isEntry => related.touch ?_ _) ofKnown
        have sameKey : member.responseKey = existing.responseKey := by simpa using isEntry
        rw [sameKey, isKey]
        exact isTouched canHold
    | added => simp [Additions.count] at count
  exact isKept (mergesField_of_mergeField run) (by simpa using (count_mergeField blank run).1)

end Blank

theorem mergeSpread_snd_eq_false (isKnown : (target.mergeSpread own spread).2 = false) :
    (target.mergeSpread own spread).1 = own := by
  simp only [mergeSpread] at isKnown ⊢
  split
  next => rfl
  next isNew => rw [if_neg isNew] at isKnown; cases isKnown

theorem pairs_mergeSpread (widen : own.WidenTo touched whole) :
    Pairs (Additions.WidenTo touched) (target.mergeSpread own spread)
      (target.mergeSpread whole spread) := by
  have same : whole.spread? spread.name = own.spread? spread.name := by
    rw [Additions.spread?, Additions.spread?, widen.spreads]
  simp only [mergeSpread, same]
  by_cases isKnown : ((target.direct.bind (·.spread? spread.name)).isSome
      || (own.spread? spread.name).isSome) = true
  · rw [if_pos isKnown, if_pos isKnown]
    exact ⟨rfl, widen⟩
  · rw [if_neg isKnown, if_neg isKnown]
    exact ⟨rfl, widen.fields, widen.branches, by rw [widen.spreads]⟩

theorem matches_mergeBranch {key : Narrowing} (widen : own.WidenTo touched whole) :
    Matches (Pairs (Additions.WidenTo touched)) (target.mergeBranch own key)
      (target.mergeBranch whole key) := by
  have same : whole.branch? key = own.branch? key := by
    rw [Additions.branch?, Additions.branch?, widen.branches]
  simp only [mergeBranch, same]
  by_cases isKnown : ((target.direct.bind (·.branch? key)).isSome
      || (own.branch? key).isSome) = true
  · rw [if_pos isKnown, if_pos isKnown]
    exact Matches.ok (show Pairs (Additions.WidenTo touched) (own, false) (whole, false) from
      ⟨rfl, widen⟩)
  · rw [if_neg isKnown, if_neg isKnown]
    refine (Matches.refl _).bind fun place other same => ?_
    subst same
    exact Matches.ok ⟨rfl, widen.fields, by rw [widen.branches], widen.spreads⟩

section Contributors

variable {sighting : Sighting} {sightings : List Sighting} {contributors later : List Contributor}

theorem subset_foldlM
    (run : sightings.foldlM target.mergeSighting (whole, contributors) = .ok (next, later)) :
    contributors ⊆ later := by
  refine foldlM_induction
    (motive := fun _ (state : Additions × List Contributor) => contributors ⊆ state.2)
    (fun _ mem => mem) ?_ run
  rintro done sighting ⟨before, earlier⟩ ⟨after, further⟩ subset step
  rcases mergeSighting_eq_ok step with ⟨contributed, -, rfl⟩
  cases contributed with
  | true => exact fun _ mem => subset_appendNew _ _ (subset mem)
  | false => exact subset

end Contributors

section Blank

variable (blank : target.IsBlank)

include blank

/-- Selections that contribute nothing at most widen fields that they touch. -/
theorem widenTo_of_mergeSelections (widen : own.WidenTo touched whole)
    (isTouched : ∀ field ∈ tree.fields, field.canHoldIn target.known = true →
      touched field.responseKey)
    (run : target.mergeSelections whole tree = .ok (next, false)) : own.WidenTo touched next := by
  simp only [mergeSelections, bind, Except.bind, pure, Except.pure] at run
  split at run
  next => cases run
  next withFields fieldsRun =>
    have ofFields := foldlM_induction
      (motive := fun done (state : Additions × Bool) =>
        (∀ field ∈ done, field ∈ tree.fields) → state.2 = false → own.WidenTo touched state.1)
      (fun _ _ => widen) ?_ fieldsRun
    · have ofSpreads := @foldl_induction Spread (Additions × Bool)
        (fun _ state => state.2 = false → own.WidenTo touched state.1) withFields tree.spreads
        (fun state spread =>
          ((target.mergeSpread state.1 spread).1, state.2 || (target.mergeSpread state.1 spread).2))
        (ofFields fun _ mem => mem) ?_
      · rw [Except.ok.inj run] at ofSpreads
        exact ofSpreads rfl
      · intro done spread before ofBefore nothing
        rcases Bool.or_eq_false_iff.mp nothing with ⟨nothingYet, isKnown⟩
        rw [mergeSpread_snd_eq_false isKnown]
        exact ofBefore nothingYet
    · intro done field before after ofBefore step subset nothing
      split at step
      next => cases step
      next merged mergedRun =>
        rcases merged with ⟨merged, isNew⟩
        rw [← Except.ok.inj step] at nothing ⊢
        rcases Bool.or_eq_false_iff.mp nothing with ⟨nothingYet, rfl⟩
        have mem := subset field (List.mem_append_right _ (List.mem_singleton_self _))
        exact widenTo_of_mergeField blank
          (ofBefore (fun other otherMem => subset other (List.mem_append_left _ otherMem))
            nothingYet) (isTouched field mem) mergedRun

section Sightings

variable {sighting : Sighting} {sightings : List Sighting} {contributor : Contributor}
  {contributors later : List Contributor}

/-- A sighting is merged alike into both additions. -/
theorem matches_mergeSighting_of_widenTo (widen : own.WidenTo touched whole) :
    Matches (Keeps (Additions.WidenTo touched)) (target.mergeSighting (own, contributors) sighting)
      (target.mergeSighting (whole, contributors) sighting) := by
  apply matches_mergeSighting
  simp only [mergeContribution]
  cases sighting.contribution with
  | selections =>
      exact matches_mergeSelections (fun _ _ widen _ _ => matches_mergeField blank widen)
        (fun _ _ _ widen => pairs_mergeSpread widen) widen
  | branch narrowing => exact matches_mergeBranch widen

/-- A sighting that is none of the sole contributor's contributes nothing, and at most widens fields
that it touches. -/
theorem widenTo_of_mergeSighting (widen : own.WidenTo touched whole)
    (isOther : (sighting.contributor == contributor) = false)
    (isTouched : ∀ tree, sighting.selections? = some tree → ∀ field ∈ tree.fields,
      field.canHoldIn target.known = true → touched field.responseKey)
    (run : target.mergeSighting (whole, contributors) sighting = .ok (next, later))
    (isSole : later ⊆ [contributor]) : later = contributors ∧ own.WidenTo touched next := by
  have notListed : ¬ appendNew contributors sighting.contributor ⊆ [contributor] := by
    intro subset
    rcases exists_mem_appendNew sighting contributors with ⟨listed, mem, same⟩
    rw [List.mem_singleton.mp (subset mem), isOther] at same
    cases same
  rcases mergeSighting_eq_ok run with ⟨contributed, merged, rfl⟩
  cases contributed with
  | true => exact absurd isSole notListed
  | false =>
      refine ⟨rfl, ?_⟩
      simp only [mergeContribution] at merged
      cases isContribution : sighting.contribution with
      | selections =>
          simp only [isContribution] at merged
          exact widenTo_of_mergeSelections blank widen
            (isTouched _ (by simp [Sighting.selections?, isContribution])) merged
      | branch narrowing =>
          simp only [isContribution, mergeBranch, bind, Except.bind, pure, Except.pure] at merged
          split at merged
          next =>
            rcases Prod.mk.inj (Except.ok.inj merged) with ⟨rfl, -⟩
            exact widen
          next =>
            split at merged
            next => cases merged
            next => simp at merged

/-- Merging only the sightings of the sole contributor gives the same, but for fields that other
sightings touch. -/
theorem exists_foldlM_filter (widen : own.WidenTo touched whole)
    (isTouched : ∀ sighting ∈ sightings, (sighting.contributor == contributor) = false →
      ∀ tree, sighting.selections? = some tree → ∀ field ∈ tree.fields,
        field.canHoldIn target.known = true → touched field.responseKey)
    (run : sightings.foldlM target.mergeSighting (whole, contributors) = .ok (next, later))
    (isSole : later ⊆ [contributor]) :
    ∃ alone, (sightings.filter (·.contributor == contributor)).foldlM target.mergeSighting
        (own, contributors) = .ok (alone, later) ∧ alone.WidenTo touched next := by
  induction sightings generalizing own whole contributors with
  | nil =>
      rcases Prod.mk.inj (Except.ok.inj run) with ⟨rfl, rfl⟩
      exact ⟨own, rfl, widen⟩
  | cons sighting rest ih =>
      have ofRest := fun other mem => isTouched other (List.mem_cons_of_mem _ mem)
      rw [List.foldlM_cons] at run
      cases once : target.mergeSighting (whole, contributors) sighting with
      | error error => simp [once, bind, Except.bind] at run
      | ok between =>
          rcases between with ⟨between, earlier⟩
          simp only [once, bind, Except.bind] at run
          -- The contributor's sightings are merged on both sides, all others on one side only.
          cases isOwn : sighting.contributor == contributor with
          | true =>
              simp only [List.filter_cons, isOwn, if_true, List.foldlM_cons]
              have alike : Matches (Keeps (Additions.WidenTo touched))
                  (target.mergeSighting (own, contributors) sighting)
                  (target.mergeSighting (whole, contributors) sighting) :=
                matches_mergeSighting_of_widenTo blank widen
              rw [once] at alike
              rcases alike.exists_ok with ⟨⟨before, _⟩, isBefore, rfl, widen⟩
              simp only [isBefore, bind, Except.bind]
              exact ih widen ofRest run
          | false =>
              simp only [List.filter_cons, isOwn, Bool.false_eq_true, if_false]
              have subset : earlier ⊆ [contributor] :=
                fun _ mem => isSole (subset_foldlM run mem)
              rcases widenTo_of_mergeSighting blank widen isOwn
                (isTouched sighting List.mem_cons_self isOwn) once subset with ⟨rfl, widen⟩
              exact ih widen ofRest run

end Sightings

end Blank

end MergeTarget

section Sightings

variable {target : MergeTarget} {occurrences : List Occurrence} {seen : List Sighting}

theorem exists_mapM_eq_ok {α β ε : Type} {step : α → Except ε β} {members : List α}
    (each : ∀ member ∈ members, ∃ result, step member = .ok result) :
    ∃ results, members.mapM step = .ok results := by
  induction members with
  | nil => exact ⟨[], rfl⟩
  | cons member rest ih =>
      rcases each member List.mem_cons_self with ⟨result, isResult⟩
      rcases ih fun other mem => each other (List.mem_cons_of_mem _ mem) with ⟨results, others⟩
      exact ⟨result :: results, by rw [List.mapM_cons, isResult, others]; rfl⟩

/-- Of some of the occurrences, just their sightings are seen. -/
theorem MergeTarget.sightings_filter (run : target.sightings occurrences = .ok seen)
    (keeps : Occurrence → Bool) :
    target.sightings (occurrences.filter keeps)
      = .ok (seen.filter fun sighting => keeps sighting.occurrence) := by
  rcases filterMap_view?_of_sightings run with ⟨rfl, succeeded⟩
  have each (occurrence : Occurrence) (mem : occurrence ∈ (occurrences.filter keeps).filter
      fun occurrence => !target.isSelf occurrence) :
      ∃ outcome, target.place.sighting? target.schema occurrence = .ok outcome := by
    simp only [List.mem_filter, Bool.not_eq_true'] at mem
    exact succeeded occurrence mem.1.1 mem.2
  rcases exists_mapM_eq_ok each with ⟨outcomes, isRun⟩
  simp only [sightings, isRun, bind, Except.bind, pure, Except.pure, Except.ok.injEq]
  rw [(filterMap_id_of_mapM isRun).1, List.filter_filterMap, List.filterMap_filter,
    List.filterMap_filter, List.filterMap_filter]
  congr 1
  funext occurrence
  have isView : (target.place.sighting? target.schema occurrence).toOption.join
      = target.place.view? target.schema occurrence := rfl
  rw [isView]
  cases sees : target.place.view? target.schema occurrence with
  | none => simp
  | some sighting =>
      have same := (Place.view?_eq_some sees).1
      cases target.isSelf occurrence <;> cases known : keeps occurrence <;>
        simp [Option.filter, same, known]

theorem Sighting.byRank_filter (keeps : Sighting → Bool) :
    byRank (seen.filter keeps) = (byRank seen).filter keeps := by
  simp only [byRank, List.filter_flatMap, List.filter_filter]
  congr 1
  funext rank
  congr 1
  funext sighting
  exact Bool.and_comm _ _

end Sightings

namespace SelectionSet

/-- What is visible at a set's place if its entity has the given occurrences. -/
def visibleAmong (schema : Schema) (entities : EntityTable) (set : SelectionSet)
    (strategy : MergingStrategy) (occurrences : List Occurrence) :
    Except BuildError VisibleSelections := do
  let target := set.mergeTarget schema entities
  let seen ← target.sightings occurrences
  let enabled := seen.filter (·.origin.isEnabled strategy)
  let (additions, contributors) ←
    (Sighting.byRank enabled).foldlM target.mergeSighting (.empty, [])
  return { place := set.place, strategy, direct := set.direct, additions, contributors }

variable {schema : Schema} {entities : EntityTable} {set : SelectionSet}
  {strategy : MergingStrategy} {visible : VisibleSelections} {contributor : Contributor}

/-- All that is visible is what all occurrences of the entity make visible. -/
theorem visibleAmong_occurrences : set.visibleAmong schema entities strategy
    (entities.occurrences set.place.entity.location) = set.visible schema entities strategy := rfl

/-- Whether an occurrence stands at a contributor's place and has its origin, as the set sees it. -/
def isFrom (set : SelectionSet) (contributor : Contributor) (occurrence : Occurrence) : Bool :=
  (⟨occurrence.place, set.place.originOf occurrence⟩ : Contributor) == contributor

/-- What is visible at a set's place if its entity has a contributor's occurrences only. -/
def visibleThrough (schema : Schema) (entities : EntityTable) (set : SelectionSet)
    (strategy : MergingStrategy) (contributor : Contributor) :
    Except BuildError VisibleSelections :=
  set.visibleAmong schema entities strategy
    ((entities.occurrences set.place.entity.location).filter (set.isFrom contributor))

/-- The sources of a set that are none of a contributor's. -/
def otherSources (entities : EntityTable) (set : SelectionSet) (strategy : MergingStrategy)
    (contributor : Contributor) : List Occurrence :=
  (set.sources entities strategy).filter fun occurrence => !set.isFrom contributor occurrence

/-- Whether visible selections are those of a contributor alone, but for fields that other sources
select, too: their conditions may be wider, and hold just if those of some source do. -/
structure IsWidenedOnly (entities : EntityTable) (set : SelectionSet) (strategy : MergingStrategy)
    (contributor : Contributor) (alone visible : VisibleSelections) : Prop where
  branches : visible.branches = alone.branches
  spreads : visible.spreads = alone.spreads
  fields : List.Forall₂ (fun own shown : Field =>
    shown = own.under shown.summary.conditions
      ∧ (∀ assignment, set.place.scope.knownConditions.all (·.holds assignment) = true →
        (shown.holds assignment = true ↔ own.holds assignment = true
          ∨ ∃ occurrence ∈ set.otherSources entities strategy contributor,
            ∃ source ∈ occurrence.selections.fields,
              source.responseKey = own.responseKey ∧ source.holds assignment = true))
      ∧ ((∀ occurrence ∈ set.otherSources entities strategy contributor,
          ∀ source ∈ occurrence.selections.fields, source.responseKey = own.responseKey →
            source.canHoldIn set.place.scope.knownConditions = false) → shown = own))
    alone.fields visible.fields

/-- What the sightings of a set have selected at its place are the selections of its sources. -/
theorem selections?_eq_some_iff
    (succeeded : ∀ occurrence ∈ set.seen entities strategy,
      ∃ outcome, set.place.sighting? schema occurrence = .ok outcome)
    {occurrence : Occurrence} {tree : SelectionTree} :
    (∃ sighting ∈ (set.seen entities strategy).filterMap (set.place.view? schema),
        sighting.occurrence = occurrence ∧ sighting.selections? = some tree)
      ↔ occurrence ∈ set.sources entities strategy ∧ tree = occurrence.selections := by
  simp only [sources, List.mem_filter]
  constructor
  · rintro ⟨sighting, mem, rfl, isTree⟩
    rcases List.mem_filterMap.mp mem with ⟨occurrence, isSeen, sees⟩
    rcases (Place.view?_eq_some sees).1 with rfl
    have ofView := (Place.bind_view? (mem_seen.mp isSeen).2.2.1 (succeeded _ isSeen)).1
    rw [sees, Option.bind_some, isTree] at ofView
    split at ofView
    next isWithin => exact ⟨⟨isSeen, isWithin⟩, Option.some.inj ofView⟩
    next => cases ofView
  · rintro ⟨⟨isSeen, isWithin⟩, rfl⟩
    have ofView := (Place.bind_view? (mem_seen.mp isSeen).2.2.1 (succeeded _ isSeen)).1
    rw [if_pos isWithin, Option.bind_eq_some_iff] at ofView
    rcases ofView with ⟨sighting, sees, isTree⟩
    exact ⟨sighting, List.mem_filterMap.mpr ⟨_, isSeen, sees⟩, (Place.view?_eq_some sees).1, isTree⟩

theorem isFrom_eq {sighting : Sighting} {occurrence : Occurrence}
    (sees : set.place.view? schema occurrence = some sighting) (contributor : Contributor) :
    set.isFrom contributor sighting.occurrence = (sighting.contributor == contributor) := by
  rcases Place.view?_eq_some sees with ⟨rfl, isOrigin, -⟩
  rw [Sighting.contributor, isOrigin]
  rfl

/-- Merging through a contributor goes through its sightings only. -/
theorem visibleThrough_eq (run : set.visible schema entities strategy = .ok visible)
    (contributor : Contributor) :
    set.visibleThrough schema entities strategy contributor
      = ((((set.seen entities strategy).filterMap (set.place.view? schema)).filter
          (·.contributor == contributor)).foldlM (set.mergeTarget schema entities).mergeSighting
            (.empty, [])).map fun merged =>
              ⟨set.place, strategy, set.direct, merged.1, merged.2⟩ := by
  simp only [SelectionSet.visible] at run
  cases isSeen : (MergeTarget.mk schema entities set.place set.direct).sightings
      (entities.occurrences set.place.entity.location) with
  | error error => simp [isSeen, bind, Except.bind] at run
  | ok seen =>
      have ofFilter := MergeTarget.sightings_filter isSeen (set.isFrom contributor)
      have order : Sighting.byRank (seen.filter (·.origin.isEnabled strategy))
          = (set.seen entities strategy).filterMap (set.place.view? schema) := by
        rw [(filterMap_view?_of_sightings isSeen).1]
        exact byRank_filterMap_view?
      simp only [visibleThrough, visibleAmong, mergeTarget, ofFilter, bind, Except.bind]
      rw [List.filter_comm, Sighting.byRank_filter, order]
      have same : ((set.seen entities strategy).filterMap (set.place.view? schema)).filter
            (fun sighting => set.isFrom contributor sighting.occurrence)
          = ((set.seen entities strategy).filterMap (set.place.view? schema)).filter
            (·.contributor == contributor) := by
        refine List.filter_congr fun sighting mem => ?_
        rcases List.mem_filterMap.mp mem with ⟨occurrence, -, sees⟩
        exact isFrom_eq sees contributor
      rw [same]
      split <;> rename_i merged <;> rw [merged] <;> rfl

/-- An alias shows what its contributor alone would make visible: the same fields, branches and
spreads in the same order. Only the conditions of fields that other sources select, too, can be
wider than the contributor's. -/
theorem exists_visibleThrough_of_aliased?
    (run : set.visible schema entities strategy = .ok visible)
    (isAlias : visible.aliased? = some contributor) :
    ∃ alone, set.visibleThrough schema entities strategy contributor = .ok alone
      ∧ alone.aliased? = some contributor
      ∧ set.IsWidenedOnly entities strategy contributor alone visible := by
  rw [visibleThrough_eq run]
  rcases foldlM_of_visible run with ⟨additions, contributors, rfl, merges, succeeded⟩
  rcases VisibleSelections.aliased?_eq_some isAlias with ⟨blank, isSole⟩
  have isSole : contributors = [contributor] := isSole
  subst isSole
  let sightings := (set.seen entities strategy).filterMap (set.place.view? schema)
  have isBlank : (set.mergeTarget schema entities).IsBlank := blank
  -- A key is touched if some other source selects it.
  let touched (key : Name) : Prop :=
    ∃ occurrence ∈ set.otherSources entities strategy contributor,
      ∃ source ∈ occurrence.selections.fields, source.responseKey = key
        ∧ source.canHoldIn set.place.scope.knownConditions = true
  have isFrom (sighting : Sighting) (mem : sighting ∈ sightings) :
      set.isFrom contributor sighting.occurrence = (sighting.contributor == contributor) := by
    rcases List.mem_filterMap.mp mem with ⟨occurrence, -, sees⟩
    exact isFrom_eq sees contributor
  have isTouched (sighting : Sighting) (mem : sighting ∈ sightings)
      (isOther : (sighting.contributor == contributor) = false) (tree : SelectionTree)
      (isTree : sighting.selections? = some tree) (field : Field) (fieldMem : field ∈ tree.fields)
      (canHold : field.canHoldIn (set.mergeTarget schema entities).known = true) :
      touched field.responseKey := by
    rcases (selections?_eq_some_iff succeeded).mp ⟨sighting, mem, rfl, isTree⟩ with
      ⟨isSource, rfl⟩
    rw [← isFrom sighting mem] at isOther
    exact ⟨sighting.occurrence, List.mem_filter.mpr ⟨isSource, by simp [isOther]⟩, field, fieldMem,
      rfl, canHold⟩
  have begins : Additions.empty.WidenTo touched .empty := ⟨.nil, rfl, rfl⟩
  rcases MergeTarget.exists_foldlM_filter isBlank begins isTouched merges (List.Subset.refl _) with
    ⟨alone, aloneRun, widen⟩
  have ofAlone := MergeTarget.hasMerged_of_foldlM aloneRun
  have ofWhole := MergeTarget.hasMerged_of_foldlM merges
  -- Fields of the merged trees are those of the sightings' occurrences.
  have selects (merged : List Sighting) (key : Name) (assignment : Assignment) :
      (∃ source ∈ (merged.filterMap (·.selections?)).flatMap (·.fields),
          source.responseKey = key ∧ source.holds assignment = true)
        ↔ ∃ sighting ∈ merged, ∃ tree, sighting.selections? = some tree ∧
          ∃ source ∈ tree.fields, source.responseKey = key ∧ source.holds assignment = true := by
    simp only [List.mem_flatMap, List.mem_filterMap]
    tauto
  have isShown (sighting : Sighting) (mem : sighting ∈ sightings) (tree : SelectionTree)
      (isTree : sighting.selections? = some tree) :
      sighting.occurrence ∈ set.sources entities strategy
        ∧ tree = sighting.occurrence.selections :=
    (selections?_eq_some_iff succeeded).mp ⟨sighting, mem, rfl, isTree⟩
  rw [aloneRun]
  refine ⟨_, rfl, ?_, ?_⟩
  · have notWritten : set.direct.any (fun direct => !direct.isEmpty) = false := by
      rw [Option.any_eq_false]
      exact fun direct isDirect => by simp [blank direct isDirect]
    simp [VisibleSelections.aliased?, notWritten]
  · rcases direct_eq_nil blank with ⟨noFields, noBranches, noSpreads⟩
    refine ⟨?_, ?_, ?_⟩
    · change set.directBranches ++ additions.branches = set.directBranches ++ alone.branches
      rw [widen.branches]
    · change set.directSpreads ++ additions.spreads = set.directSpreads ++ alone.spreads
      rw [widen.spreads]
    · change List.Forall₂ _ (set.directFields.map _ ++ alone.fields)
        (set.directFields.map _ ++ additions.fields)
      rw [noFields, List.map_nil, List.map_nil, List.nil_append, List.nil_append]
      refine List.forall₂_iff_zip.mpr ⟨widen.fields.length_eq, fun {own shown} mem => ?_⟩
      have widens := List.forall₂_zip widen.fields mem
      have ofOwn := (ofAlone.fields.added own (List.of_mem_zip mem).1).conditions
      have ofShown := (ofWhole.fields.added shown (List.of_mem_zip mem).2).conditions
      rw [widens.responseKey] at ofShown
      refine ⟨widens.under, fun assignment knownHolds => ?_, fun none => widens.untouched ?_⟩
      · rw [ofOwn assignment knownHolds, ofShown assignment knownHolds, selects, selects]
        constructor
        · rintro ⟨sighting, mem, tree, isTree, source, sourceMem, isSource⟩
          cases isOwn : sighting.contributor == contributor with
          | true =>
              exact Or.inl ⟨sighting, List.mem_filter.mpr ⟨mem, isOwn⟩, tree, isTree, source,
                sourceMem, isSource⟩
          | false =>
              rcases isShown sighting mem tree isTree with ⟨shows, rfl⟩
              rw [← isFrom sighting mem] at isOwn
              exact Or.inr ⟨sighting.occurrence, List.mem_filter.mpr ⟨shows, by simp [isOwn]⟩,
                source, sourceMem, isSource⟩
        · rintro (⟨sighting, mem, isSource⟩ | ⟨occurrence, isOther, source, sourceMem, isSource⟩)
          · exact ⟨sighting, (List.mem_filter.mp mem).1, isSource⟩
          · rcases (selections?_eq_some_iff succeeded).mpr ⟨(List.mem_filter.mp isOther).1, rfl⟩
              with ⟨sighting, mem, rfl, isTree⟩
            exact ⟨sighting, mem, _, isTree, source, sourceMem, isSource⟩
      · rintro ⟨occurrence, isOther, source, sourceMem, isKey, canHold⟩
        rw [none occurrence isOther source sourceMem isKey] at canHold
        cases canHold

end SelectionSet

/-- A sample in which a hero's name is selected under a condition, and in a fragment without one.
Behind a branch that selects nothing on the hero, both are merged. -/
def Renowned : Sample where
  schemaText :=
    "type Query \x7b hero: Hero id: ID \x7d type Hero \x7b name: String \x7d"
  sources :=
    [⟨"d.graphql",
      "query Q($a: Boolean!, $b: Boolean!) \x7b hero \x7b name @include(if: $a) \x7d "
        ++ "... @include(if: $b) \x7b id \x7d ...F \x7d fragment F on Query \x7b hero \x7b name "
        ++ "\x7d \x7d"⟩]
  isValid := by decide +kernel

/-- Behind the branch, the hero counts as an alias of what the operation selects on it. The alias
selects the name under a condition, the hero has it in any case. -/
theorem Renowned.exists_alias : ∃ (set : SelectionSet) (visible alone : VisibleSelections)
    (contributor : Contributor), set.Offered Renowned.project
    ∧ set.visible Renowned.project.schema Renowned.workspace.entities .all = .ok visible
    ∧ visible.aliased? = some contributor
    ∧ set.visibleThrough Renowned.project.schema Renowned.workspace.entities .all contributor
      = .ok alone
    ∧ (∃ shown ∈ visible.fields, shown.summary.conditions = none)
    ∧ ∀ own ∈ alone.fields, own.summary.conditions ≠ none := by
  have computes : (Renowned.workspace.operations.any fun operation =>
      operation.2.root.writtenSets.any fun member =>
        ((SelectionSet.mk member.1 (some member.2)).visible Renowned.project.schema
          Renowned.workspace.entities .all).toOption.any fun outer =>
            outer.fields.any fun field => field.selectionSet.any fun set =>
              (set.visible Renowned.project.schema Renowned.workspace.entities
                .all).toOption.any fun visible => visible.aliased?.any fun contributor =>
                  (set.visibleThrough Renowned.project.schema Renowned.workspace.entities .all
                    contributor).toOption.any fun alone =>
                      visible.fields.any (·.summary.conditions.isNone)
                        && alone.fields.all (·.summary.conditions.isSome)) = true := by
    rewrite [Renowned.workspace_eq, Renowned.project_eq]
    decide +kernel
  simp only [List.any_eq_true, Option.any_eq_true, Bool.and_eq_true, List.all_eq_true,
    Option.isNone_iff_eq_none, Option.isSome_iff_ne_none] at computes
  rcases computes with ⟨⟨key, shape⟩, isBuilt, member, mem, outer, isOuter, field, fieldMem, set,
    isInner, visible, isVisible, contributor, isAlias, alone, isAlone, unconditional, conditional⟩
  have offered := SelectionSet.Offered.operation Renowned.reachable isBuilt mem
  have isOuter := Build.eq_ok_of_toOption isOuter
  exact ⟨set, visible, alone, contributor,
    offered.field Renowned.reachable isOuter fieldMem isInner, Build.eq_ok_of_toOption isVisible,
    isAlias, Build.eq_ok_of_toOption isAlone, unconditional, conditional⟩

/-- An alias can lose that a field is selected unconditionally. -/
theorem SelectionSet.exists_aliased?_conditional : ∃ (schemaText : String)
    (sources : List SourceText) (project : Project) (workspace : Workspace) (set : SelectionSet)
    (visible alone : VisibleSelections) (contributor : Contributor),
    Compilation.validated? schemaText sources = some project.compilation
    ∧ Workspace.Reachable project workspace ∧ set.Offered project
    ∧ set.visible project.schema workspace.entities .all = .ok visible
    ∧ visible.aliased? = some contributor
    ∧ set.visibleThrough project.schema workspace.entities .all contributor = .ok alone
    ∧ (∃ shown ∈ visible.fields, shown.summary.conditions = none)
    ∧ ∀ own ∈ alone.fields, own.summary.conditions ≠ none := by
  rcases Renowned.exists_alias with ⟨set, visible, alone, contributor, isAlias⟩
  exact ⟨_, _, Renowned.project, Renowned.workspace, set, visible, alone, contributor,
    Renowned.validated?_eq_some, Renowned.reachable, isAlias⟩

/-- Nothing else is lost there. -/
theorem SelectionSet.exists_visibleThrough_renowned : ∃ (set : SelectionSet)
    (visible alone : VisibleSelections) (contributor : Contributor),
    set.visible Renowned.project.schema Renowned.workspace.entities .all = .ok visible
    ∧ visible.aliased? = some contributor
    ∧ set.visibleThrough Renowned.project.schema Renowned.workspace.entities .all contributor
      = .ok alone
    ∧ visible.fields ≠ []
    ∧ set.IsWidenedOnly Renowned.workspace.entities .all contributor alone visible := by
  rcases Renowned.exists_alias with
    ⟨set, visible, -, contributor, -, run, isAlias, -, ⟨shown, mem, -⟩, -⟩
  rcases exists_visibleThrough_of_aliased? run isAlias with ⟨alone, isAlone, -, widened⟩
  exact ⟨set, visible, alone, contributor, run, isAlias, isAlone, List.ne_nil_of_mem mem, widened⟩

end ResponseShape
