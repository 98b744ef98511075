import Mathlib.Data.List.Basic
import ResponseShape.Merging.Merge
import ResponseShape.Proofs.Scope.Failures

/-!
# What a selection set sees

The occurrences that merging draws on, and in which order. `SelectionSet.seen` lists the occurrences
of the set's entity that lie within the same enclosing scopes, as far as a strategy admits them.
Those in a scope that the set is within are its sources; towards the others the set may branch
(`Scope.branchTowards?`). Merging goes through just these (`SelectionSet.visible_eq_ok`).
-/

namespace ResponseShape

/-- Whether objects within a scope may have a type. -/
def Scope.mayHave (schema : Schema) (scope : Scope) (type : Name) : Bool :=
  match schema.typesOverlap scope.type type with
  | .ok overlaps => overlaps
  | .error _ => false

/-- How a scope branches towards another: by what it does not know of the first narrowing that it
does not imply, if its objects can meet this narrowing. -/
def Scope.branchTowards? (schema : Schema) (scope other : Scope) : Option Narrowing :=
  (other.path.find? fun narrowing => !scope.implies narrowing).bind fun narrowing =>
    if scope.admits narrowing && narrowing.typeCondition.all (scope.mayHave schema) then
      scope.effective? narrowing
    else none

namespace SelectionSet

/-- Whether an occurrence is the selection set itself: it is written at the set's place. -/
def isItself (set : SelectionSet) (occurrence : Occurrence) : Bool :=
  set.direct.isSome && occurrence.fragment.isNone && occurrence.place == set.place

/-- The other occurrences of the set's entity within the same enclosing scopes that a strategy
admits, in the order of merging: by origin, and by registration among those of one origin. -/
def seen (entities : EntityTable) (set : SelectionSet) (strategy : MergingStrategy) :
    List Occurrence :=
  let others := (entities.occurrences set.place.entity.location).filter fun occurrence =>
    !set.isItself occurrence && set.place.isEnclosedLike occurrence.place
      && (set.place.originOf occurrence).isEnabled strategy
  [0, 1, 2].flatMap fun rank =>
    others.filter fun occurrence => (set.place.originOf occurrence).rank == rank

/-- The occurrences that a set sees in scopes that it is within. -/
def sources (entities : EntityTable) (set : SelectionSet) (strategy : MergingStrategy) :
    List Occurrence :=
  (set.seen entities strategy).filter fun occurrence =>
    set.place.scope.isWithin occurrence.place.scope

theorem mem_seen {entities : EntityTable} {set : SelectionSet} {strategy : MergingStrategy}
    {occurrence : Occurrence} : occurrence ∈ set.seen entities strategy ↔
      occurrence ∈ entities.occurrences set.place.entity.location
        ∧ set.isItself occurrence = false
        ∧ set.place.isEnclosedLike occurrence.place = true
        ∧ (set.place.originOf occurrence).isEnabled strategy = true := by
  have ranked : (set.place.originOf occurrence).rank ∈ [0, 1, 2] := by
    cases set.place.originOf occurrence <;> simp [Origin.rank]
  simp only [seen, List.mem_flatMap, List.mem_filter, Bool.and_eq_true, Bool.not_eq_true',
    beq_iff_eq]
  constructor
  · rintro ⟨rank, -, ⟨mem, ⟨isOther, enclosed⟩, enabled⟩, -⟩
    exact ⟨mem, isOther, enclosed, enabled⟩
  · rintro ⟨mem, isOther, enclosed, enabled⟩
    exact ⟨_, ranked, ⟨mem, ⟨isOther, enclosed⟩, enabled⟩, rfl⟩

end SelectionSet

namespace Sighting

/-- The tree that a sighting has selected at the place. -/
def selections? (sighting : Sighting) : Option SelectionTree :=
  match sighting.contribution with
  | .selections => some sighting.occurrence.selections
  | .branch _ => none

/-- The narrowing by which a sighting lets the place branch. -/
def key? (sighting : Sighting) : Option Narrowing :=
  match sighting.contribution with
  | .selections => none
  | .branch narrowing => some narrowing

end Sighting

section Sightings

variable {schema : Schema} {entities : EntityTable} {set : SelectionSet}
  {strategy : MergingStrategy} {visible : VisibleSelections} {scope other : Scope}
  {place : Place} {occurrence : Occurrence} {sighting : Sighting}

/-- All that another scope can contribute. -/
theorem Scope.contributionFrom_eq_ok {contribution : Option Contribution}
    (contributes : scope.contributionFrom schema other = .ok contribution) :
    (scope.isWithin other = true ∧ scope.branchTowards? schema other = none
        ∧ contribution = some .selections)
      ∨ (scope.isWithin other = false
        ∧ contribution = (scope.branchTowards? schema other).map .branch) := by
  simp only [contributionFrom] at contributes
  cases isFirst : other.path.find? fun narrowing => !scope.implies narrowing with
  | none =>
      left
      rw [isFirst] at contributes
      refine ⟨?_, by simp [branchTowards?, isFirst], (Except.ok.inj contributes).symm⟩
      simpa [isWithin] using List.find?_eq_none.mp isFirst
  | some narrowing =>
      right
      rw [isFirst] at contributes
      constructor
      · have unknown := List.find?_some isFirst
        rw [isWithin, List.all_eq_false]
        exact ⟨narrowing, List.mem_of_find?_eq_some isFirst, by simpa using unknown⟩
      · simp only [branchBy] at contributes
        simp only [branchTowards?, isFirst, Option.bind_some]
        cases admits : scope.admits narrowing with
        | false => simp_all [pure, Except.pure]
        | true =>
            cases condition : narrowing.typeCondition with
            | none => simp_all [pure, Except.pure, bind, Except.bind]
            | some type =>
                cases overlap : schema.typesOverlap scope.type type with
                | error error => simp_all [bind, Except.bind]
                | ok overlaps =>
                    cases overlaps <;> simp_all [mayHave, pure, Except.pure, bind, Except.bind]

/-- A scope branches by what it admits, and implies no part of. -/
theorem Scope.of_branchTowards? {key : Narrowing}
    (towards : scope.branchTowards? schema other = some key) :
    scope.effective? key = some key ∧ scope.admits key = true := by
  simp only [branchTowards?, Option.bind_eq_some_iff] at towards
  rcases towards with ⟨narrowing, -, isKey⟩
  split at isKey
  next met =>
    rw [Bool.and_eq_true] at met
    exact ⟨effective?_effective isKey, (admits_effective isKey).trans met.1⟩
  next => cases isKey

/-- What a scope branches by is part of what it does not imply of the other. -/
theorem Scope.exists_mem_path_of_branchTowards? {key : Narrowing}
    (towards : scope.branchTowards? schema other = some key) :
    ∃ narrowing ∈ other.path, scope.implies narrowing = false
      ∧ key = scope.unknownPart narrowing := by
  simp only [branchTowards?, Option.bind_eq_some_iff] at towards
  rcases towards with ⟨narrowing, isFirst, isKey⟩
  split at isKey
  next =>
    exact ⟨narrowing, List.mem_of_find?_eq_some isFirst, by simpa using List.find?_some isFirst,
      (effective?_eq_some isKey).1⟩
  next => cases isKey

/-- How a place sees an occurrence, if it does. -/
def Place.view? (schema : Schema) (place : Place) (occurrence : Occurrence) : Option Sighting :=
  (place.sighting? schema occurrence).toOption.join

theorem Place.view?_eq_some (sees : place.view? schema occurrence = some sighting) :
    sighting.occurrence = occurrence ∧ sighting.origin = place.originOf occurrence
      ∧ place.isEnclosedLike occurrence.place = true := by
  simp only [view?, sighting?] at sees
  split at sees
  next enclosed =>
    cases contributes : place.scope.contributionFrom schema occurrence.place.scope with
    | error error => simp [contributes, Except.map, Except.toOption] at sees
    | ok contribution =>
        cases contribution with
        | none => simp [contributes, Except.map, Except.toOption] at sees
        | some contribution =>
            simp only [contributes, Except.map, Except.toOption, Option.map_some, Option.join_some,
              Option.some.injEq] at sees
            rw [← sees]
            exact ⟨rfl, rfl, enclosed⟩
  next => simp [Except.toOption] at sees

/-- What a place sees of an occurrence within the same enclosing scopes: its selections if it is
within their scope, and otherwise the branch towards it. -/
theorem Place.bind_view? (enclosed : place.isEnclosedLike occurrence.place = true)
    (succeeded : ∃ outcome, place.sighting? schema occurrence = .ok outcome) :
    (place.view? schema occurrence).bind (·.selections?)
        = (if place.scope.isWithin occurrence.place.scope then some occurrence.selections else none)
      ∧ (place.view? schema occurrence).bind (·.key?)
        = place.scope.branchTowards? schema occurrence.place.scope := by
  rcases succeeded with ⟨outcome, sees⟩
  simp only [sighting?, enclosed, if_true] at sees
  cases contributes : place.scope.contributionFrom schema occurrence.place.scope with
  | error error => simp [contributes, Except.map] at sees
  | ok contribution =>
      simp only [view?, sighting?, enclosed, if_true, contributes, Except.map, Except.toOption,
        Option.join_some]
      rcases Scope.contributionFrom_eq_ok contributes with
        ⟨isWithin, none, rfl⟩ | ⟨isOutside, rfl⟩
      · simp [isWithin, none, Sighting.selections?, Sighting.key?]
      · rw [isOutside]
        cases place.scope.branchTowards? schema occurrence.place.scope <;>
          simp [Sighting.selections?, Sighting.key?]

/-- What a place sees of an occurrence that it has sighted. -/
theorem Sighting.of_view? (sees : place.view? schema sighting.occurrence = some sighting) :
    (∀ tree, sighting.selections? = some tree → sighting.occurrence.selections = tree
        ∧ place.scope.isWithin sighting.occurrence.place.scope = true)
      ∧ sighting.key? = place.scope.branchTowards? schema sighting.occurrence.place.scope := by
  have succeeded : ∃ outcome, place.sighting? schema sighting.occurrence = .ok outcome := by
    cases isSighting : place.sighting? schema sighting.occurrence with
    | error error => simp [Place.view?, isSighting, Except.toOption] at sees
    | ok outcome => exact ⟨outcome, rfl⟩
  rcases Place.bind_view? (Place.view?_eq_some sees).2.2 succeeded with ⟨selections, key⟩
  rw [sees, Option.bind_some] at selections key
  refine ⟨fun tree isTree => ?_, key⟩
  rw [isTree] at selections
  split at selections
  next within => exact ⟨(Option.some.inj selections).symm, within⟩
  next => cases selections

theorem filterMap_id_of_mapM {α β ε : Type} {step : α → Except ε (Option β)} {members : List α}
    {outcomes : List (Option β)} (run : members.mapM step = .ok outcomes) :
    outcomes.filterMap id = members.filterMap (fun member => (step member).toOption.join)
      ∧ ∀ member ∈ members, ∃ outcome, step member = .ok outcome := by
  induction members generalizing outcomes with
  | nil =>
      rw [List.mapM_nil] at run
      rcases Except.ok.inj run with rfl
      simp
  | cons member rest ih =>
      rw [List.mapM_cons] at run
      cases first : step member with
      | error error => simp [first, bind, Except.bind] at run
      | ok outcome =>
          cases others : rest.mapM step with
          | error error => simp [first, others, bind, Except.bind] at run
          | ok more =>
              simp only [first, others, bind, Except.bind, pure, Except.pure, Except.ok.injEq]
                at run
              subst run
              rcases ih others with ⟨same, succeeded⟩
              constructor
              · have here : (step member).toOption.join = outcome := by rw [first]; rfl
                rw [List.filterMap_cons, List.filterMap_cons, here, same]
                rfl
              · simpa [first] using succeeded

theorem filterMap_view?_of_sightings {target : MergeTarget} {occurrences : List Occurrence}
    {seen : List Sighting} (run : target.sightings occurrences = .ok seen) :
    seen = (occurrences.filter fun occurrence => !target.isSelf occurrence).filterMap
        (target.place.view? target.schema)
      ∧ ∀ occurrence ∈ occurrences, target.isSelf occurrence = false →
        ∃ outcome, target.place.sighting? target.schema occurrence = .ok outcome := by
  simp only [MergeTarget.sightings] at run
  cases outcomes : (occurrences.filter fun occurrence => !target.isSelf occurrence).mapM
      (target.place.sighting? target.schema) with
  | error error => simp [outcomes, bind, Except.bind] at run
  | ok found =>
      simp only [outcomes, bind, Except.bind, pure, Except.pure, Except.ok.injEq] at run
      rcases filterMap_id_of_mapM outcomes with ⟨same, succeeded⟩
      refine ⟨run.symm.trans same, ?_⟩
      intro occurrence mem isOther
      exact succeeded occurrence (List.mem_filter.mpr ⟨mem, by simp [isOther]⟩)

theorem MergeTarget.of_mem_sightings {target : MergeTarget} {occurrences : List Occurrence}
    {seen : List Sighting} (run : target.sightings occurrences = .ok seen)
    (mem : sighting ∈ seen) : sighting.occurrence ∈ occurrences
      ∧ target.place.view? target.schema sighting.occurrence = some sighting := by
  rcases filterMap_view?_of_sightings run with ⟨rfl, -⟩
  rcases List.mem_filterMap.mp mem with ⟨occurrence, isOccurrence, sees⟩
  rw [(Place.view?_eq_some sees).1]
  exact ⟨(List.mem_filter.mp isOccurrence).1, sees⟩

theorem Sighting.mem_of_mem_byRank {sightings : List Sighting}
    (mem : sighting ∈ Sighting.byRank sightings) : sighting ∈ sightings := by
  simp only [byRank, List.mem_flatMap, List.mem_filter] at mem
  rcases mem with ⟨-, -, known, -⟩
  exact known

theorem Scope.blamesInput_branchBy (scope : Scope) (narrowing : Narrowing) :
    BlamesInput (scope.branchBy schema narrowing) := by
  simp only [branchBy]
  split
  next => trivial
  next =>
    split
    next => exact (Schema.blamesInput_typesOverlap _ _).bind fun _ => trivial
    next => trivial

theorem Place.blamesInput_sighting? (occurrence : Occurrence) :
    BlamesInput (place.sighting? schema occurrence) := by
  simp only [sighting?]
  split
  next =>
    refine BlamesInput.map ?_
    simp only [Scope.contributionFrom]
    split
    next => trivial
    next => exact Scope.blamesInput_branchBy _ _
  next => trivial

theorem MergeTarget.blamesInput_sightings {target : MergeTarget}
    (occurrences : List Occurrence) : BlamesInput (target.sightings occurrences) := by
  simp only [sightings]
  exact (Yields.mapM fun occurrence _ => Place.blamesInput_sighting? occurrence).bind
    fun _ _ => trivial

/-- The order of merging is that of what is seen. -/
theorem byRank_filterMap_view? : Sighting.byRank
      ((((entities.occurrences set.place.entity.location).filter fun occurrence =>
        !set.isItself occurrence).filterMap (set.place.view? schema)).filter
          (·.origin.isEnabled strategy))
    = (set.seen entities strategy).filterMap (set.place.view? schema) := by
  simp only [Sighting.byRank, SelectionSet.seen, List.filterMap_flatMap]
  congr 1
  funext rank
  rw [List.filterMap_filter, List.filter_filterMap, List.filter_filterMap, List.filterMap_filter,
    List.filterMap_filter]
  congr 1
  funext occurrence
  cases sees : set.place.view? schema occurrence with
  | none => simp
  | some sighting =>
      rcases Place.view?_eq_some sees with ⟨-, isOrigin, enclosed⟩
      simp only [enclosed, Bool.and_true, ← isOrigin]
      cases set.isItself occurrence <;> cases enabled : sighting.origin.isEnabled strategy <;>
        simp [Option.filter, enabled]

/-- What a success of merging is: everything seen could be sighted, and was merged in order. -/
theorem SelectionSet.foldlM_of_visible (run : set.visible schema entities strategy = .ok visible) :
    ∃ additions contributors,
      visible = ⟨set.place, strategy, set.direct, additions, contributors⟩
        ∧ ((set.seen entities strategy).filterMap (set.place.view? schema)).foldlM
          (MergeTarget.mk schema entities set.place set.direct).mergeSighting (.empty, [])
          = .ok (additions, contributors)
        ∧ ∀ occurrence ∈ set.seen entities strategy,
          ∃ outcome, set.place.sighting? schema occurrence = .ok outcome := by
  simp only [SelectionSet.visible] at run
  cases isSeen : (MergeTarget.mk schema entities set.place set.direct).sightings
      (entities.occurrences set.place.entity.location) with
  | error error => simp [isSeen, bind, Except.bind] at run
  | ok seen =>
      rcases filterMap_view?_of_sightings isSeen with ⟨rfl, succeeded⟩
      simp only [isSeen, bind, Except.bind] at run
      split at run
      next => cases run
      next merged isMerged =>
        rcases merged with ⟨additions, contributors⟩
        simp only [pure, Except.pure, Except.ok.injEq] at run
        have order := @byRank_filterMap_view? schema entities set strategy
        simp only [isItself] at order
        simp only [MergeTarget.isSelf] at isMerged
        rw [order] at isMerged
        refine ⟨additions, contributors, run.symm, isMerged, ?_⟩
        intro occurrence mem
        rcases mem_seen.mp mem with ⟨known, isOther, -, -⟩
        exact succeeded occurrence known isOther

/-- If all that is seen can be sighted, the sightings show the selections of the sources, and
branches towards all else. -/
theorem SelectionSet.filterMap_view?_seen
    (succeeded : ∀ occurrence ∈ set.seen entities strategy,
      ∃ outcome, set.place.sighting? schema occurrence = .ok outcome) :
    ((set.seen entities strategy).filterMap (set.place.view? schema)).filterMap (·.selections?)
        = (set.sources entities strategy).map (·.selections)
      ∧ ((set.seen entities strategy).filterMap (set.place.view? schema)).filterMap (·.key?)
        = (set.seen entities strategy).filterMap fun occurrence =>
          set.place.scope.branchTowards? schema occurrence.place.scope := by
  have ofSeen (occurrence : Occurrence) (mem : occurrence ∈ set.seen entities strategy) :=
    Place.bind_view? (mem_seen.mp mem).2.2.1 (succeeded occurrence mem)
  constructor
  · rw [sources, List.filterMap_filterMap, ← List.filterMap_eq_map, List.filterMap_filter]
    exact List.filterMap_congr fun occurrence mem => (ofSeen occurrence mem).1
  · rw [List.filterMap_filterMap]
    exact List.filterMap_congr fun occurrence mem => (ofSeen occurrence mem).2

/-- What is merged are the selections of the sources, and branches towards all else that is seen. -/
theorem SelectionSet.visible_eq_ok (run : set.visible schema entities strategy = .ok visible) :
    ∃ additions contributors, ∃ sightings : List Sighting,
      visible = ⟨set.place, strategy, set.direct, additions, contributors⟩
        ∧ sightings.foldlM (MergeTarget.mk schema entities set.place set.direct).mergeSighting
          (.empty, []) = .ok (additions, contributors)
        ∧ sightings.filterMap (·.selections?)
          = (set.sources entities strategy).map (·.selections)
        ∧ sightings.filterMap (·.key?)
          = ((set.seen entities strategy).filterMap fun occurrence =>
            set.place.scope.branchTowards? schema occurrence.place.scope)
        ∧ ∀ sighting ∈ sightings, sighting.occurrence ∈ set.seen entities strategy
          ∧ set.place.view? schema sighting.occurrence = some sighting := by
  rcases foldlM_of_visible run with ⟨additions, contributors, isVisible, isMerged, succeeded⟩
  rcases filterMap_view?_seen succeeded with ⟨trees, keys⟩
  refine ⟨additions, contributors, _, isVisible, isMerged, trees, keys, fun sighting mem => ?_⟩
  rcases List.mem_filterMap.mp mem with ⟨occurrence, isSeen, sees⟩
  rw [(Place.view?_eq_some sees).1]
  exact ⟨isSeen, sees⟩

/-- What merging one field and one spread keeps, merging selections keeps. -/
theorem MergeTarget.yields_mergeSelections_of_steps {target : MergeTarget} {additions : Additions}
    {tree : SelectionTree} {fails : BuildError → Prop} {states : Additions → Prop}
    (begins : states additions)
    (ofFields : ∀ before, states before → ∀ field ∈ tree.fields,
      Yields fails (fun merged => states merged.1) (target.mergeField before field))
    (ofSpreads : ∀ before, states before → ∀ spread ∈ tree.spreads,
      states (target.mergeSpread before spread).1) :
    Yields fails (fun merged => states merged.1) (target.mergeSelections additions tree) := by
  simp only [mergeSelections]
  refine Yields.bind (.foldlM begins fun merged before field mem => ?_)
    fun merged (before : states merged.1) => ?_
  · exact (ofFields merged.1 before field mem).bind fun _ next => next
  · exact List.foldlRecOn (motive := fun merged : Additions × Bool => states merged.1) _ _ before
      fun merged before spread mem => ofSpreads merged.1 before spread mem

/-- What merging one sighting keeps holds of all that is visible. -/
theorem SelectionSet.yields_visible_of_steps {fails : BuildError → Prop}
    (states : Additions × List Contributor → Prop)
    (blames : ∀ error, error.isInputError = true → fails error) (begins : states (.empty, []))
    (steps : ∀ merged, states merged → ∀ sighting : Sighting,
      sighting.occurrence ∈ entities.occurrences set.place.entity.location →
      set.place.view? schema sighting.occurrence = some sighting →
        Yields fails states
          ((MergeTarget.mk schema entities set.place set.direct).mergeSighting merged sighting)) :
    Yields fails (fun visible => ∃ additions contributors,
        visible = ⟨set.place, strategy, set.direct, additions, contributors⟩
          ∧ states (additions, contributors)) (set.visible schema entities strategy) := by
  simp only [SelectionSet.visible]
  refine Yields.bind ((MergeTarget.blamesInput_sightings _).mono (fun error isTextError =>
    blames error (BuildError.isInputError_of_isTextError isTextError)) fun _ => id).remember
    fun seen isSeen => ?_
  refine Yields.bind (.foldlM begins fun merged before sighting mem => ?_)
    fun (merged : Additions × List Contributor) (after : states merged) =>
      ⟨merged.1, merged.2, rfl, after⟩
  have inSeen := (List.mem_filter.mp (Sighting.mem_of_mem_byRank mem)).1
  rcases MergeTarget.of_mem_sightings isSeen inSeen with ⟨isRegistered, sees⟩
  exact steps merged before sighting isRegistered sees

end Sightings

end ResponseShape
