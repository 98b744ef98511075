import ResponseShape.Proofs.Merging.Aliases
import ResponseShape.Proofs.Outcomes

/-!
# Steps of merging

Merging goes through the occurrences of a set's entity, and takes fields, spreads and branches from
them one by one. What each of these steps keeps holds of all that is added
(`SelectionSet.additions_of_visible`).
-/

namespace ResponseShape

section Branches

variable {target : MergeTarget} {additions next : Additions} {key : Narrowing}
  {contributed : Bool}

/-- Merging a branch adds to the branches alone. -/
theorem MergeTarget.eq_of_mergeBranch
    (run : target.mergeBranch additions key = .ok (next, contributed)) :
    next = { additions with branches := next.branches } := by
  simp only [mergeBranch, bind, Except.bind, pure, Except.pure] at run
  split at run
  next => rw [← (Prod.mk.inj (Except.ok.inj run)).1]
  next =>
    split at run
    next => cases run
    next => rw [← (Prod.mk.inj (Except.ok.inj run)).1]

end Branches

section Runs

variable {schema : Schema} {entities : EntityTable} {set : SelectionSet}
  {strategy : MergingStrategy} {visible : VisibleSelections}

/-- What each step of merging keeps, all that is added together keeps. Fields and spreads come from
occurrences of the set's entity. -/
theorem SelectionSet.additions_of_visible {motive : Additions → Prop} (begins : motive .empty)
    (ofFields : ∀ before field after contributed,
      (∃ occurrence ∈ entities.occurrences set.place.entity.location,
        field ∈ occurrence.selections.fields) → motive before →
      (set.mergeTarget schema entities).mergeField before field = .ok (after, contributed) →
        motive after)
    (ofSpreads : ∀ before spread,
      (∃ occurrence ∈ entities.occurrences set.place.entity.location,
        spread ∈ occurrence.selections.spreads) → motive before →
      motive ((set.mergeTarget schema entities).mergeSpread before spread).1)
    (ofBranches : ∀ before key after contributed, motive before →
      (set.mergeTarget schema entities).mergeBranch before key = .ok (after, contributed) →
        motive after)
    (run : set.visible schema entities strategy = .ok visible) : motive visible.additions := by
  have yields : Yields (fun _ => True) (fun visible : VisibleSelections => motive visible.additions)
      (set.visible schema entities strategy) := by
    refine (yields_visible_of_steps (fun merged => motive merged.1) (fun _ _ => trivial) begins
      fun merged before sighting isRegistered _ => ?_).mono (fun _ => id) ?_
    · simp only [MergeTarget.mergeSighting]
      split
      next =>
        have merges : Yields (fun _ => True)
            (fun merged : Additions × Bool => motive merged.1)
            ((set.mergeTarget schema entities).mergeSelections merged.1
              sighting.occurrence.selections) :=
          MergeTarget.yields_mergeSelections_of_steps before
            (fun _ kept field mem => .of_forall fun _ run =>
              ofFields _ field _ _ ⟨_, isRegistered, mem⟩ kept run)
            fun _ kept spread mem => ofSpreads _ spread ⟨_, isRegistered, mem⟩ kept
        exact merges.bind fun _ kept => kept
      next narrowing _ =>
        have merges : Yields (fun _ => True)
            (fun merged : Additions × Bool => motive merged.1)
            ((set.mergeTarget schema entities).mergeBranch merged.1 narrowing) :=
          .of_forall fun _ run => ofBranches _ narrowing _ _ before run
        exact merges.bind fun _ kept => kept
    · rintro _ ⟨additions, contributors, rfl, kept⟩
      exact kept
  rw [run] at yields
  exact yields

/-- Spreads that are added stand where those of the set's entity do. -/
theorem VisibleSelections.forall_added_spreads (property : Place → Prop)
    (run : set.visible schema entities strategy = .ok visible)
    (ofSpreads : ∀ occurrence ∈ entities.occurrences set.place.entity.location,
      ∀ spread ∈ occurrence.selections.spreads, property spread.place) :
    ∀ added ∈ visible.additions.spreads, property added.place := by
  refine SelectionSet.additions_of_visible (motive := fun additions =>
    ∀ added ∈ additions.spreads, property added.place) (List.forall_mem_nil _) ?_ ?_ ?_ run
  · intro before field after contributed _ known step
    rw [(MergeTarget.mergesField_of_mergeField step).others.1]
    exact known
  · rintro before spread ⟨occurrence, isRegistered, mem⟩ known
    simp only [MergeTarget.mergeSpread]
    split
    next => exact known
    next =>
      exact List.forall_mem_append.mpr
        ⟨known, List.forall_mem_singleton.mpr (ofSpreads occurrence isRegistered spread mem)⟩
  · intro before key after contributed known step
    rw [MergeTarget.eq_of_mergeBranch step]
    exact known

/-- Contributors stand where the occurrences of the set's entity do. -/
theorem VisibleSelections.forall_contributors (property : Place → Prop)
    (run : set.visible schema entities strategy = .ok visible)
    (ofOccurrences : ∀ occurrence ∈ entities.occurrences set.place.entity.location,
      property occurrence.place) :
    ∀ contributor ∈ visible.contributors, property contributor.place := by
  have yields : Yields (fun _ => True) (fun visible : VisibleSelections =>
      ∀ contributor ∈ visible.contributors, property contributor.place)
      (set.visible schema entities strategy) := by
    refine (SelectionSet.yields_visible_of_steps
      (fun merged => ∀ contributor ∈ merged.2, property contributor.place) (fun _ _ => trivial)
      (List.forall_mem_nil _) fun merged known sighting isRegistered _ => ?_).mono (fun _ => id) ?_
    · -- a step can do no more to the contributors than to append the one it sights
      have joins (contributed : Bool) : ∀ contributor ∈
          (if contributed then appendNew merged.2 sighting.contributor else merged.2),
          property contributor.place := by
        intro contributor isContributor
        split at isContributor
        next =>
          rcases mem_of_mem_appendNew isContributor with isKnown | rfl
          · exact known contributor isKnown
          · exact ofOccurrences _ isRegistered
        next => exact known contributor isContributor
      simp only [MergeTarget.mergeSighting]
      split <;>
        exact Yields.bind (.of_forall fun _ _ => trivial) fun merged (_ : True) => joins merged.2
    · rintro _ ⟨additions, contributors, rfl, known⟩
      exact known
  rw [run] at yields
  exact yields

end Runs

end ResponseShape
