import ResponseShape.Proofs.Merging.Aliases
import ResponseShape.Proofs.Outcomes

/-!
# Merging side by side

Two merges of the same sightings keep a relation between what they have added if each field, spread
and branch keeps it and counts as a contribution in both or in neither
(`MergeTarget.matches_mergeSelections`, `MergeTarget.matches_mergeSighting`).
-/

namespace ResponseShape.MergeTarget

variable {target other : MergeTarget} {states : Additions → Additions → Prop}
  {own whole next : Additions} {tree : SelectionTree} {sighting : Sighting}
  {sightings : List Sighting} {contributors later : List Contributor}

/-- Whether two merges have related additions, and agree on whether something contributed. -/
def Pairs (states : Additions → Additions → Prop) (own whole : Additions × Bool) : Prop :=
  own.2 = whole.2 ∧ states own.1 whole.1

/-- Selections are merged side by side if their fields and spreads are. -/
theorem matches_mergeSelections
    (ofFields : ∀ own whole, states own whole → ∀ field ∈ tree.fields,
      Matches (Pairs states) (target.mergeField own field) (other.mergeField whole field))
    (ofSpreads : ∀ own whole spread, states own whole →
      Pairs states (target.mergeSpread own spread) (other.mergeSpread whole spread))
    (begins : states own whole) :
    Matches (Pairs states) (target.mergeSelections own tree)
      (other.mergeSelections whole tree) := by
  simp only [mergeSelections]
  refine @Matches.bind _ _ _ _ _ (Pairs states) _ _ _ _ _ ?_ ?_
  · have same : List.Forall₂ (fun field mate => field = mate ∧ field ∈ tree.fields) tree.fields
        tree.fields := List.forall₂_same.mpr fun _ mem => ⟨rfl, mem⟩
    refine Matches.foldlM same ⟨rfl, begins⟩ ?_
    rintro ⟨before, contributed⟩ ⟨shown, _⟩ field _ ⟨rfl, related⟩ ⟨rfl, mem⟩
    refine (ofFields before shown related field mem).bind ?_
    rintro ⟨after, isNew⟩ ⟨_, _⟩ ⟨rfl, related⟩
    exact .ok ⟨rfl, related⟩
  · rintro before shown related
    refine .ok ?_
    induction tree.spreads generalizing before shown with
    | nil => exact related
    | cons spread rest ih =>
        rcases related with ⟨same, related⟩
        rcases ofSpreads _ _ spread related with ⟨alsoSame, after⟩
        exact ih _ _ ⟨congrArg₂ (· || ·) same alsoSame, after⟩

/-- Merges what a sighting contributes. -/
def mergeContribution (target : MergeTarget) (additions : Additions) (sighting : Sighting) :
    Except BuildError (Additions × Bool) :=
  match sighting.contribution with
  | .selections => target.mergeSelections additions sighting.occurrence.selections
  | .branch narrowing => target.mergeBranch additions narrowing

theorem mergeSighting_eq : target.mergeSighting (whole, contributors) sighting
    = (target.mergeContribution whole sighting).map fun merged =>
        (merged.1, if merged.2 then appendNew contributors sighting.contributor
          else contributors) := by
  simp only [mergeSighting, mergeContribution, bind, Except.bind, pure, Except.pure]
  cases sighting.contribution with
  | selections =>
      dsimp only
      cases target.mergeSelections whole sighting.occurrence.selections <;> rfl
  | branch narrowing =>
      dsimp only
      cases target.mergeBranch whole narrowing <;> rfl

theorem mergeSighting_eq_ok
    (run : target.mergeSighting (whole, contributors) sighting = .ok (next, later)) :
    ∃ contributed, target.mergeContribution whole sighting = .ok (next, contributed)
      ∧ later = if contributed then appendNew contributors sighting.contributor
        else contributors := by
  rw [mergeSighting_eq] at run
  cases merged : target.mergeContribution whole sighting with
  | error error => simp [merged, Except.map] at run
  | ok result =>
      rw [merged] at run
      rcases Prod.mk.inj (Except.ok.inj run) with ⟨rfl, rfl⟩
      exact ⟨result.2, rfl, rfl⟩

/-- Whether two merges have related additions and the same contributors. -/
def Keeps (states : Additions → Additions → Prop) (own whole : Additions × List Contributor) :
    Prop :=
  own.2 = whole.2 ∧ states own.1 whole.1

/-- A sighting is merged side by side if what it contributes is. -/
theorem matches_mergeSighting
    (contribution : Matches (Pairs states) (target.mergeContribution own sighting)
      (other.mergeContribution whole sighting)) :
    Matches (Keeps states) (target.mergeSighting (own, contributors) sighting)
      (other.mergeSighting (whole, contributors) sighting) := by
  rw [mergeSighting_eq, mergeSighting_eq]
  refine contribution.map ?_
  rintro ⟨before, contributed⟩ ⟨shown, _⟩ ⟨rfl, related⟩
  exact ⟨rfl, related⟩

end ResponseShape.MergeTarget
