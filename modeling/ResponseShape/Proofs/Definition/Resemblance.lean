import ResponseShape.Proofs.Definition.Distinctness
import ResponseShape.Proofs.Workspace.Invariant

/-!
# Builds of one definition resemble each other

A definition can be built more than once: a build that fails leaves behind what it registered, and
is tried again. Two builds may allocate entities in different states of the table, and need not nest
equally deep, but they select the same. Trees that depict the same selections in the same scope have
the same fields, branches and spreads, one by one, and what is below and behind these depicts the
same, too (`Depicts.isTwin`). So whatever occurs in one build of a definition occurs in every other
(`RootField.IsBuilt.exists_like`).
-/

namespace ResponseShape

/-- Whether two places have the same location and the same scopes. -/
structure Place.IsLike (place other : Place) : Prop where
  location : other.entity.location = place.entity.location
  enclosing : other.enclosing = place.enclosing
  scope : other.scope = place.scope

/-- Whether two trees select the same fields, branches and spreads, one by one. -/
structure SelectionTree.Resembles (tree other : SelectionTree) : Prop where
  fields : other.fields.map (·.summary) = tree.fields.map (·.summary)
  branches : other.branches.map (·.key) = tree.branches.map (·.key)
  spreads : other.spreads.map (·.name) = tree.spreads.map (·.name)

/-- Whether two occurrences select the same at like places. -/
structure Occurrence.IsLike (occurrence other : Occurrence) : Prop where
  place : occurrence.place.IsLike other.place
  selections : occurrence.selections.Resembles other.selections
  fragment : other.fragment = occurrence.fragment

theorem SelectionTree.Resembles.refl (tree : SelectionTree) : tree.Resembles tree := ⟨rfl, rfl, rfl⟩

section Trees

variable {tree other : SelectionTree}

theorem SelectionTree.Resembles.exists_field {field : Field} (resembles : tree.Resembles other)
    (mem : field ∈ tree.fields) : ∃ twin ∈ other.fields, twin.summary = field.summary := by
  have isSummary := List.mem_map_of_mem (f := (·.summary)) mem
  rw [← resembles.fields] at isSummary
  exact List.mem_map.mp isSummary

theorem SelectionTree.Resembles.exists_spread {spread : Spread} (resembles : tree.Resembles other)
    (mem : spread ∈ tree.spreads) : ∃ twin ∈ other.spreads, twin.name = spread.name := by
  have isName := List.mem_map_of_mem (f := (·.name)) mem
  rw [← resembles.spreads] at isName
  exact List.mem_map.mp isName

theorem SelectionTree.isEmpty_iff : tree.isEmpty = true ↔
    tree.fields.map (·.summary) = [] ∧ tree.branches.map (·.key) = []
      ∧ tree.spreads.map (·.name) = [] := by
  rcases tree with ⟨fields, branches, spreads⟩
  simp [SelectionTree.isEmpty, SelectionTree.fields, SelectionTree.branches, SelectionTree.spreads,
    and_assoc]

theorem SelectionTree.Resembles.isEmpty_eq (resembles : tree.Resembles other) :
    other.isEmpty = tree.isEmpty := by
  rw [Bool.eq_iff_iff, isEmpty_iff, isEmpty_iff, resembles.fields, resembles.branches,
    resembles.spreads]

end Trees

section Twins

variable (project : Project) (levels otherLevels : Nat) (place other : Place)

/-- How a tree and its twin stand to each other that are below or behind twin parts of the trees at
two places: they depict the same selections in one scope, and lie within the same scopes if the
trees around them do. -/
structure DepictTwins (child : Place) (tree : SelectionTree) (twin : Place)
    (twinTree : SelectionTree) : Prop where
  depict : ∃ selections, Depicts project levels child selections tree
    ∧ Depicts project otherLevels twin selections twinTree
  scope : twin.scope = child.scope
  enclosing : other.enclosing = place.enclosing → twin.enclosing = child.enclosing

/-- Whether two fields are the same, with twins below them. -/
inductive TreeField.IsTwin : TreeField → TreeField → Prop where
  | scalar {summary : FieldSummary} : IsTwin (.scalar summary) (.scalar summary)
  | entity {summary : FieldSummary} {child twin : Place} {tree twinTree : SelectionTree}
      (below : DepictTwins project levels otherLevels place other child tree twin twinTree) :
      IsTwin (.entity summary child tree) (.entity summary twin twinTree)

/-- Whether two branches are the same, with twins behind them. -/
inductive TreeBranch.IsTwin : TreeBranch → TreeBranch → Prop where
  | mk {key : Narrowing} {child twin : Place} {tree twinTree : SelectionTree}
      (entity : child.entity = place.entity) (twinEntity : twin.entity = other.entity)
      (behind : DepictTwins project levels otherLevels place other child tree twin twinTree) :
      IsTwin (.mk key child tree) (.mk key twin twinTree)

/-- Whether two trees have twin parts, one by one. -/
inductive SelectionTree.IsTwin : SelectionTree → SelectionTree → Prop where
  | mk {fields otherFields : List TreeField} {branches otherBranches : List TreeBranch}
      {spreads otherSpreads : List Spread}
      (ofFields : List.Forall₂ (TreeField.IsTwin project levels otherLevels place other)
        fields otherFields)
      (ofBranches : List.Forall₂ (TreeBranch.IsTwin project levels otherLevels place other)
        branches otherBranches)
      (ofSpreads : List.Forall₂ (fun spread twin => twin.name = spread.name)
        spreads otherSpreads) :
      IsTwin (.mk fields branches spreads) (.mk otherFields otherBranches otherSpreads)

end Twins

section Depictions

variable {project : Project} {levels otherLevels : Nat} {place other : Place}
  {selections : List Selection} {tree otherTree : SelectionTree} {gathered : GatheredField}
  {behind : Narrowing × List Selection}

theorem SelectionTree.IsTwin.resembles
    (isTwin : SelectionTree.IsTwin project levels otherLevels place other tree otherTree) :
    tree.Resembles otherTree := by
  rcases isTwin with ⟨ofFields, ofBranches, ofSpreads⟩
  constructor
  · simp only [SelectionTree.fields, List.map_map]
    refine (map_eq_of_forall₂ (ofFields.imp fun field twin isTwin => ?_)).symm
    cases isTwin <;> rfl
  · simp only [SelectionTree.branches, List.map_map]
    refine (map_eq_of_forall₂ (ofBranches.imp fun branch twin isTwin => ?_)).symm
    cases isTwin
    rfl
  · exact (map_eq_of_forall₂ (ofSpreads.imp fun _ _ same => same.symm)).symm

/-- What depicts a field in trees of one scope is twin. -/
theorem DepictsField.isTwin {field twin : TreeField} (sameScope : other.scope = place.scope)
    (depicts : DepictsField project (Depicts project levels) place gathered field)
    (twinDepicts : DepictsField project (Depicts project otherLevels) other gathered twin) :
    TreeField.IsTwin project levels otherLevels place other field twin := by
  cases depicts with
  | scalar isLeaf =>
      cases twinDepicts with
      | scalar => exact .scalar
      | entity isComposite =>
          rw [isComposite] at isLeaf
          cases isLeaf
  | entity isComposite isChild below =>
      cases twinDepicts with
      | scalar isLeaf =>
          rw [isComposite] at isLeaf
          cases isLeaf
      | entity _ isTwin twinBelow =>
          refine .entity ⟨⟨_, below, twinBelow⟩, ?_, fun sameEnclosing => ?_⟩
          · exact Except.ok.inj (isTwin.scope.symm.trans isChild.scope)
          · rw [isTwin.enclosing, isChild.enclosing, Place.scopes, Place.scopes, sameEnclosing,
              sameScope]

/-- What becomes of a branch in trees of one scope is twin: as the trees behind it resemble each
other, both are empty or neither is. -/
theorem DepictsBranch.isTwin {outcome twin : Option TreeBranch}
    (sameScope : other.scope = place.scope)
    (resemble : ∀ child otherChild selections tree otherTree,
      Depicts project levels child selections tree →
      Depicts project otherLevels otherChild selections otherTree →
      otherChild.scope = child.scope → tree.Resembles otherTree)
    (depicts : DepictsBranch project (Depicts project levels) place behind outcome)
    (twinDepicts : DepictsBranch project (Depicts project otherLevels) other behind twin) :
    Option.Rel (TreeBranch.IsTwin project levels otherLevels place other) outcome twin := by
  have sameChild {child otherChild : Place}
      (narrowed : place.narrowed project.schema behind.1 = .ok child)
      (otherNarrowed : other.narrowed project.schema behind.1 = .ok otherChild) :
      otherChild.scope = child.scope := by
    have inOther := (Place.narrowed_eq_ok otherNarrowed).1
    rw [sameScope, (Place.narrowed_eq_ok narrowed).1] at inOther
    exact (Except.ok.inj inOther).symm
  cases depicts with
  | kept narrowed inside nonempty =>
      rcases Place.narrowed_eq_ok narrowed with ⟨-, sameEntity, inEnclosing⟩
      cases twinDepicts with
      | kept twinNarrowed twinInside =>
          rcases Place.narrowed_eq_ok twinNarrowed with ⟨-, twinEntity, twinEnclosing⟩
          refine .some (.mk sameEntity twinEntity ⟨⟨_, inside, twinInside⟩,
            sameChild narrowed twinNarrowed, fun sameEnclosing => ?_⟩)
          rw [twinEnclosing, inEnclosing, sameEnclosing]
      | dropped twinNarrowed twinInside empty =>
          have resembles := resemble _ _ _ _ _ inside twinInside (sameChild narrowed twinNarrowed)
          rw [resembles.isEmpty_eq, nonempty] at empty
          cases empty
  | dropped narrowed inside empty =>
      cases twinDepicts with
      | kept twinNarrowed twinInside nonempty =>
          have resembles := resemble _ _ _ _ _ inside twinInside (sameChild narrowed twinNarrowed)
          rw [resembles.isEmpty_eq, empty] at nonempty
          cases nonempty
      | dropped => exact .none

/-- Parts that depict the same selections in one scope are twins. -/
theorem DepictsParts.isTwin {first second : Gathered} {fields otherFields : List TreeField}
    {branches otherBranches : List TreeBranch} {spreads otherSpreads : List Spread}
    (parts : DepictsParts project (Depicts project levels) levels place selections first
      fields branches spreads)
    (otherParts : DepictsParts project (Depicts project otherLevels) otherLevels other selections
      second otherFields otherBranches otherSpreads)
    (sameScope : other.scope = place.scope)
    (resemble : ∀ child otherChild selections tree otherTree,
      Depicts project levels child selections tree →
      Depicts project otherLevels otherChild selections otherTree →
      otherChild.scope = child.scope → tree.Resembles otherTree) :
    SelectionTree.IsTwin project levels otherLevels place other (.mk fields branches spreads)
      (.mk otherFields otherBranches otherSpreads) := by
  have gathers := otherParts.gathers
  rw [sameScope] at gathers
  rcases Gathered.gatherAll_eq parts.gathers gathers with rfl
  constructor
  · exact forall₂_of_common parts.fields otherParts.fields fun _ _ _ =>
      DepictsField.isTwin sameScope
  · rcases parts.branches with ⟨outcomes, pairs, rfl⟩
    rcases otherParts.branches with ⟨otherOutcomes, otherPairs, rfl⟩
    exact forall₂_filterMap (forall₂_of_common pairs otherPairs fun _ _ _ =>
      DepictsBranch.isTwin sameScope resemble)
  · rw [parts.spreads, otherParts.spreads, List.forall₂_map_left_iff, List.forall₂_map_right_iff,
      List.forall₂_same]
    exact fun _ _ => rfl

/-- Trees that depict the same selections in one scope select the same. -/
theorem Depicts.resembles (depicts : Depicts project levels place selections tree)
    (otherDepicts : Depicts project otherLevels other selections otherTree)
    (sameScope : other.scope = place.scope) : tree.Resembles otherTree := by
  induction levels generalizing otherLevels place other selections tree otherTree with
  | zero => cases depicts
  | succ levels ih =>
      cases otherLevels with
      | zero => cases otherDepicts
      | succ otherLevels =>
          rcases tree with ⟨fields, branches, spreads⟩
          rcases otherTree with ⟨otherFields, otherBranches, otherSpreads⟩
          rcases depicts with ⟨gathered, parts⟩
          rcases otherDepicts with ⟨otherGathered, otherParts⟩
          exact (parts.isTwin otherParts sameScope fun _ _ _ _ _ => ih).resembles

/-- So they are twins, part by part. -/
theorem Depicts.isTwin (depicts : Depicts project (levels + 1) place selections tree)
    (otherDepicts : Depicts project (otherLevels + 1) other selections otherTree)
    (sameScope : other.scope = place.scope) :
    SelectionTree.IsTwin project levels otherLevels place other tree otherTree := by
  rcases tree with ⟨fields, branches, spreads⟩
  rcases otherTree with ⟨otherFields, otherBranches, otherSpreads⟩
  rcases depicts with ⟨gathered, parts⟩
  rcases otherDepicts with ⟨otherGathered, otherParts⟩
  exact parts.isTwin otherParts sameScope fun _ _ _ _ _ => Depicts.resembles

/-- What is written in a tree is written in each that depicts the same selections at a like
place. -/
theorem Depicts.exists_like (depicts : Depicts project levels place selections tree)
    (otherDepicts : Depicts project otherLevels other selections otherTree)
    (located : tree.IsLocated place) (otherLocated : otherTree.IsLocated other)
    (like : place.IsLike other) : ∀ member ∈ tree.writtenSets place,
      ∃ twin ∈ otherTree.writtenSets other,
        member.1.IsLike twin.1 ∧ member.2.Resembles twin.2 := by
  induction levels generalizing otherLevels place other selections tree otherTree with
  | zero => cases depicts
  | succ levels ih =>
      cases otherLevels with
      | zero => cases otherDepicts
      | succ otherLevels =>
          intro member mem
          have isTwin := depicts.isTwin otherDepicts like.scope
          have resembles := isTwin.resembles
          rcases isTwin with ⟨ofFields, ofBranches, -⟩
          -- What is written in a part is written in its twin, the places of the parts being alike.
          have inTwin {child twin : Place} {inner twinInner : SelectionTree}
              (both : DepictTwins project levels otherLevels place other child inner twin twinInner)
              (location : twin.entity.location = child.entity.location)
              (innerLocated : inner.IsLocated child) (twinLocated : twinInner.IsLocated twin)
              (inside : member ∈ inner.writtenSets child) :
              ∃ partner ∈ twinInner.writtenSets twin,
                member.1.IsLike partner.1 ∧ member.2.Resembles partner.2 := by
            rcases both.depict with ⟨_, innerDepicts, twinDepicts⟩
            exact ih innerDepicts twinDepicts innerLocated twinLocated
              ⟨location, both.enclosing like.enclosing, both.scope⟩ member inside
          rcases SelectionTree.mem_writtenSets.mp mem with
            rfl | ⟨summary, child, inner, fieldMem, inside⟩ | ⟨key, child, inner, branchMem, inside⟩
          · exact ⟨_, SelectionTree.self_mem_writtenSets _ _, like, resembles⟩
          · rcases exists_mem_of_forall₂ ofFields fieldMem with ⟨_, twinMem, _ | below⟩
            rcases located.of_field fieldMem with ⟨location, innerLocated⟩
            rcases otherLocated.of_field twinMem with ⟨twinLocation, twinLocated⟩
            rw [like.location, ← location] at twinLocation
            rcases inTwin below twinLocation innerLocated twinLocated inside with
              ⟨partner, partnerMem, rest⟩
            exact ⟨partner, SelectionTree.mem_writtenSets.mpr
              (Or.inr (Or.inl ⟨_, _, _, twinMem, partnerMem⟩)), rest⟩
          · rcases exists_mem_of_forall₂ ofBranches branchMem with
              ⟨_, twinMem, ⟨entity, twinEntity, behind⟩⟩
            have location := like.location
            rw [← twinEntity, ← entity] at location
            rcases inTwin behind location (located.of_branch branchMem)
              (otherLocated.of_branch twinMem) inside with ⟨partner, partnerMem, rest⟩
            exact ⟨partner, SelectionTree.mem_writtenSets.mpr
              (Or.inr (Or.inr ⟨_, _, _, twinMem, partnerMem⟩)), rest⟩

end Depictions

section Definitions

variable {project : Project} {shape? : Name → Option FragmentShape} {definition : DefinitionId}
  {type : Name} {selections : List Selection} {root other : RootField}
  {occurrences others : List Occurrence}

/-- What is written in one build of a definition is written in every other. -/
theorem RootField.IsDepiction.exists_like
    (depiction : root.IsDepiction project definition type selections)
    (otherDepiction : other.IsDepiction project definition type selections) :
    ∀ member ∈ root.writtenSets, ∃ twin ∈ other.writtenSets,
      member.1.IsLike twin.1 ∧ member.2.Resembles twin.2 := by
  rcases depiction.depicts with ⟨levels, depicts⟩
  rcases otherDepiction.depicts with ⟨otherLevels, otherDepicts⟩
  apply depicts.exists_like otherDepicts depiction.located otherDepiction.located
  constructor
  · rw [otherDepiction.location, depiction.location]
  · rw [otherDepiction.enclosing, depiction.enclosing]
  · exact Except.ok.inj (otherDepiction.scope.symm.trans depiction.scope)

theorem Build.isLike_placeAt {site otherSite inside place otherPlace : Place} {scope : Scope}
    (like : site.IsLike otherSite)
    (isPlaced : place = Build.placeAt site inside place.entity scope)
    (isOtherPlaced : otherPlace = Build.placeAt otherSite inside otherPlace.entity scope)
    (location : otherPlace.entity.location = place.entity.location) :
    place.IsLike otherPlace := by
  refine ⟨location, ?_, ?_⟩ <;>
    · rw [isPlaced, isOtherPlaced]
      simp only [Build.placeAt, like.enclosing]
      cases inside.enclosing <;> rfl

/-- What occurs in one build of a definition occurs in every other. -/
theorem RootField.IsBuilt.exists_like
    (built : root.IsBuilt project shape? definition type selections occurrences)
    (otherBuilt : other.IsBuilt project shape? definition type selections others) :
    ∀ occurrence ∈ occurrences, ∃ twin ∈ others, occurrence.IsLike twin := by
  intro occurrence mem
  rcases built.occurs.origin occurrence mem with ⟨member, memberMem, origin⟩
  rcases built.depiction.exists_like otherBuilt.depiction member memberMem with
    ⟨twin, twinMem, like, resembles⟩
  rcases origin with rfl | ⟨spread, spreadMem, shape, fragment, isShape, isFragment, inside,
    insideMem, placement⟩
  · exact ⟨_, otherBuilt.occurs.written twin twinMem, like, resembles, rfl⟩
  · rcases resembles.exists_spread spreadMem with ⟨otherSpread, otherMem, sameName⟩
    have atSite := built.depiction.place_of_spread memberMem spreadMem
    have atOtherSite := otherBuilt.depiction.place_of_spread twinMem otherMem
    rcases otherBuilt.occurs.spreads twin twinMem otherSpread otherMem with
      ⟨otherShape, otherFragment, isOtherShape, isOtherFragment, places⟩
    rw [sameName, isShape, Option.some.injEq] at isOtherShape
    rw [sameName, isFragment, Option.some.injEq] at isOtherFragment
    subst isOtherShape isOtherFragment
    rcases placement.place with ⟨scope, spreads, isPlaced⟩
    rcases places inside insideMem with ⟨narrowed, isNarrowed, ofNarrowed⟩
    rw [atOtherSite, like.scope, ← atSite, spreads, Except.ok.injEq] at isNarrowed
    subst isNarrowed
    rcases ofNarrowed rfl with ⟨outside, outsideMem, otherPlacement⟩
    rcases otherPlacement.place with ⟨otherScope, otherSpreads, isOtherPlaced⟩
    rw [atOtherSite, like.scope, ← atSite, spreads, Except.ok.injEq, Option.some.injEq]
      at otherSpreads
    subst otherSpreads
    refine ⟨outside, outsideMem, ?_, ?_, ?_⟩
    · rw [atSite] at isPlaced
      rw [atOtherSite] at isOtherPlaced
      refine Build.isLike_placeAt like isPlaced isOtherPlaced ?_
      rw [otherPlacement.location, placement.location, atSite, atOtherSite, Location.joined,
        Location.joined, like.location]
    · rw [otherPlacement.selections, placement.selections]
      exact .refl _
    · rw [otherPlacement.fragment, placement.fragment, sameName]

end Definitions

end ResponseShape
