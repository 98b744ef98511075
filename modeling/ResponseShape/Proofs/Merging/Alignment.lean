import ResponseShape.Proofs.Merging.Conflicts
import ResponseShape.Proofs.Workspace.Persistence

/-!
# Merging into aligned places

In an aligned workspace merging breaks no invariant: it finds the entity of each field that it adds,
and narrows scopes only by what they admit, because a place branches by nothing else
(`Place.admits_of_view?`). All that is visible then stands at aligned places with the
entities that the table holds (`SelectionSet.yields_hasPlaces`).
-/

namespace ResponseShape

/-- Whether a place is aligned, and has the very entity that the table holds at its location. -/
structure Workspace.HasPlace (project : Project) (workspace : Workspace) (place : Place) :
    Prop where
  aligned : place.IsAligned project
  entity : workspace.entities.entity? place.entity.location = some place.entity

/-- Whether a workspace has all places of what was added. -/
structure Additions.ArePlaced (project : Project) (workspace : Workspace) (additions : Additions) :
    Prop where
  widened : ∀ field ∈ additions.widened, ∀ place ∈ field.places, workspace.HasPlace project place
  fields : ∀ field ∈ additions.fields, ∀ place ∈ field.places, workspace.HasPlace project place
  branches : ∀ branch ∈ additions.branches, ∀ place ∈ branch.selectionSet.places,
    workspace.HasPlace project place
  spreads : ∀ spread ∈ additions.spreads, workspace.HasPlace project spread.place

/-- What holds for all places in a set holds for those of what is written there. -/
theorem SelectionSet.forall_mem_places_of_direct {set : SelectionSet} {property : Place → Prop}
    (all : ∀ other ∈ set.places, property other) :
    (∀ field ∈ set.directFields, ∀ other ∈ field.places, property other)
      ∧ (∀ branch ∈ set.directBranches, ∀ other ∈ branch.selectionSet.places, property other)
      ∧ ∀ spread ∈ set.directSpreads, property spread.place := by
  simp only [directFields, directBranches, directSpreads]
  cases isDirect : set.direct with
  | none => simp
  | some tree =>
      simp only [places, isDirect] at all
      exact SelectionTree.forall_mem_places_of_parts all

section Places

variable {project : Project} {workspace later : Workspace} {place : Place} {root : RootField}
  {location : Location} {occurrence : Occurrence}

theorem Workspace.HasPlace.mono (hasPlace : workspace.HasPlace project place)
    (preserves : workspace.Preserves later) : later.HasPlace project place :=
  ⟨hasPlace.aligned, preserves.entities _ _ hasPlace.entity⟩

theorem Workspace.IsAligned.hasPlace_of_hasRoot (aligned : workspace.IsAligned project)
    (hasRoot : workspace.HasRoot root) : ∀ place ∈ root.places, workspace.HasPlace project place :=
  fun place mem =>
    ⟨aligned.roots root hasRoot place mem, aligned.entity?_of_hasRoot hasRoot place mem⟩

/-- The places in all that is written in a built definition are in the workspace. -/
theorem Workspace.IsAligned.hasPlace_of_written (aligned : workspace.IsAligned project)
    (hasRoot : workspace.HasRoot root) {member : Place × SelectionTree}
    (mem : member ∈ root.writtenSets) :
    ∀ place ∈ member.2.places member.1, workspace.HasPlace project place := by
  intro place placeMem
  refine aligned.hasPlace_of_hasRoot hasRoot place ?_
  rcases aligned.sound.hasBuilt hasRoot with ⟨_, _, _, _, hasBuilt⟩
  rcases hasBuilt.built.depiction.depicts with ⟨_, depicts⟩
  rcases SelectionTree.mem_places.mp placeMem with ⟨inner, innerMem, isInner⟩
  exact SelectionTree.mem_places.mpr ⟨inner, depicts.subset_writtenSets mem _ innerMem, isInner⟩

theorem Workspace.IsAligned.hasPlace_of_registered (aligned : workspace.IsAligned project)
    (mem : occurrence ∈ workspace.entities.occurrences location) :
    ∀ place ∈ occurrence.places, workspace.HasPlace project place :=
  fun place placeMem => ⟨aligned.registered location occurrence mem place placeMem,
    aligned.entity?_of_mem_places mem place placeMem⟩

end Places

namespace MergeTarget

variable {project : Project} {workspace : Workspace} {set : SelectionSet} {additions : Additions}
  {field existing : Field} {incoming : Option Alternatives}

theorem arePlaced_empty : Additions.ArePlaced project workspace .empty := by
  constructor <;> intro _ mem <;> cases mem

theorem hasPlace_of_widened? (placed : additions.ArePlaced project workspace)
    (ofDirect : ∀ place ∈ field.places, workspace.HasPlace project place) :
    ∀ place ∈ ((additions.widened? field.responseKey).getD field).places,
      workspace.HasPlace project place := by
  cases isWidened : additions.widened? field.responseKey with
  | none => exact ofDirect
  | some known => exact placed.widened known (List.mem_of_find?_eq_some isWidened)

theorem arePlaced_widen (placed : additions.ArePlaced project workspace)
    (ofDirect : ∀ place ∈ field.places, workspace.HasPlace project place) :
    (widen additions field incoming).1.ArePlaced project workspace := by
  have current := hasPlace_of_widened? placed ofDirect
  simp only [widen]
  split
  next => exact placed
  next =>
    split
    next => exact placed
    next => exact { placed with
        widened := forall_mem_updateOrAppend placed.widened current fun _ _ => current }

theorem arePlaced_unite (placed : additions.ArePlaced project workspace)
    (mem : existing ∈ additions.fields) :
    (unite additions existing incoming).ArePlaced project workspace :=
  { placed with
    fields := forall_mem_updateOrAppend placed.fields (placed.fields existing mem) fun _ => id }

theorem arePlaced_mergeSpread {target : MergeTarget} {spread : Spread}
    (placed : additions.ArePlaced project workspace)
    (isPlaced : workspace.HasPlace project spread.place) :
    (target.mergeSpread additions spread).1.ArePlaced project workspace := by
  simp only [mergeSpread]
  split
  next => exact placed
  next => exact { placed with
      spreads := List.forall_mem_append.mpr
        ⟨placed.spreads, List.forall_mem_singleton.mpr isPlaced⟩ }

theorem sparesInternal_ensureSame {target : MergeTarget} :
    SparesInternal (target.ensureSame existing field) := by
  simp only [ensureSame]
  split
  next => trivial
  next => rfl

section Fields

variable (aligned : workspace.IsAligned project)
  (placed : workspace.HasPlace project set.place)
  (reaches : (set.mergeTarget project.schema workspace.entities).Reaches field)

include aligned placed reaches

/-- A field is adopted below the place, where its entity is. -/
theorem yields_adopted (conditions : Option Alternatives) :
    Yields (fun error => error.isInternal = false)
      (fun fresh => ∀ place ∈ fresh.places, workspace.HasPlace project place)
      ((set.mergeTarget project.schema workspace.entities).adopted field conditions) := by
  simp only [adopted]
  split
  next => exact fun place mem => by cases mem
  next inner isInner =>
    rcases reaches (by rw [isInner]; rfl) with ⟨entity, found, -⟩
    rw [found]
    refine Yields.bind (Place.blamesInput_below _ _).sparesInternal.remember
      fun child isBelow => ?_
    have isHere := aligned.entities _ entity found
    have sameEntity : child.entity = entity := by
      simp only [Place.below, Except.map] at isBelow
      split at isBelow
      next => cases isBelow
      next => rw [← Except.ok.inj isBelow]
    have isAligned : child.IsAligned project := placed.aligned.below (isHere ▸ isBelow)
    intro place mem
    rw [List.mem_singleton.mp mem]
    refine ⟨isAligned, ?_⟩
    rw [sameEntity, aligned.sound.entities.location_of_entity? found]
    exact found

theorem yields_mergeField_places (arePlaced : additions.ArePlaced project workspace)
    (ofDirect : ∀ direct ∈ set.directFields, ∀ place ∈ direct.places,
      workspace.HasPlace project place) :
    Yields (fun error => error.isInternal = false)
      (fun merged => merged.1.ArePlaced project workspace)
      ((set.mergeTarget project.schema workspace.entities).mergeField additions field) := by
  simp only [mergeField]
  split
  next => exact arePlaced
  next =>
    split
    next direct isDirect =>
      refine sparesInternal_ensureSame.bind fun _ _ => ?_
      rcases Option.bind_eq_some_iff.mp isDirect with ⟨tree, isTree, found⟩
      have mem := SelectionSet.mem_directFields.mpr ⟨tree, isTree, List.mem_of_find?_eq_some found⟩
      exact arePlaced_widen arePlaced (ofDirect direct mem)
    next =>
      split
      next existing isAdded =>
        refine sparesInternal_ensureSame.bind fun _ _ => ?_
        exact arePlaced_unite arePlaced (List.mem_of_find?_eq_some isAdded)
      next =>
        refine (yields_adopted aligned placed reaches _).bind fun fresh ofFresh => ?_
        exact { arePlaced with
          fields := List.forall_mem_append.mpr
            ⟨arePlaced.fields, List.forall_mem_singleton.mpr ofFresh⟩ }

end Fields

section Sets

variable {tree : SelectionTree} (aligned : workspace.IsAligned project)
  (placedSet : ∀ place ∈ set.places, workspace.HasPlace project place)

include aligned placedSet

theorem yields_mergeSelections_places (arePlaced : additions.ArePlaced project workspace)
    (reaches : ∀ field ∈ tree.fields,
      (set.mergeTarget project.schema workspace.entities).Reaches field)
    (ofSpreads : ∀ spread ∈ tree.spreads, workspace.HasPlace project spread.place) :
    Yields (fun error => error.isInternal = false)
      (fun merged => merged.1.ArePlaced project workspace)
      ((set.mergeTarget project.schema workspace.entities).mergeSelections additions tree) := by
  have ofDirect := (SelectionSet.forall_mem_places_of_direct placedSet).1
  exact yields_mergeSelections_of_steps arePlaced
    (fun _ before field mem => yields_mergeField_places aligned (placedSet _ set.self_mem_places)
      (reaches field mem) before ofDirect)
    fun _ before spread mem => arePlaced_mergeSpread before (ofSpreads spread mem)

omit aligned in
/-- A branch is added within the place if the place's scope admits it. -/
theorem yields_mergeBranch_places {key : Narrowing}
    (arePlaced : additions.ArePlaced project workspace)
    (admits : set.place.scope.admits key = true) :
    Yields (fun error => error.isInternal = false)
      (fun merged => merged.1.ArePlaced project workspace)
      ((set.mergeTarget project.schema workspace.entities).mergeBranch additions key) := by
  simp only [mergeBranch]
  split
  next => exact arePlaced
  next =>
    refine Yields.bind (Place.blamesInput_narrowed admits).sparesInternal.remember
      fun child narrowed => ?_
    have here := placedSet _ set.self_mem_places
    have isPlaced : workspace.HasPlace project child := by
      refine ⟨here.aligned.narrowed narrowed, ?_⟩
      rw [(Place.narrowed_eq_ok narrowed).2.1]
      exact here.entity
    exact { arePlaced with
      branches := List.forall_mem_append.mpr
        ⟨arePlaced.branches, List.forall_mem_singleton.mpr
          (List.forall_mem_singleton.mpr isPlaced)⟩ }

theorem yields_mergeSighting_places {contributors : List Contributor} {sighting : Sighting}
    (arePlaced : additions.ArePlaced project workspace)
    (known : ∀ contributor ∈ contributors, workspace.HasPlace project contributor.place)
    (isRegistered : sighting.occurrence
      ∈ workspace.entities.occurrences set.place.entity.location)
    (admits : ∀ key, sighting.contribution = .branch key → set.place.scope.admits key = true) :
    Yields (fun error => error.isInternal = false)
      (fun merged => merged.1.ArePlaced project workspace
        ∧ ∀ contributor ∈ merged.2, workspace.HasPlace project contributor.place)
      ((set.mergeTarget project.schema workspace.entities).mergeSighting (additions, contributors)
        sighting) := by
  have ofOccurrence := aligned.hasPlace_of_registered isRegistered
  -- an occurrence joins the contributors at most
  have joins (contributed : Bool) : ∀ contributor ∈
      (if contributed then appendNew contributors sighting.contributor else contributors),
      workspace.HasPlace project contributor.place := by
    intro contributor mem
    cases contributed with
    | false => exact known contributor mem
    | true =>
        rcases mem_of_mem_appendNew mem with isKnown | rfl
        · exact known contributor isKnown
        · exact ofOccurrence _ (SelectionTree.self_mem_places _ _)
  simp only [mergeSighting]
  split
  next =>
    refine (yields_mergeSelections_places aligned placedSet arePlaced
      (fun field mem => aligned.reaches isRegistered mem rfl _)
      (SelectionTree.forall_mem_places_of_parts ofOccurrence).2.2).bind fun merged next => ?_
    exact ⟨next, joins merged.2⟩
  next key isKey =>
    refine (yields_mergeBranch_places placedSet arePlaced (admits key isKey)).bind
      fun merged next => ?_
    exact ⟨next, joins merged.2⟩

end Sets

end MergeTarget

section Views

variable {project : Project} {workspace : Workspace} {set : SelectionSet}
  {strategy : MergingStrategy}

theorem Additions.ArePlaced.forall_mem_places {additions : Additions}
    {contributors : List Contributor} (arePlaced : additions.ArePlaced project workspace)
    (placedSet : ∀ place ∈ set.places, workspace.HasPlace project place)
    (ofContributors : ∀ contributor ∈ contributors, workspace.HasPlace project contributor.place) :
    ∀ place ∈ (VisibleSelections.mk set.place strategy set.direct additions contributors).places,
      workspace.HasPlace project place := by
  rcases SelectionSet.forall_mem_places_of_direct placedSet with ⟨fields, branches, spreads⟩
  simp only [VisibleSelections.places, VisibleSelections.fields, VisibleSelections.branches,
    VisibleSelections.spreads, List.forall_mem_append, List.forall_mem_flatMap,
    List.forall_mem_map]
  have widened (field : Field) (mem : field ∈ set.directFields) :=
    MergeTarget.hasPlace_of_widened? arePlaced (fields field mem)
  exact ⟨⟨⟨⟨placedSet, widened, arePlaced.fields⟩, branches, arePlaced.branches⟩, spreads,
    arePlaced.spreads⟩, ofContributors⟩

/-- Merging reports no broken invariant, and all that is visible has its places in the workspace. -/
theorem SelectionSet.yields_hasPlaces (aligned : workspace.IsAligned project)
    (placedSet : ∀ place ∈ set.places, workspace.HasPlace project place)
    (strategy : MergingStrategy) : Yields (fun error => error.isInternal = false)
      (fun visible => ∀ place ∈ visible.places, workspace.HasPlace project place)
      (set.visible project.schema workspace.entities strategy) := by
  refine (yields_visible_of_steps (fun merged => merged.1.ArePlaced project workspace
      ∧ ∀ contributor ∈ merged.2, workspace.HasPlace project contributor.place)
    (fun _ => BuildError.isInternal_of_isInputError)
    ⟨MergeTarget.arePlaced_empty, fun _ mem => by cases mem⟩
    fun merged before sighting isRegistered sees => ?_).mono (fun _ => id) ?_
  -- the contribution of a sighting is a branch only if the scope admits it
  · exact MergeTarget.yields_mergeSighting_places aligned placedSet before.1 before.2 isRegistered
      fun key => Place.admits_of_view? sees
  · rintro visible ⟨additions, contributors, rfl, placed⟩
    exact placed.1.forall_mem_places placedSet placed.2

end Views

end ResponseShape
