import ResponseShape.Proofs.Definition.Taking
import ResponseShape.Proofs.Merging.Aliases
import ResponseShape.Proofs.Merging.Selected
import ResponseShape.Proofs.Walk.Completeness
import ResponseShape.Proofs.Workspace.Built

/-!
# A narrower scope sees everything that a wider one sees

Of two sets on one entity, let each scope of the one be within that of the other at the same level.
Then all that is visible at the other set is visible at the first
(`SelectionSet.OfferedBy.contains_visible`), and sets that lie within each other show the same. This
rests on two facts: to be within is transitive, and what is written at a set's place is registered,
so a set sees another's own selections like those of the other's sources. An occurrence that is the
set itself is passed over, but then the set has its selections directly; and one that an attempt to
build the definition left behind has a twin with the same selections in the build that came out.
-/

namespace ResponseShape

/-- Whether a place is within another of its entity, at every level. -/
structure Place.IsWithin (place other : Place) : Prop where
  location : other.entity.location = place.entity.location
  enclosing : place.isEnclosedLike other = true
  scope : place.scope.isWithin other.scope = true

section Places

variable {schema : Schema} {place other third : Place}

theorem Place.isEnclosedLike_iff : place.isEnclosedLike other = true ↔
    List.Forall₂ (fun scope inside => scope.isWithin inside = true) place.enclosing
      other.enclosing := by
  rw [List.forall₂_iff_zip, Place.isEnclosedLike, Bool.and_eq_true, beq_iff_eq, List.all_eq_true]
  exact and_congr_right fun _ => ⟨fun all _ _ mem => all _ mem, fun all _ mem => all mem⟩

theorem Place.isWithin_iff : place.IsWithin other ↔
    other.entity.location = place.entity.location
      ∧ List.Forall₂ (fun scope inside => scope.isWithin inside = true) place.scopes
        other.scopes := by
  rw [Place.scopes, Place.scopes, forall₂_append_singleton_iff, ← Place.isEnclosedLike_iff]
  constructor
  · intro within
    exact ⟨within.location, within.enclosing, within.scope⟩
  · rintro ⟨location, enclosing, scope⟩
    exact ⟨location, enclosing, scope⟩

theorem Place.IsWithin.refl (reachable : ∀ scope ∈ place.scopes, Scope.Reachable schema scope) :
    place.IsWithin place := by
  refine ⟨rfl, Place.isEnclosedLike_iff.mpr (List.forall₂_same.mpr fun scope mem => ?_), ?_⟩
  · exact (reachable scope (List.mem_append_left _ mem)).isWithin_self
  · exact (reachable _ place.scope_mem_scopes).isWithin_self

theorem Place.IsWithin.trans (inner : place.IsWithin other) (outer : other.IsWithin third)
    (reachable : ∀ scope ∈ place.scopes, Scope.Reachable schema scope)
    (otherReachable : ∀ scope ∈ other.scopes, Scope.Reachable schema scope) :
    place.IsWithin third := by
  simp only [Place.scopes, List.forall_mem_append, List.forall_mem_singleton]
    at reachable otherReachable
  refine ⟨outer.location.trans inner.location, Place.isEnclosedLike_iff.mpr ?_, ?_⟩
  · exact Scope.Reachable.isWithin_trans_all reachable.1 otherReachable.1
      (Place.isEnclosedLike_iff.mp inner.enclosing) (Place.isEnclosedLike_iff.mp outer.enclosing)
  · exact otherReachable.2.isWithin_trans reachable.2 inner.scope outer.scope

theorem Place.IsWithin.of_isLike (within : place.IsWithin other) (like : other.IsLike third) :
    place.IsWithin third := by
  refine ⟨like.location.trans within.location, ?_, ?_⟩
  · rw [Place.isEnclosedLike, like.enclosing]
    exact within.enclosing
  · rw [like.scope]
    exact within.scope

end Places

/-- The selection sets of a built definition: those written in it, and those behind the fields and
branches of what is visible at one of them. -/
inductive SelectionSet.OfferedBy (project : Project) (root : RootField) : SelectionSet → Prop where
  | written {member : Place × SelectionTree} (mem : member ∈ root.writtenSets) :
      OfferedBy project root ⟨member.1, some member.2⟩
  | field {workspace : Workspace} {set inner : SelectionSet} {strategy : MergingStrategy}
      {visible : VisibleSelections} {field : Field} (offered : OfferedBy project root set)
      (reachable : Workspace.Reachable project workspace)
      (run : set.visible project.schema workspace.entities strategy = .ok visible)
      (mem : field ∈ visible.fields) (isInner : field.selectionSet = some inner) :
      OfferedBy project root inner
  | branch {workspace : Workspace} {set : SelectionSet} {strategy : MergingStrategy}
      {visible : VisibleSelections} {branch : Branch} (offered : OfferedBy project root set)
      (reachable : Workspace.Reachable project workspace)
      (run : set.visible project.schema workspace.entities strategy = .ok visible)
      (mem : branch ∈ visible.branches) : OfferedBy project root branch.selectionSet

/-- How a set stands in a definition: what is direct is written there, at scopes that narrowings
lead to. -/
structure SelectionSet.IsPlacedIn (project : Project) (root : RootField) (set : SelectionSet) :
    Prop where
  written : set.IsWrittenIn root
  definition : set.place.entity.location.definition = root.place.entity.location.definition
  reachable : ∀ scope ∈ set.place.scopes, Scope.Reachable project.schema scope

section Sets

variable {project : Project} {workspace : Workspace} {definition : DefinitionId} {type : Name}
  {selections : List Selection} {root : RootField} {occurrences : List Occurrence}
  {set other inner : SelectionSet} {field : Field} {branch : Branch} {occurrence : Occurrence}

theorem RootField.IsDepiction.reachable_scopes
    (depiction : root.IsDepiction project definition type selections) :
    ∀ member ∈ root.writtenSets, ∀ scope ∈ member.1.scopes,
      Scope.Reachable project.schema scope := by
  rcases depiction.depicts with ⟨levels, depicts⟩
  have all := depicts.forall_writtenSets (motive := fun place _ _ =>
    ∀ scope ∈ place.scopes, Scope.Reachable project.schema scope) ?_ ?_ ?_
  · intro member mem
    rcases all member mem with ⟨_, _, -, reachable⟩
    exact reachable
  · intro levels place selections gathered fields branches spreads known summary child tree
      reachable _ _ _ ofField
    cases ofField with
    | entity _ isChild _ =>
        rw [Place.scopes, isChild.enclosing, List.forall_mem_append, List.forall_mem_singleton]
        exact ⟨reachable, .forType isChild.scope⟩
  · intro levels place selections gathered fields branches spreads behind key child tree
      reachable _ _ _ ofBranch
    cases ofBranch with
    | kept narrowed _ _ =>
        rcases Place.narrowed_eq_ok narrowed with ⟨inScope, -, sameEnclosing⟩
        rw [Place.scopes, List.forall_mem_append, List.forall_mem_singleton] at reachable
        rw [Place.scopes, sameEnclosing, List.forall_mem_append, List.forall_mem_singleton]
        exact ⟨reachable.1, .narrow reachable.2 inScope⟩
  · rw [Place.scopes, depiction.enclosing, List.nil_append, List.forall_mem_singleton]
    exact .forType depiction.scope

namespace SelectionSet

theorem IsPlacedIn.reachable_scope (placed : set.IsPlacedIn project root) :
    Scope.Reachable project.schema set.place.scope :=
  placed.reachable _ set.place.scope_mem_scopes

theorem IsPlacedIn.of_isInner (placed : set.IsPlacedIn project root)
    (isInner : set.IsInner project.schema root field inner) : inner.IsPlacedIn project root where
  written := isInner.written
  definition := by
    rw [isInner.location]
    exact placed.definition
  reachable := by
    rw [Place.scopes, isInner.enclosing, List.forall_mem_append, List.forall_mem_singleton]
    exact ⟨placed.reachable, .forType isInner.scope⟩

theorem IsPlacedIn.of_narrowed {key : Narrowing} (placed : set.IsPlacedIn project root)
    (narrowed : set.place.narrowed project.schema key = .ok inner.place)
    (written : inner.IsWrittenIn root) : inner.IsPlacedIn project root := by
  rcases Place.narrowed_eq_ok narrowed with ⟨inScope, sameEntity, sameEnclosing⟩
  have reachable := placed.reachable
  rw [Place.scopes, List.forall_mem_append, List.forall_mem_singleton] at reachable
  refine ⟨written, by rw [sameEntity]; exact placed.definition, ?_⟩
  rw [Place.scopes, sameEnclosing, List.forall_mem_append, List.forall_mem_singleton]
  exact ⟨reachable.1, .narrow reachable.2 inScope⟩

theorem OfferedBy.isPlacedIn (offered : set.OfferedBy project root)
    (depiction : root.IsDepiction project definition type selections) :
    set.IsPlacedIn project root := by
  induction offered with
  | @written member mem =>
      refine ⟨?_, ?_, depiction.reachable_scopes member mem⟩
      · rintro tree ⟨⟩
        exact mem
      · rw [depiction.location]
        exact (depiction.forall_writtenSets member mem).2.2.definition
  | field _ reachable run mem isInner placed =>
      exact placed.of_isInner (VisibleSelections.isInner_of_mem
        (Workspace.isSound_of_reachable reachable) depiction placed.written run mem isInner)
  | branch _ _ run mem placed =>
      rcases VisibleSelections.narrowed_of_mem depiction placed.written run mem with
        ⟨narrowed, written⟩
      exact placed.of_narrowed narrowed written

/-- What occurs in the definition around a set's place, the set selects: as a source or, if the
occurrence is the set itself, directly. -/
theorem IsPlacedIn.selects_of_mem (placed : set.IsPlacedIn project root)
    (hasBuilt : workspace.HasBuilt project definition type selections root occurrences)
    (mem : occurrence ∈ occurrences) (within : set.place.IsWithin occurrence.place) :
    (∀ field ∈ occurrence.selections.fields, set.Selects workspace.entities .all field)
      ∧ ∀ spread ∈ occurrence.selections.spreads,
        set.SelectsSpread workspace.entities .all spread.name := by
  cases isItself : set.isItself occurrence with
  | true =>
      have isDirect := placed.written.direct_eq_of_isItself hasBuilt.built mem isItself
      constructor
      · exact fun field fieldMem => Or.inl (mem_directFields.mpr ⟨_, isDirect, fieldMem⟩)
      · intro spread spreadMem
        refine Or.inl ⟨spread, ?_, rfl⟩
        rw [directSpreads, isDirect]
        exact spreadMem
  | false =>
      have registered := hasBuilt.registered occurrence mem
      rw [within.location] at registered
      have enabled : (set.place.originOf occurrence).isEnabled .all = true := by
        cases set.place.originOf occurrence <;> (simp only [Origin.isEnabled, Origin.flag]; decide)
      have isSource : occurrence ∈ set.sources workspace.entities .all :=
        List.mem_filter.mpr
          ⟨mem_seen.mpr ⟨registered, isItself, within.enclosing, enabled⟩, within.scope⟩
      exact ⟨fun field fieldMem => Or.inr ⟨occurrence, isSource, fieldMem⟩,
        fun spread spreadMem => Or.inr ⟨occurrence, isSource, spread, spreadMem, rfl⟩⟩

/-- Where what a set selects comes from: some occurrence of the definition around the set's
place. -/
theorem IsPlacedIn.exists_occurrence (placed : set.IsPlacedIn project root)
    (sound : workspace.IsSound project)
    (hasBuilt : workspace.HasBuilt project definition type selections root occurrences) :
    (∀ field, set.Selects workspace.entities .all field → ∃ occurrence ∈ occurrences,
        set.place.IsWithin occurrence.place
          ∧ ∃ twin ∈ occurrence.selections.fields, twin.summary = field.summary)
      ∧ ∀ name, set.SelectsSpread workspace.entities .all name → ∃ occurrence ∈ occurrences,
        set.place.IsWithin occurrence.place
          ∧ ∃ spread ∈ occurrence.selections.spreads, spread.name = name := by
  have isDefined : set.place.entity.location.definition = definition := by
    rw [placed.definition, hasBuilt.built.depiction.location]
    rfl
  have ofDirect {tree : SelectionTree} (isTree : set.direct = some tree) :=
    hasBuilt.built.occurs.written _ (placed.written tree isTree)
  have ofSource {source : Occurrence} (isSource : source ∈ set.sources workspace.entities .all) :
      ∃ twin ∈ occurrences, set.place.IsWithin twin.place ∧ source.IsLike twin := by
    rcases List.mem_filter.mp isSource with ⟨isSeen, isWithin⟩
    rcases mem_seen.mp isSeen with ⟨registered, -, enclosed, -⟩
    rcases hasBuilt.alike _ isDefined source registered with ⟨twin, twinMem, like⟩
    have location := (sound.registered _ _ registered).2
    exact ⟨twin, twinMem, Place.IsWithin.of_isLike ⟨location, enclosed, isWithin⟩ like.place, like⟩
  constructor
  · rintro field (isDirect | ⟨source, isSource, mem⟩)
    · rcases mem_directFields.mp isDirect with ⟨tree, isTree, mem⟩
      exact ⟨_, ofDirect isTree, .refl placed.reachable, field, mem, rfl⟩
    · rcases ofSource isSource with ⟨twin, twinMem, within, like⟩
      exact ⟨twin, twinMem, within, like.selections.exists_field mem⟩
  · rintro name (⟨spread, isDirect, rfl⟩ | ⟨source, isSource, spread, mem, rfl⟩)
    · rw [directSpreads] at isDirect
      cases isTree : set.direct with
      | none => simp [isTree] at isDirect
      | some tree =>
          rw [isTree] at isDirect
          exact ⟨_, ofDirect isTree, .refl placed.reachable, spread, isDirect, rfl⟩
    · rcases ofSource isSource with ⟨twin, twinMem, within, like⟩
      exact ⟨twin, twinMem, within, like.selections.exists_spread mem⟩

/-- A set selects all that another one does, be it of another definition, if it is within
occurrences with the same selections as those that the other is within. -/
theorem IsPlacedIn.selectsAllOf {otherDefinition : DefinitionId} {otherType : Name}
    {otherSelections : List Selection} {otherRoot : RootField} {others : List Occurrence}
    (placed : set.IsPlacedIn project root) (otherPlaced : other.IsPlacedIn project otherRoot)
    (sound : workspace.IsSound project)
    (hasBuilt : workspace.HasBuilt project definition type selections root occurrences)
    (otherBuilt : workspace.HasBuilt project otherDefinition otherType otherSelections otherRoot
      others)
    (within : set.place.scope.isWithin other.place.scope = true)
    (around : ∀ inside ∈ others, other.place.IsWithin inside.place → ∃ outside ∈ occurrences,
      set.place.IsWithin outside.place ∧ outside.selections = inside.selections) :
    set.SelectsAllOf workspace.entities .all other := by
  have origin := otherPlaced.exists_occurrence sound otherBuilt
  constructor
  · intro assignment
    exact Scope.holds_known_of_isWithin otherPlaced.reachable_scope within
  · intro field selects
    rcases origin.1 field selects with ⟨inside, insideMem, isAround, twin, twinMem, same⟩
    rcases around inside insideMem isAround with ⟨outside, outsideMem, within, isSame⟩
    rw [← isSame] at twinMem
    exact ⟨twin, same, (placed.selects_of_mem hasBuilt outsideMem within).1 twin twinMem⟩
  · intro name selects
    rcases origin.2 name selects with ⟨inside, insideMem, isAround, spread, spreadMem, rfl⟩
    rcases around inside insideMem isAround with ⟨outside, outsideMem, within, isSame⟩
    rw [← isSame] at spreadMem
    exact (placed.selects_of_mem hasBuilt outsideMem within).2 spread spreadMem

end SelectionSet

end Sets

/-- The fields of a tree can hold where its place's scope lets them. -/
theorem Depicts.exists_holds {project : Project} {levels : Nat} {place : Place}
    {selections : List Selection} {tree : SelectionTree} {field : Field}
    (depicts : Depicts project levels place selections tree) (mem : field ∈ tree.fields) :
    ∃ assignment, place.scope.knownConditions.all (·.holds assignment) = true
      ∧ field.holds assignment = true := by
  cases levels with
  | zero => cases depicts
  | succ levels =>
      rcases tree with ⟨fields, branches, spreads⟩
      rcases depicts with ⟨gathered, parts⟩
      rcases List.mem_map.mp mem with ⟨treeField, treeFieldMem, rfl⟩
      rcases exists_mem_of_forall₂_right parts.fields treeFieldMem with
        ⟨known, knownMem, ofField⟩
      rcases Gathered.canHold_gatherAll parts.gathers known knownMem with
        ⟨assignment, knownHolds, holds⟩
      refine ⟨assignment, knownHolds, ?_⟩
      cases ofField <;> exact holds

/-- Whether two views show the same: the response keys, with conditions that agree where some
conditions are met, and the spreads. -/
structure VisibleSelections.IsEquivalent (known : Option ConditionGroup)
    (visible other : VisibleSelections) : Prop where
  keys : ∀ key, key ∈ visible.fields.map (·.responseKey)
    ↔ key ∈ other.fields.map (·.responseKey)
  conditions : ∀ assignment, known.all (·.holds assignment) = true → ∀ field ∈ visible.fields,
    ∀ twin ∈ other.fields, twin.responseKey = field.responseKey →
      field.holds assignment = twin.holds assignment
  spreads : ∀ name, (∃ spread ∈ visible.spreads, spread.name = name)
    ↔ ∃ spread ∈ other.spreads, spread.name = name

namespace SelectionSet

variable {project : Project} {workspace : Workspace} {root : RootField} {set wide : SelectionSet}
  {visible wideVisible : VisibleSelections}

/-- The fields written in a set that a definition offers can hold where the set's scope lets
them. -/
theorem OfferedBy.exists_holds_of_direct {definition : DefinitionId} {type : Name}
    {selections : List Selection} {direct : Field} (offered : set.OfferedBy project root)
    (depiction : root.IsDepiction project definition type selections)
    (mem : direct ∈ set.directFields) :
    ∃ assignment, set.place.scope.knownConditions.all (·.holds assignment) = true
      ∧ direct.holds assignment = true := by
  rcases mem_directFields.mp mem with ⟨tree, isTree, inTree⟩
  have written := (offered.isPlacedIn depiction).written tree isTree
  rcases (depiction.forall_writtenSets _ written).1 with ⟨_, _, depicts⟩
  exact depicts.exists_holds inTree

/-- Visible fields can hold where the scope of a set that a definition offers lets them. -/
theorem OfferedBy.exists_holds {definition : DefinitionId} {type : Name}
    {selections : List Selection} {strategy : MergingStrategy} {field : Field}
    (offered : set.OfferedBy project root)
    (depiction : root.IsDepiction project definition type selections)
    (run : set.visible project.schema workspace.entities strategy = .ok visible)
    (mem : field ∈ visible.fields) :
    ∃ assignment, set.place.scope.knownConditions.all (·.holds assignment) = true
      ∧ field.holds assignment = true := by
  have written := (offered.isPlacedIn depiction).written
  exact VisibleSelections.exists_holds (written.isDepiction depiction).isOrderly run
    (fun _ => offered.exists_holds_of_direct depiction) mem

/-- A set shows all that is visible at a set of the same entity that it is within at every level;
and sets that are within each other show the same. -/
theorem OfferedBy.contains_visible (reachable : Workspace.Reachable project workspace)
    (hasRoot : workspace.HasRoot root) (offered : set.OfferedBy project root)
    (wideOffered : wide.OfferedBy project root) (within : set.place.IsWithin wide.place)
    (run : set.visible project.schema workspace.entities .all = .ok visible)
    (wideRun : wide.visible project.schema workspace.entities .all = .ok wideVisible) :
    visible.Contains set.place.scope.knownConditions wideVisible
      ∧ (wide.place.IsWithin set.place →
        visible.IsEquivalent set.place.scope.knownConditions wideVisible) := by
  have sound := Workspace.isSound_of_reachable reachable
  rcases sound.hasBuilt hasRoot with ⟨definition, type, selections, occurrences, hasBuilt⟩
  have depiction := hasBuilt.built.depiction
  have placed := offered.isPlacedIn depiction
  have widePlaced := wideOffered.isPlacedIn depiction
  have orderly := (placed.written.isDepiction depiction).isOrderly
  have wideOrderly := (widePlaced.written.isDepiction depiction).isOrderly
  have contains := (placed.selectsAllOf widePlaced sound hasBuilt hasBuilt within.scope
    fun inside mem around => ⟨inside, mem, within.trans around placed.reachable
      widePlaced.reachable, rfl⟩).contains orderly wideOrderly run wideRun
  refine ⟨contains, fun around => ?_⟩
  have contained := (widePlaced.selectsAllOf placed sound hasBuilt hasBuilt around.scope
    fun inside mem further => ⟨inside, mem, around.trans further widePlaced.reachable
      placed.reachable, rfl⟩).contains wideOrderly orderly wideRun run
  have hasFields : visible.HasFieldsOf set.place.scope.knownConditions wideVisible := by
    apply VisibleSelections.hasFieldsOf_of_shows (VisibleSelections.nodup_responseKeys orderly run)
    · intro field mem
      rcases wideOffered.exists_holds depiction wideRun mem with ⟨assignment, knownHolds, holds⟩
      exact ⟨assignment,
        Scope.holds_known_of_isWithin placed.reachable_scope around.scope knownHolds, holds⟩
    · exact fun key assignment knownHolds => contains.shows knownHolds
  have givesFields : wideVisible.HasFieldsOf set.place.scope.knownConditions visible := by
    apply VisibleSelections.hasFieldsOf_of_shows
      (VisibleSelections.nodup_responseKeys wideOrderly wideRun)
    · exact fun field mem => offered.exists_holds depiction run mem
    · intro key assignment knownHolds
      exact contained.shows
        (Scope.holds_known_of_isWithin widePlaced.reachable_scope within.scope knownHolds)
  constructor
  · exact fun key => ⟨givesFields.mem_keys, hasFields.mem_keys⟩
  · intro assignment knownHolds field mem twin twinMem sameKey
    rw [Bool.eq_iff_iff]
    exact ⟨givesFields.holds field mem twin twinMem sameKey assignment knownHolds,
      hasFields.holds twin twinMem field mem sameKey.symm assignment knownHolds⟩
  · intro name
    constructor
    · rintro ⟨spread, mem, rfl⟩
      exact contained.spreads spread mem
    · rintro ⟨spread, mem, rfl⟩
      exact contains.spreads spread mem

end SelectionSet

/-- Behind the branch of the sample everything is visible that is selected before it. -/
theorem SelectionSet.contains_visible_characters : ∃ (set wide : SelectionSet)
    (visible wideVisible : VisibleSelections),
    set.visible Characters.project.schema Characters.workspace.entities .all = .ok visible
    ∧ wide.visible Characters.project.schema Characters.workspace.entities .all = .ok wideVisible
    ∧ wide.place.scope.isWithin set.place.scope = false
    ∧ wideVisible.fields.map (·.responseKey) = ["hero"]
    ∧ visible.Contains set.place.scope.knownConditions wideVisible := by
  have computes : (Characters.workspace.operations.any fun operation =>
      operation.2.root.writtenSets.any fun wide => operation.2.root.writtenSets.any fun set =>
        ((SelectionSet.mk wide.1 (some wide.2)).visible Characters.project.schema
          Characters.workspace.entities .all).toOption.any fun wideVisible =>
            ((SelectionSet.mk set.1 (some set.2)).visible Characters.project.schema
              Characters.workspace.entities .all).toOption.any fun _ =>
                (wide.1.entity.location == set.1.entity.location
                  && set.1.isEnclosedLike wide.1 && set.1.scope.isWithin wide.1.scope)
                && (!wide.1.scope.isWithin set.1.scope
                  && wideVisible.fields.map (·.responseKey) == ["hero"])) = true := by
    rewrite [Characters.workspace_eq, Characters.project_eq]
    decide +kernel
  simp only [List.any_eq_true, Option.any_eq_true, Bool.and_eq_true, Bool.not_eq_true',
    beq_iff_eq] at computes
  rcases computes with ⟨⟨key, shape⟩, isBuilt, wide, wideMem, set, setMem, wideVisible, isWide,
    visible, isVisible, ⟨⟨location, enclosing⟩, scope⟩, isOutside, keys⟩
  have run := Build.eq_ok_of_toOption isVisible
  have wideRun := Build.eq_ok_of_toOption isWide
  have contains := OfferedBy.contains_visible Characters.reachable
    (Or.inl ⟨key, shape, isBuilt, rfl⟩) (.written setMem) (.written wideMem)
    ⟨location, enclosing, scope⟩ run wideRun
  exact ⟨_, _, visible, wideVisible, run, wideRun, isOutside, keys, contains.1⟩

end ResponseShape
