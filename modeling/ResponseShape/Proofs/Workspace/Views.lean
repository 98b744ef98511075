import ResponseShape.Proofs.Workspace.Descent
import ResponseShape.Proofs.Workspace.Settling
import ResponseShape.Proofs.Merging.Narrower

/-!
# Views in settled workspaces

What is visible at a set of a built definition depends on the definition alone: in all settled
workspaces that have built it, the same is registered for its entities, and the entities of its
fields are there (`SelectionSet.matches_visible_of_settled`). The cache forgets whose answer a slot
holds, but a set with the same key stood in the same definition then (`Workspace.IsComputed`). So
what is asked for gives the same whether it was asked for before or not
(`Workspace.IsComputed.matches`).
-/

namespace ResponseShape

/-- What building a definition finds as long as nothing is built. -/
def Project.draftOf (project : Project) :
    DefinitionId → Except BuildError (Built RootField × List Occurrence)
  | .fragment name =>
      match project.compilation.spreadFragment? name with
      | none => .error (.unknownFragment name)
      | some fragment =>
          ((Build.fragmentDraft project (Build.fragment project) fragment).runIn .empty).1
  | .operation index _ name =>
      match project.compilation.documents[index]?.bind (·.document.operation? name) with
      | none => .error (.unknownOperation name)
      | some operation => ((Build.operationDraft project index operation).runIn .empty).1

/-- Whether a root field is that of a definition which its name stands for in a workspace. -/
def Workspace.Offers (workspace : Workspace) (root : RootField) : Prop :=
  (∃ key shape, workspace.operation? key = some shape ∧ shape.root = root)
    ∨ ∃ name shape, workspace.fragment? name = some shape ∧ shape.root = root

/-- The definition that a root field is of. -/
def RootField.definition (root : RootField) : DefinitionId := root.place.entity.location.definition

section Drafts

variable {project : Project} {workspace later : Workspace} {definition : DefinitionId}
  {draft : Built RootField × List Occurrence} {root : RootField}

theorem Workspace.Keeps.offers (keeps : workspace.Keeps later) (offers : workspace.Offers root) :
    later.Offers root := by
  rcases offers with ⟨key, shape, found, isRoot⟩ | ⟨name, shape, found, isRoot⟩
  · exact Or.inl ⟨key, shape, keeps.operations key shape found, isRoot⟩
  · exact Or.inr ⟨name, shape, keeps.fragments name shape found, isRoot⟩

theorem Workspace.Offers.hasRoot (offers : workspace.Offers root) : workspace.HasRoot root := by
  rcases offers with ⟨key, shape, found, isRoot⟩ | ⟨name, shape, found, isRoot⟩
  · rcases List.lookup_eq_some_iff.mp found with ⟨before, after, split, -⟩
    exact Or.inl ⟨key, shape, by simp [split], isRoot⟩
  · exact Or.inr ⟨shape, List.mem_of_find?_eq_some found, isRoot⟩

/-- What is drafted for a definition depicts it. -/
theorem Build.isDepiction_of_draft {fragment : Name → Build FragmentShape} {name type : Name}
    {written : List Selection} (isBuilder : Build.IsBuilder project fragment)
    (sound : workspace.IsSound project)
    (drafts : ((Build.draft project fragment definition name type written).runIn workspace).1
      = .ok draft) : draft.1.value.IsDepiction project definition type written :=
  ((ensures_draft isBuilder definition name type written workspace sound trivial).2.2 draft
    drafts).depiction

theorem RootField.IsDepiction.definition_eq {type : Name} {selections : List Selection}
    (depiction : root.IsDepiction project definition type selections) :
    root.definition = definition := by
  rw [RootField.definition, depiction.location]
  rfl

namespace Workspace.IsSettled

variable (settled : workspace.IsSettled project) (offers : workspace.Offers root)

include settled offers

/-- What is built in a settled workspace was drafted as in an empty one, and its occurrences are
what is registered for its entities. -/
theorem exists_draft : ∃ draft, project.draftOf root.definition = .ok draft ∧ draft.1.value = root
    ∧ workspace.IsFilled project root.definition draft.2 := by
  rcases offers with ⟨key, shape, found, rfl⟩ | ⟨name, shape, found, rfl⟩
  · rcases settled.operations key shape found with
      ⟨document, operation, draft, isDocument, isOperation, drafts, rfl, isFilled⟩
    have sameName : operation.name = key.name := by simpa using List.find?_some isOperation
    have isDefinition := (Build.isDepiction_of_draft Build.ensures_fragment isSound_empty
      drafts).definition_eq
    rw [sameName] at isDefinition
    refine ⟨draft, ?_, rfl, ?_⟩
    · simp only [Operation.shape, isDefinition, Project.draftOf, isDocument, Option.bind_some,
        isOperation]
      exact drafts
    · rwa [Operation.shape, isDefinition]
  · rcases settled.fragments name shape found with
      ⟨document, fragment, draft, isDefined, drafts, rfl, isFilled⟩
    have sameName : fragment.name = name := Compilation.name_of_fragment? isDefined
    have isDefinition := (Build.isDepiction_of_draft Build.ensures_fragment isSound_empty
      drafts).definition_eq
    rw [sameName] at isDefinition
    refine ⟨draft, ?_, rfl, ?_⟩
    · simp only [Fragment.shape, isDefinition, Project.draftOf, Compilation.spreadFragment?,
        isDefined, Option.map_some]
      exact drafts
    · rwa [Fragment.shape, isDefinition]

theorem exists_built : ∃ type selections occurrences,
    workspace.Registers root.definition occurrences
      ∧ root.IsBuilt project workspace.fragment? root.definition type selections occurrences := by
  rcases offers with ⟨key, shape, found, rfl⟩ | ⟨name, shape, found, rfl⟩
  · have mem : (key, shape) ∈ workspace.operations := by
      rcases List.lookup_eq_some_iff.mp found with ⟨before, after, split, -⟩
      simp [split]
    rcases settled.sound.operations key shape mem with
      ⟨_, _, occurrences, -, -, -, built, registers⟩
    rw [built.depiction.definition_eq]
    exact ⟨_, _, occurrences, registers, built⟩
  · rcases settled.sound.hasBuilt_of_fragment (List.mem_of_find?_eq_some found) with
      ⟨_, -, hasBuilt⟩
    rcases settled.fragments name shape found with ⟨_, _, _, -, -, rfl, isFilled⟩
    have sameName := List.find?_some found
    rw [beq_iff_eq] at sameName
    rw [hasBuilt.built.depiction.definition_eq, sameName]
    exact ⟨_, _, _, isFilled.registers, sameName ▸ hasBuilt.built⟩

/-- Merging into a set of a definition that is built finds the entities of all fields. -/
theorem reaches {set : SelectionSet} (placed : set.IsPlacedIn project root) :
    ∀ occurrence ∈ workspace.entities.occurrences set.place.entity.location,
      ∀ field ∈ occurrence.selections.fields, MergeTarget.Reaches
        ⟨project.schema, workspace.entities, set.place, set.direct⟩ field := by
  intro occurrence isRegistered field fieldMem isSome
  rcases settled.exists_built offers with ⟨type, selections, occurrences, registers, built⟩
  rw [registers _ placed.definition, List.mem_filter, beq_iff_eq] at isRegistered
  rcases settled.sound.descends built occurrence isRegistered.1 field fieldMem isSome with
    ⟨below, belowMem, -, location⟩
  rw [isRegistered.2] at location
  have belowRegistered : below ∈ workspace.entities.occurrences below.place.entity.location := by
    rw [registers _ (built.rooted below belowMem).definition, List.mem_filter]
    exact ⟨belowMem, beq_self_eq_true _⟩
  rw [location] at belowRegistered
  rcases EntityTable.exists_entity?_of_mem belowRegistered with ⟨entity, found⟩
  exact ⟨entity, found, settled.sound.entities.location_of_entity? found⟩

end Workspace.IsSettled

/-- Equal places are places of one definition. -/
theorem SelectionSet.IsPlacedIn.definition_eq {otherRoot : RootField} {set other : SelectionSet}
    (placed : set.IsPlacedIn project root) (otherPlaced : other.IsPlacedIn project otherRoot)
    (same : (set.place == other.place) = true) : root.definition = otherRoot.definition := by
  rw [RootField.definition, ← placed.definition, (Place.of_beq same).1, otherPlaced.definition,
    RootField.definition]

/-- What is written at equal places of a definition is the same. -/
theorem SelectionSet.IsPlacedIn.direct_eq {type : Name} {selections : List Selection}
    {set other : SelectionSet} (placed : set.IsPlacedIn project root)
    (depiction : root.IsDepiction project definition type selections)
    (otherPlaced : other.IsPlacedIn project root) (same : (set.place == other.place) = true)
    (isDirect : set.direct.isSome = other.direct.isSome) : set.direct = other.direct := by
  rcases depiction.depicts with ⟨_, depicts⟩
  cases direct : set.direct with
  | none =>
      rw [direct, Option.isSome_none] at isDirect
      exact (Option.not_isSome_iff_eq_none.mp (by simp [← isDirect])).symm
  | some tree =>
      rw [direct, Option.isSome_some] at isDirect
      rcases Option.isSome_iff_exists.mp isDirect.symm with ⟨otherTree, otherDirect⟩
      rw [otherDirect]
      exact congrArg some (depicts.eq_of_beq_place depiction.located
        (placed.written tree direct) (otherPlaced.written otherTree otherDirect) same)

/-- What is visible at equal places of what is built is alike in all settled workspaces. -/
theorem SelectionSet.matches_visible_of_settled {twin : Workspace} {set other : SelectionSet}
    {otherRoot : RootField} (settled : workspace.IsSettled project)
    (offers : workspace.Offers root) (placed : set.IsPlacedIn project root)
    (twinSettled : twin.IsSettled project) (twinOffers : twin.Offers otherRoot)
    (otherPlaced : other.IsPlacedIn project otherRoot) (same : (set.place == other.place) = true)
    (isDirect : set.direct.isSome = other.direct.isSome) (strategy : MergingStrategy) :
    Matches VisibleSelections.IsAlike
      (set.visible project.schema workspace.entities strategy)
      (other.visible project.schema twin.entities strategy) := by
  have location := (Place.of_beq same).1
  have sameDefinition := placed.definition_eq otherPlaced same
  rcases settled.exists_draft offers with ⟨draft, drafts, rfl, isFilled⟩
  rcases twinSettled.exists_draft twinOffers with ⟨_, otherDrafts, rfl, otherFilled⟩
  rw [← sameDefinition] at otherDrafts otherFilled
  rcases Except.ok.inj (drafts.symm.trans otherDrafts) with rfl
  have place := Place.isAlike placed.reachable otherPlaced.reachable same
  refine SelectionSet.matches_visible place ?_ ?_ (settled.reaches offers placed)
    (twinSettled.reaches twinOffers otherPlaced) strategy
  · rcases settled.exists_built offers with ⟨_, _, _, -, built⟩
    exact placed.direct_eq built.depiction otherPlaced same isDirect
  · rw [isFilled.registers _ placed.definition,
      otherFilled.registers _ (otherPlaced.definition.trans rfl), location]

end Drafts

theorem ViewKey.beq_iff {key other : ViewKey} : (key == other) = true ↔
    (key.place == other.place) = true ∧ key.strategy = other.strategy
      ∧ key.isDirect = other.isDirect := by
  change (key.place == other.place && key.strategy == other.strategy
    && key.isDirect == other.isDirect) = true ↔ _
  simp only [Bool.and_eq_true, beq_iff_eq, and_assoc]

instance : EquivBEq ViewKey where
  rfl := ViewKey.beq_iff.mpr ⟨BEq.rfl, rfl, rfl⟩
  symm same := by
    rcases ViewKey.beq_iff.mp same with ⟨place, strategy, isDirect⟩
    exact ViewKey.beq_iff.mpr ⟨BEq.symm place, strategy.symm, isDirect.symm⟩
  trans same further := by
    rcases ViewKey.beq_iff.mp same with ⟨place, strategy, isDirect⟩
    rcases ViewKey.beq_iff.mp further with ⟨nextPlace, nextStrategy, nextDirect⟩
    exact ViewKey.beq_iff.mpr ⟨PartialEquivBEq.trans place nextPlace,
      strategy.trans nextStrategy, isDirect.trans nextDirect⟩

theorem ViewCache.result?_setSlot (cache : ViewCache) (key other : ViewKey)
    (content : Option VisibleSelections) : (cache.setSlot key content).result? other
      = if other == key then content else cache.result? other := by
  simp only [result?, setSlot, lookup_updateOrAppend_of_equiv]
  split <;> rfl

/-- Whether an outcome is what was computed for a key: for a set of a definition that was built
already, and still is. -/
def Workspace.IsComputed (project : Project) (workspace : Workspace) (key : ViewKey)
    (outcome : Except BuildError VisibleSelections) : Prop :=
  ∃ (past : Workspace) (root : RootField) (set : SelectionSet),
    past.IsSettled project ∧ past.Offers root ∧ workspace.Offers root ∧ set.IsPlacedIn project root
    ∧ (set.viewKey key.strategy == key) = true
    ∧ set.visible project.schema past.entities key.strategy = outcome

/-- Whether a cache holds nothing but what was computed. -/
def Workspace.Remembers (project : Project) (workspace : Workspace) : Prop :=
  ∀ key visible, workspace.cache.result? key = some visible →
    workspace.IsComputed project key (.ok visible)

/-- Whether a set is one of a definition that is built. -/
def SelectionSet.StandsIn (project : Project) (workspace : Workspace) (set : SelectionSet) : Prop :=
  ∃ root, workspace.Offers root ∧ set.IsPlacedIn project root

section Views

variable {project : Project} {workspace later twin : Workspace} {key other : ViewKey}
  {outcome otherOutcome : Except BuildError VisibleSelections} {set : SelectionSet}
  {strategy : MergingStrategy} {visible : VisibleSelections}

/-- Whatever was computed for equal keys is alike. -/
theorem Workspace.IsComputed.matches (computed : workspace.IsComputed project key outcome)
    (otherComputed : twin.IsComputed project other otherOutcome) (same : (key == other) = true) :
    Matches VisibleSelections.IsAlike outcome otherOutcome := by
  rcases computed with ⟨past, root, set, settled, offers, -, placed, isKey, rfl⟩
  rcases otherComputed with
    ⟨otherPast, otherRoot, otherSet, otherSettled, otherOffers, -, otherPlaced, isOther, rfl⟩
  have sameKey := PartialEquivBEq.trans isKey (PartialEquivBEq.trans same (BEq.symm isOther))
  rcases ViewKey.beq_iff.mp sameKey with ⟨place, -, isDirect⟩
  rw [(ViewKey.beq_iff.mp same).2.1]
  exact SelectionSet.matches_visible_of_settled settled offers placed otherSettled otherOffers
    otherPlaced place isDirect other.strategy

theorem Workspace.IsComputed.mono (computed : workspace.IsComputed project key outcome)
    (offers : ∀ root, workspace.Offers root → later.Offers root) :
    later.IsComputed project key outcome := by
  rcases computed with ⟨past, root, set, settled, past, now, rest⟩
  exact ⟨_, root, set, settled, past, offers root now, rest⟩

theorem Workspace.IsComputed.congr (computed : workspace.IsComputed project key outcome)
    (same : (key == other) = true) : workspace.IsComputed project other outcome := by
  rcases computed with ⟨past, root, set, settled, offers, now, placed, isKey, run⟩
  rw [(ViewKey.beq_iff.mp same).2.1] at isKey run
  exact ⟨past, root, set, settled, offers, now, placed, PartialEquivBEq.trans isKey same, run⟩

/-- What is written in a definition that is built stands in it. -/
theorem SelectionSet.isPlacedIn_of_offers {member : Place × SelectionTree}
    {root : RootField} (sound : workspace.IsSound project) (offers : workspace.Offers root)
    (mem : member ∈ root.writtenSets) :
    (SelectionSet.mk member.1 (some member.2)).IsPlacedIn project root := by
  rcases sound.hasBuilt offers.hasRoot with ⟨_, _, _, _, hasBuilt⟩
  exact OfferedBy.isPlacedIn (.written mem) hasBuilt.built.depiction

/-- The sets behind the fields and branches of what is visible stand in the same definition. -/
theorem SelectionSet.IsPlacedIn.of_visible {root : RootField} (placed : set.IsPlacedIn project root)
    (sound : workspace.IsSound project) (offers : workspace.Offers root)
    (run : set.visible project.schema workspace.entities strategy = .ok visible) :
    (∀ field ∈ visible.fields, ∀ inner, field.selectionSet = some inner →
        inner.IsPlacedIn project root)
      ∧ ∀ branch ∈ visible.branches, branch.selectionSet.IsPlacedIn project root := by
  rcases sound.hasBuilt offers.hasRoot with ⟨_, _, _, _, hasBuilt⟩
  have depiction := hasBuilt.built.depiction
  constructor
  · intro field mem inner isInner
    exact placed.of_isInner
      (VisibleSelections.isInner_of_mem sound depiction placed.written run mem isInner)
  · intro branch mem
    rcases VisibleSelections.narrowed_of_mem depiction placed.written run mem with
      ⟨narrowed, written⟩
    exact placed.of_narrowed narrowed written

/-- The sets behind the fields and branches of what was computed are of definitions that are
built. -/
theorem Workspace.IsComputed.standsIn
    (computed : workspace.IsComputed project key (.ok visible)) :
    (∀ field ∈ visible.fields, ∀ inner, field.selectionSet = some inner →
        inner.StandsIn project workspace)
      ∧ ∀ branch ∈ visible.branches, branch.selectionSet.StandsIn project workspace := by
  rcases computed with ⟨past, root, set, settled, offers, now, placed, -, run⟩
  rcases placed.of_visible settled.sound offers run with ⟨ofFields, ofBranches⟩
  exact ⟨fun field mem inner isInner => ⟨root, now, ofFields field mem inner isInner⟩,
    fun branch mem => ⟨root, now, ofBranches branch mem⟩⟩

/-- Asking for a view asks the cache, and leaves all else alone. -/
theorem Build.runIn_viewUnder (set : SelectionSet) (strategy : MergingStrategy) :
    (viewUnder project set strategy).runIn workspace =
      let asked := workspace.cache.getOrCompute (set.viewKey strategy) fun _ =>
        set.visible project.schema workspace.entities strategy
      (asked.1, { workspace with cache := asked.2 }) := by
  simp only [viewUnder, runIn_bind, runIn_get, runIn_set, runIn_ofExcept]

theorem Workspace.IsSound.withCache (sound : workspace.IsSound project) (cache : ViewCache) :
    Workspace.IsSound project { workspace with cache } :=
  ⟨sound.entities, sound.registered, sound.fragments, sound.operations, sound.unbuilt,
    sound.stored, sound.attempts⟩

theorem Workspace.IsSettled.withCache (settled : workspace.IsSettled project)
    (cache : ViewCache) : Workspace.IsSettled project { workspace with cache } := by
  have filled {definition : DefinitionId} {occurrences : List Occurrence}
      (isFilled : workspace.IsFilled project definition occurrences) :
      Workspace.IsFilled project { workspace with cache } definition occurrences :=
    ⟨isFilled.registers, isFilled.isOf⟩
  refine ⟨settled.sound.withCache cache, settled.entities, ?_, settled.unbuilt, ?_⟩
  · intro name shape found
    rcases settled.fragments name shape found with
      ⟨document, definition, draft, isDefined, drafts, isShape, isFilled⟩
    exact ⟨document, definition, draft, isDefined, drafts, isShape, filled isFilled⟩
  · intro key shape found
    rcases settled.operations key shape found with
      ⟨document, definition, draft, isDocument, isDefined, drafts, isShape, isFilled⟩
    exact ⟨document, definition, draft, isDocument, isDefined, drafts, isShape, filled isFilled⟩

/-- Asking the cache gives what was computed, now or before, and stores nothing else. -/
theorem Workspace.Remembers.isComputed (remembers : workspace.Remembers project)
    {computation : Unit → Except BuildError VisibleSelections}
    (computes : workspace.IsComputed project key (computation ())) :
    workspace.IsComputed project key (workspace.cache.getOrCompute key computation).1
      ∧ Workspace.Remembers project
        { workspace with cache := (workspace.cache.getOrCompute key computation).2 } := by
  have stores (cache : ViewCache) (sameSlots : cache.slots = workspace.cache.slots)
      {content : Option VisibleSelections}
      (isContent : ∀ visible, content = some visible →
        workspace.IsComputed project key (.ok visible)) :
      Workspace.Remembers project { workspace with cache := cache.setSlot key content } := by
    intro asked visible found
    rw [ViewCache.result?_setSlot] at found
    split at found
    next same => exact (isContent visible found).congr (BEq.symm same)
    next =>
      rw [ViewCache.result?, sameSlots] at found
      exact remembers asked visible found
  simp only [ViewCache.getOrCompute]
  split
  next known found => exact ⟨remembers key known found, remembers⟩
  next =>
    split
    next visible run =>
      rw [run] at computes
      refine ⟨computes, stores _ rfl ?_⟩
      rintro _ ⟨⟩
      exact computes
    next error run =>
      rw [run] at computes
      exact ⟨computes, stores _ rfl fun visible isContent => by cases isContent⟩

/-- Asking for a view gives what was computed for it, now or before, and stores nothing else. -/
theorem Build.isComputed_viewUnder (strategy : MergingStrategy)
    (settled : workspace.IsSettled project) (remembers : workspace.Remembers project)
    (stands : set.StandsIn project workspace) :
    workspace.IsComputed project (set.viewKey strategy)
        ((viewUnder project set strategy).runIn workspace).1
      ∧ ((viewUnder project set strategy).runIn workspace).2.Remembers project := by
  rcases stands with ⟨root, offers, placed⟩
  have computes : workspace.IsComputed project (set.viewKey strategy)
      (set.visible project.schema workspace.entities strategy) :=
    ⟨workspace, root, set, settled, offers, offers, placed, BEq.rfl, rfl⟩
  rw [runIn_viewUnder]
  exact remembers.isComputed computes

end Views

end ResponseShape
