import ResponseShape.Proofs.Definition.Failures
import ResponseShape.Proofs.Definition.Placing
import ResponseShape.Proofs.Entity.Alignment
import ResponseShape.Proofs.Workspace.Abiding
import ResponseShape.Proofs.Workspace.Views

/-!
# Aligned workspaces

In every workspace, with or without cycles of spreads, an entity has the types on the way to it, and
the places in all that is built or registered are aligned (`Workspace.IsAligned`). Building keeps it
so, leaves alone what is registered for definitions that are built already (`Workspace.Preserves`),
and never reports a broken invariant (`Build.aligns_draft`).
-/

namespace ResponseShape

/-- How a workspace may change, whatever is asked for: what is known stays known, and to the
entities of a definition that is built nothing is added. -/
structure Workspace.Preserves (workspace later : Workspace) : Prop where
  fragments : ∀ name shape, workspace.fragment? name = some shape →
    later.fragment? name = some shape
  operations : ∀ key shape, workspace.operation? key = some shape →
    later.operation? key = some shape
  entities : ∀ location entity, workspace.entities.entity? location = some entity →
    later.entities.entity? location = some entity
  occurrences : ∀ root location, workspace.Offers root → location.definition = root.definition →
    later.entities.occurrences location = workspace.entities.occurrences location

/-- Whether an occurrence is one of those that some build of a definition found and registered. -/
def Workspace.HasFound (project : Project) (workspace : Workspace) (occurrence : Occurrence) :
    Prop :=
  ∃ definition type selections root occurrences,
    RootField.IsBuilt project workspace.fragment? definition type selections root occurrences
      ∧ workspace.HoldsAll occurrences ∧ occurrence ∈ occurrences

/-- Whether a workspace is as builds leave it, entities have the types on the way to them, and all
places are aligned. -/
structure Workspace.IsAligned (project : Project) (workspace : Workspace) : Prop where
  sound : workspace.IsSound project
  entities : ∀ location entity, workspace.entities.entity? location = some entity →
    entity = project.entityAt location
  found : ∀ location, ∀ occurrence ∈ workspace.entities.occurrences location,
    workspace.HasFound project occurrence
  registered : ∀ location, ∀ occurrence ∈ workspace.entities.occurrences location,
    ∀ place ∈ occurrence.places, place.IsAligned project
  roots : ∀ root, workspace.HasRoot root → ∀ place ∈ root.places, place.IsAligned project

namespace Workspace

variable {project : Project} {workspace later last : Workspace} {root other : RootField}

theorem Preserves.refl (workspace : Workspace) : workspace.Preserves workspace :=
  ⟨fun _ _ => id, fun _ _ => id, fun _ _ => id, fun _ _ _ _ => rfl⟩

theorem Preserves.offers (preserves : workspace.Preserves later)
    (offers : workspace.Offers root) : later.Offers root := by
  rcases offers with ⟨key, shape, found, isRoot⟩ | ⟨name, shape, found, isRoot⟩
  · exact Or.inl ⟨key, shape, preserves.operations key shape found, isRoot⟩
  · exact Or.inr ⟨name, shape, preserves.fragments name shape found, isRoot⟩

theorem Preserves.trans (preserves : workspace.Preserves later) (more : later.Preserves last) :
    workspace.Preserves last where
  fragments name shape found := more.fragments name shape (preserves.fragments name shape found)
  operations key shape found := more.operations key shape (preserves.operations key shape found)
  entities location entity found :=
    more.entities location entity (preserves.entities location entity found)
  occurrences root location offers isHere :=
    (more.occurrences root location (preserves.offers offers) isHere).trans
      (preserves.occurrences root location offers isHere)

/-- The law by which all that is asked for is built. -/
def aligning (project : Project) : Build.Law where
  valid := IsAligned project
  grows workspace later := workspace.Preserves later ∧ later.cache = workspace.cache
  refl workspace := ⟨.refl workspace, rfl⟩
  trans first second := ⟨first.1.trans second.1, second.2.trans first.2⟩

theorem HasFound.mono {occurrence : Occurrence} (hasFound : workspace.HasFound project occurrence)
    (fragments : ∀ name shape, workspace.fragment? name = some shape →
      later.fragment? name = some shape)
    (occurrences : ∀ location, ∀ occurrence ∈ workspace.entities.occurrences location,
      occurrence ∈ later.entities.occurrences location) :
    later.HasFound project occurrence := by
  rcases hasFound with ⟨definition, type, selections, root, others, built, all, mem⟩
  exact ⟨definition, type, selections, root, others, built.mono fragments,
    fun other otherMem => occurrences _ other (all other otherMem), mem⟩

theorem isAligned_empty : empty.IsAligned project where
  sound := isSound_empty
  entities location entity found := by
    simp [empty, EntityTable.entity?, EntityTable.record?, EntityTable.empty, EntityTable.treeOf]
      at found
  found location occurrence mem := by
    simp [empty, EntityTable.occurrences, EntityTable.record?, EntityTable.empty,
      EntityTable.treeOf] at mem
  registered location occurrence mem := by
    simp [empty, EntityTable.occurrences, EntityTable.record?, EntityTable.empty,
      EntityTable.treeOf] at mem
  roots root hasRoot := by simp [HasRoot, empty] at hasRoot

/-- What is built for a definition is found by the definition. -/
theorem IsSound.definition_of_offers (sound : workspace.IsSound project)
    (offers : workspace.Offers root) :
    (∃ key kind shape, workspace.operation? key = some shape ∧ shape.root = root
        ∧ root.definition = .operation key.document kind key.name)
      ∨ ∃ name shape, workspace.fragment? name = some shape ∧ shape.root = root
        ∧ root.definition = .fragment name := by
  rcases offers with ⟨key, shape, found, rfl⟩ | ⟨name, shape, found, rfl⟩
  · rcases List.lookup_eq_some_iff.mp found with ⟨before, after, split, -⟩
    rcases sound.operations key shape (by simp [split]) with
      ⟨_, definition, _, -, -, -, built, -⟩
    exact Or.inl ⟨key, definition.kind, shape, found, rfl, built.depiction.definition_eq⟩
  · rcases sound.isBuilt_of_fragment? found with ⟨_, _, -, rfl, _, _, -, built⟩
    exact Or.inr ⟨_, shape, found, rfl, built.depiction.definition_eq⟩

/-- A definition is built once. -/
theorem IsSound.eq_of_offers (sound : workspace.IsSound project) (offers : workspace.Offers root)
    (otherOffers : workspace.Offers other) (same : root.definition = other.definition) :
    root = other := by
  rcases sound.definition_of_offers offers with
    ⟨key, kind, shape, found, rfl, isDefinition⟩ | ⟨name, shape, found, rfl, isDefinition⟩
  · rcases sound.definition_of_offers otherOffers with
      ⟨otherKey, _, otherShape, otherFound, rfl, isOther⟩ | ⟨_, _, -, -, isOther⟩
    · rw [isDefinition, isOther, DefinitionId.operation.injEq] at same
      rcases key with ⟨_, _⟩
      rcases otherKey with ⟨_, _⟩
      rcases same with ⟨rfl, -, rfl⟩
      rw [Option.some.inj (found.symm.trans otherFound)]
    · rw [isDefinition, isOther] at same
      cases same
  · rcases sound.definition_of_offers otherOffers with
      ⟨_, _, _, -, -, isOther⟩ | ⟨otherName, otherShape, otherFound, rfl, isOther⟩
    · rw [isDefinition, isOther] at same
      cases same
    · rw [isDefinition, isOther, DefinitionId.fragment.injEq] at same
      rw [same] at found
      rw [Option.some.inj (found.symm.trans otherFound)]

end Workspace

namespace Build

variable {project : Project}

/-- No step of a build reports a broken invariant. -/
abbrev Aligns {α : Type} (project : Project) (build : Build α) (succeeds : α → Prop) : Prop :=
  Abides (Workspace.aligning project) (fun error => error.isInternal = false) build succeeds

/-- Asking for an entity by the types on the way gives the one at the location. -/
theorem aligns_entityAt {location : Location} {typePath : List Name}
    (isPath : typePath = project.typePath location) :
    Aligns project (entityAt location typePath) fun entity =>
      entity = project.entityAt location := by
  intro workspace aligned
  rcases ensures_entityAt location typePath workspace aligned.sound trivial with ⟨sound, -, -⟩
  have run : (entityAt location typePath).runIn workspace
      = (.ok (workspace.entities.intern location typePath).1,
          { workspace with entities := (workspace.entities.intern location typePath).2 }) := rfl
  rw [run] at sound ⊢
  rcases intern_eq_entityAt isPath aligned.entities with ⟨isEntity, entities⟩
  refine ⟨⟨sound, entities, ?_, ?_, aligned.roots⟩,
    ⟨⟨fun _ _ => id, fun _ _ => id, ?_, ?_⟩, rfl⟩, isEntity⟩
  · intro other occurrence mem
    rw [EntityTable.occurrences_intern] at mem
    refine (aligned.found other occurrence mem).mono (fun _ _ => id) ?_
    intro other found foundMem
    rw [EntityTable.occurrences_intern]
    exact foundMem
  · intro other occurrence mem
    rw [EntityTable.occurrences_intern] at mem
    exact aligned.registered other occurrence mem
  · exact fun _ _ => EntityTable.entity?_intern_of_some
  · exact fun _ _ _ _ => EntityTable.occurrences_intern

section Selections

variable {nested : Nested} {fragment : Name → Build FragmentShape} {path : List Name}
  {place : Place}

section Parts

variable (ofNested : ∀ path (place : Place) selections, place.IsAligned project →
    Aligns project (nested path place selections) fun built =>
      ∀ other ∈ built.value.places place, other.IsAligned project)
  (aligned : place.IsAligned project)

include ofNested aligned

theorem aligns_field (gathered : GatheredField) :
    Aligns project (field project nested path place gathered) fun built =>
      ∀ summary child tree, built.value = .entity summary child tree →
        ∀ other ∈ tree.places child, other.IsAligned project := by
  simp only [field]
  refine Abides.bind (.ofExcept (Schema.blamesInput_isComposite _).sparesInternal) fun _ _ => ?_
  split
  next =>
    refine Abides.bind (aligns_entityAt ?_) ?_
    · rw [Project.typePath_child, congrArg Entity.typePath aligned.entity_eq]
      rfl
    · rintro _ rfl
      refine Abides.bind (.ofExcept (Place.blamesInput_below _ _).sparesInternal.remember)
        fun child isBelow => ?_
      refine (ofNested _ child _ (aligned.below isBelow)).bind fun built ofBuilt => .pure ?_
      rintro summary inner tree ⟨⟩
      exact ofBuilt
  next =>
    refine .pure ?_
    rintro summary child tree ⟨⟩

theorem aligns_branch {gathered : Narrowing × List Selection}
    (admits : place.scope.admits gathered.1 = true) :
    Aligns project (branch project nested path place gathered) fun outcome =>
      ∀ built ∈ outcome, ∀ key child tree, built.value = .mk key child tree →
        ∀ other ∈ tree.places child, other.IsAligned project := by
  simp only [branch]
  refine Abides.bind (.ofExcept (Place.blamesInput_narrowed admits).sparesInternal.remember)
    fun child narrowed => ?_
  refine (ofNested path child _ (aligned.narrowed narrowed)).bind fun built ofBuilt => ?_
  split
  next =>
    refine .pure ?_
    rintro built ⟨⟩
  next =>
    refine .pure ?_
    rintro _ ⟨⟩ key inner tree ⟨⟩
    exact ofBuilt

end Parts

variable (ofFragment : ∀ name, Aligns project (fragment name) fun _ => True)

include ofFragment

theorem aligns_spread (name : Name) :
    Aligns project (spread fragment path place name) fun built => built.value.place = place := by
  simp only [spread]
  exact (ofFragment name).bind fun _ _ => .pure rfl

theorem aligns_selections (levels : Nat) (path : List Name) (place : Place)
    (written : List Selection) (aligned : place.IsAligned project) :
    Aligns project (selections project fragment levels path place written) fun built =>
      ∀ other ∈ built.value.places place, other.IsAligned project := by
  induction levels generalizing path place written with
  | zero => exact .throw rfl
  | succ levels ih =>
      simp only [selections]
      refine Abides.bind (.ofExcept (Gathered.yields_gatherAll_admits ?_))
        fun gathered admitted => ?_
      · exact fun _ mem => by cases mem
      refine Abides.bind (.mapM fun known _ => aligns_field ih aligned known)
        fun fields ofFields => ?_
      refine Abides.bind (.mapM fun behind mem => aligns_branch ih aligned (admitted behind mem))
        fun branches ofBranches => ?_
      refine Abides.bind (.mapM fun name _ => aligns_spread ofFragment name)
        fun spreads ofSpreads => .pure ?_
      refine SelectionTree.forall_mem_places.mpr ⟨aligned, ?_, ?_, ?_⟩
      · intro spread mem
        rcases List.mem_map.mp mem with ⟨built, builtMem, rfl⟩
        rw [ofSpreads built builtMem]
        exact aligned
      · intro summary child tree mem
        rcases List.mem_map.mp mem with ⟨built, builtMem, isTree⟩
        exact ofFields built builtMem summary child tree isTree
      · intro key child tree mem
        rcases List.mem_map.mp mem with ⟨built, builtMem, isTree⟩
        rcases List.mem_filterMap.mp builtMem with ⟨outcome, outcomeMem, isBuilt⟩
        exact ofBranches outcome outcomeMem built isBuilt key child tree isTree

theorem aligns_root {definition : DefinitionId} {type : Name}
    (isRoot : project.rootType? definition = some type) (name : Name) (written : List Selection) :
    Aligns project (Build.root project fragment definition name type written) fun built =>
      ∀ place ∈ built.value.places, place.IsAligned project := by
  simp only [Build.root]
  refine Abides.bind (aligns_entityAt ?_) ?_
  · simp [Project.typePath, Location.root, isRoot]
  · rintro _ rfl
    refine Abides.bind (.ofExcept (Scope.blamesInput_forType _).sparesInternal.remember)
      fun scope isScope => ?_
    refine (aligns_selections ofFragment _ _ _ _ (.root isRoot isScope)).bind
      fun built ofBuilt => .pure ofBuilt

end Selections

section Placing

variable {site : Place}

/-- Where a spread places what occurs in a fragment, the places are aligned. -/
theorem aligns_placeOccurrence {spreadScope : Scope} {occurrence : Occurrence}
    (aligned : site.IsAligned project) (isFurther : site.scope.path <+: spreadScope.path)
    (ofInside : ∀ place ∈ occurrence.places, place.IsAligned project) (name : Name) :
    Aligns project (placeOccurrence project.schema site spreadScope name occurrence) fun outcome =>
      ∀ outside ∈ outcome, ∀ place ∈ outside.places, place.IsAligned project := by
  have isInside := ofInside _ (SelectionTree.self_mem_places _ _)
  simp only [placeOccurrence]
  refine Abides.bind (.ofExcept (blamesInput_narrowAll? _ _).sparesInternal.remember)
    fun narrowed narrows => ?_
  split
  next =>
    refine .pure ?_
    rintro outside ⟨⟩
  next scope =>
    refine Abides.bind (aligns_entityAt ?_) ?_
    · rcases aligned.types with ⟨type, isRoot, typePath⟩
      rcases isInside.types with ⟨_, -, insidePath⟩
      rw [typePath, insidePath, Project.typePath]
      simp [Location.joined, isRoot]
    · rintro _ rfl
      refine .pure ?_
      rintro outside ⟨⟩
      have further := Scope.path_prefix_of_narrowAll (narrowAll_of_narrowAll? narrows)
      exact SelectionTree.forall_mem_places_of_moved ofInside
        (aligned.placeAt isInside (isFurther.trans further))

theorem aligns_placeSpread {spread : Spread} (aligned : spread.place.IsAligned project) :
    Aligns project (placeSpread project spread) fun found =>
      ∀ occurrence ∈ found, ∀ place ∈ occurrence.places, place.IsAligned project := by
  simp only [placeSpread]
  split
  next => exact .pure fun _ mem => by cases mem
  next document fragment isFragment =>
    refine Abides.bind (.ofExcept (Scope.blamesInput_narrow rfl).sparesInternal.remember)
      fun spreadScope narrowed => ?_
    refine Abides.bind .get fun workspace valid => ?_
    have ofInside : ∀ inside ∈ workspace.fragmentOccurrences spread.name,
        ∀ place ∈ inside.places, place.IsAligned project := by
      intro inside mem
      rw [Workspace.fragmentOccurrences] at mem
      cases found : workspace.fragment? spread.name with
      | none => simp [found] at mem
      | some shape =>
          rw [found] at mem
          exact valid.registered _ inside
            (valid.sound.stored shape (List.mem_of_find?_eq_some found) inside mem)
    have further := Scope.path_prefix_of_narrow narrowed
    refine Abides.bind (.mapM fun inside mem =>
      aligns_placeOccurrence aligned further (ofInside inside mem) _)
      fun placed ofPlaced => .pure ?_
    intro occurrence mem
    rcases List.mem_filterMap.mp mem with ⟨outcome, outcomeMem, isPlaced⟩
    exact ofPlaced outcome outcomeMem occurrence isPlaced

theorem aligns_append {first second : Build (List Occurrence)}
    (ofFirst : Aligns project first fun found =>
      ∀ occurrence ∈ found, ∀ place ∈ occurrence.places, place.IsAligned project)
    (ofSecond : Aligns project second fun found =>
      ∀ occurrence ∈ found, ∀ place ∈ occurrence.places, place.IsAligned project) :
    Aligns project (do let found ← first; return found ++ (← second)) fun found =>
      ∀ occurrence ∈ found, ∀ place ∈ occurrence.places, place.IsAligned project :=
  ofFirst.bind fun _ ofFound => ofSecond.bind fun _ ofMore =>
    .pure (List.forall_mem_append.mpr ⟨ofFound, ofMore⟩)

mutual

/-- What occurs in a tree is aligned if the places in the tree are. -/
theorem aligns_occurrences (place : Place) : (tree : SelectionTree) →
    (∀ other ∈ tree.places place, other.IsAligned project) →
    Aligns project (occurrences project place tree) fun found =>
      ∀ occurrence ∈ found, ∀ place ∈ occurrence.places, place.IsAligned project
  | .mk fields branches spreads, aligned => by
      rcases SelectionTree.forall_mem_places.mp aligned with ⟨-, ofSpreads, ofFields, ofBranches⟩
      simp only [occurrences]
      refine (aligns_occurrencesOfFields fields ofFields).bind fun inFields ofInFields => ?_
      refine (aligns_occurrencesOfBranches branches ofBranches).bind
        fun inBranches ofInBranches => ?_
      refine Abides.bind (.mapM fun spread mem => aligns_placeSpread (ofSpreads spread mem))
        fun placed ofPlaced => .pure ?_
      simp only [List.forall_mem_cons, List.forall_mem_append]
      refine ⟨aligned, ⟨ofInFields, ofInBranches⟩, ?_⟩
      intro occurrence mem
      rcases List.mem_flatten.mp mem with ⟨found, foundMem, mem⟩
      exact ofPlaced found foundMem occurrence mem

theorem aligns_occurrencesOfFields : (fields : List TreeField) →
    (∀ summary child tree, .entity summary child tree ∈ fields →
      ∀ other ∈ tree.places child, other.IsAligned project) →
    Aligns project (occurrencesOfFields project fields) fun found =>
      ∀ occurrence ∈ found, ∀ place ∈ occurrence.places, place.IsAligned project
  | [], _ => .pure fun _ mem => by cases mem
  | .scalar _ :: rest, aligned =>
      aligns_occurrencesOfFields rest fun summary child tree mem =>
        aligned summary child tree (List.mem_cons_of_mem _ mem)
  | .entity summary place tree :: rest, aligned =>
      aligns_append (aligns_occurrences place tree (aligned summary place tree List.mem_cons_self))
        (aligns_occurrencesOfFields rest fun summary child tree mem =>
          aligned summary child tree (List.mem_cons_of_mem _ mem))

theorem aligns_occurrencesOfBranches : (branches : List TreeBranch) →
    (∀ key child tree, .mk key child tree ∈ branches →
      ∀ other ∈ tree.places child, other.IsAligned project) →
    Aligns project (occurrencesOfBranches project branches) fun found =>
      ∀ occurrence ∈ found, ∀ place ∈ occurrence.places, place.IsAligned project
  | [], _ => .pure fun _ mem => by cases mem
  | .mk key place tree :: rest, aligned =>
      aligns_append (aligns_occurrences place tree (aligned key place tree List.mem_cons_self))
        (aligns_occurrencesOfBranches rest fun key child tree mem =>
          aligned key child tree (List.mem_cons_of_mem _ mem))

end

end Placing

theorem aligns_draft {fragment : Name → Build FragmentShape} {definition : DefinitionId}
    {type : Name} (ofFragment : ∀ name, Aligns project (fragment name) fun _ => True)
    (isRoot : project.rootType? definition = some type) (name : Name) (written : List Selection) :
    Aligns project (draft project fragment definition name type written) fun draft =>
      (∀ place ∈ draft.1.value.places, place.IsAligned project)
        ∧ ∀ occurrence ∈ draft.2, ∀ place ∈ occurrence.places, place.IsAligned project := by
  simp only [draft]
  refine (aligns_root ofFragment isRoot name written).bind fun built ofBuilt => ?_
  refine (aligns_occurrences built.value.place built.value.selections ofBuilt).bind
    fun found ofFound => .pure ⟨ofBuilt, ofFound⟩

end Build

end ResponseShape
