import ResponseShape.Proofs.Definition.Spreading
import ResponseShape.Proofs.Workspace.Settled

/-!
# Drafts agree

What is found for a definition in a settled workspace depends on the fragments that it spreads
only. If two builders of fragments agree on these, they find the same (`Build.agree_draft`). The
proofs follow the parts of a selection set: whatever is gathered spreads no more than was written
(`Gathered.spreads_of_gatherAll`), so the builders are asked for no other fragments.
-/

namespace ResponseShape

variable {project : Project}

namespace Build

variable {reached : Name → Prop} {definition : DefinitionId}
  {fragment other : Name → Build FragmentShape}

/-- Whether all that is written in a tree belongs to a definition. -/
def IsOfAll (project : Project) (definition : DefinitionId) (place : Place)
    (tree : SelectionTree) : Prop :=
  ∀ member ∈ tree.writtenSets place, member.1.entity.IsOf project definition

section Selections

variable {nested otherNested : Nested} {path : List Name} {place : Place}
  {knows : Name → Prop}
  (ofNested : ∀ path (place : Place) selections, place.entity.IsOf project definition →
    (∀ name ∈ Selection.spreadsOfAll selections, knows name) →
    Agree (Workspace.settling project reached) (fun _ => True) (nested path place selections)
      (otherNested path place selections)
      fun built _ => IsOfAll project definition place built.value)
  (isOf : place.entity.IsOf project definition)

include ofNested isOf

theorem agree_field {gathered : GatheredField}
    (isKnown : ∀ name ∈ Selection.spreadsOfAll gathered.selections, knows name) :
    Agree (Workspace.settling project reached) (fun _ => True)
      (field project nested path place gathered) (field project otherNested path place gathered)
      fun built _ => ∀ summary child tree, built.value = .entity summary child tree →
        IsOfAll project definition child tree := by
  simp only [field]
  apply Agree.bind (.ofExcept _)
  intro isComposite
  apply Agree.given
  intro _
  split
  next =>
    apply Agree.bind (agree_entityAt ?_)
    · intro entity
      apply Agree.given
      rintro rfl
      apply Agree.bind (.ofExcept _)
      intro child
      apply Agree.given
      intro isBelow
      have isChild : child.entity.IsOf project definition := by
        simp only [Place.below, Except.map] at isBelow
        split at isBelow
        next => cases isBelow
        next scope isRoot =>
          rcases Except.ok.inj isBelow with rfl
          exact isOf.isOf_child _ _
      apply Agree.bind (ofNested _ child gathered.selections isChild isKnown)
      intro built
      apply Agree.pure
      rintro workspace ofBuilt summary inner tree ⟨⟩
      exact ofBuilt
    · rw [isOf.typePath, Project.typePath_child]
  next =>
    apply Agree.pure
    rintro workspace _ summary child tree ⟨⟩

theorem agree_branch {gathered : Narrowing × List Selection}
    (isKnown : ∀ name ∈ Selection.spreadsOfAll gathered.2, knows name) :
    Agree (Workspace.settling project reached) (fun _ => True)
      (branch project nested path place gathered) (branch project otherNested path place gathered)
      fun outcome _ => ∀ built ∈ outcome, ∀ key child tree, built.value = .mk key child tree →
        IsOfAll project definition child tree := by
  rcases gathered with ⟨key, selections⟩
  simp only [branch]
  apply Agree.bind (.ofExcept _)
  intro child
  apply Agree.given
  intro narrowed
  have isChild : child.entity.IsOf project definition := by
    rw [(Place.narrowed_eq_ok narrowed).2.1]
    exact isOf
  apply Agree.bind (ofNested path child selections isChild isKnown)
  intro built
  split
  next =>
    apply Agree.pure
    rintro workspace _ built ⟨⟩
  next =>
    apply Agree.pure
    rintro workspace ofBuilt _ ⟨⟩ key inner tree ⟨⟩
    exact ofBuilt

end Selections

/-- A tree is built alike wherever its fragments are. -/
theorem agree_selections (levels : Nat) (path : List Name) (place : Place)
    (written : List Selection) (isOf : place.entity.IsOf project definition)
    (ofFragments : ∀ name ∈ Selection.spreadsOfAll written,
      Agree (Workspace.settling project reached) (fun _ => True) (fragment name) (other name)
        fun _ _ => True) :
    Agree (Workspace.settling project reached) (fun _ => True)
      (selections project fragment levels path place written)
      (selections project other levels path place written)
      fun built _ => IsOfAll project definition place built.value := by
  induction levels generalizing path place written with
  | zero => exact .throw _
  | succ levels ih =>
      simp only [selections]
      apply Agree.bind (.ofExcept _)
      intro gathered
      apply Agree.given
      intro gathers
      have among := Gathered.spreads_of_gatherAll gathers
      apply Agree.bind (.mapM (fun known mem =>
          agree_field ih isOf fun name isSpread =>
            ofFragments name (among.fields known mem name isSpread))
        (fun _ _ _ _ _ same => same) fun _ _ _ same => same)
      intro fields
      apply Agree.given
      intro ofFields
      apply Agree.bind (.mapM (fun behind mem =>
          agree_branch ih isOf fun name isSpread =>
            ofFragments name (among.branches behind mem name isSpread))
        (fun _ _ _ _ _ same => same) fun _ _ _ same => same)
      intro branches
      apply Agree.given
      intro ofBranches
      apply Agree.bind (Agree.forEach fun name mem => ?_)
      · intro spreads
        apply Agree.pure
        intro workspace _ member mem
        rcases SelectionTree.mem_writtenSets.mp mem with
          rfl | ⟨summary, child, tree, treeMem, below⟩ | ⟨key, child, tree, treeMem, below⟩
        · exact isOf
        · rcases List.mem_map.mp treeMem with ⟨built, builtMem, isTree⟩
          rcases exists_mem_of_forall₂_right ofFields builtMem with ⟨known, -, ofField⟩
          exact ofField summary child tree isTree member below
        · rcases List.mem_map.mp treeMem with ⟨built, builtMem, isTree⟩
          rcases List.mem_filterMap.mp builtMem with ⟨outcome, outcomeMem, isBuilt⟩
          rcases exists_mem_of_forall₂_right ofBranches outcomeMem with ⟨behind, -, ofBranch⟩
          exact ofBranch built isBuilt key child tree isTree member below
      · simp only [spread]
        apply Agree.bind (ofFragments name (among.spreads name mem))
        intro shape
        exact Agree.pure fun _ _ => trivial

section Placing

variable {site inside : Place} {name : Name}

/-- Below a site, an entity inside a fragment has the types on the way to it. -/
theorem typePath_joined (isOf : site.entity.IsOf project definition)
    (isInside : inside.entity.IsOf project (.fragment name))
    (isDefined : ∃ fragment, project.compilation.spreadFragment? name = some fragment) :
    site.entity.typePath ++ inside.entity.typePath.tail
      = project.typePath (site.entity.location.joined inside.entity.location.steps) := by
  rcases isDefined with ⟨fragment, isFragment⟩
  have isTail : inside.entity.typePath.tail = inside.entity.location.steps.map (·.type) := by
    rw [isInside.typePath, Project.typePath, isInside.definition]
    simp [Project.rootType?, isFragment]
  rw [isTail, isOf.typePath]
  simp [Project.typePath, Location.joined]

theorem agree_placeOccurrence {spreadScope : Scope} {occurrence : Occurrence}
    (isOf : site.entity.IsOf project definition)
    (isInside : occurrence.place.entity.IsOf project (.fragment name))
    (isDefined : ∃ fragment, project.compilation.spreadFragment? name = some fragment) :
    Agree (Workspace.settling project reached) (fun _ => True)
      (placeOccurrence project.schema site spreadScope name occurrence)
      (placeOccurrence project.schema site spreadScope name occurrence)
      fun outcome _ => ∀ outside ∈ outcome, outside.place.entity.IsOf project definition := by
  simp only [placeOccurrence]
  apply Agree.bind (.ofExcept _)
  intro narrowed
  apply Agree.anywhere
  split
  next =>
    apply Agree.pure
    rintro workspace _ outside ⟨⟩
  next scope =>
    apply Agree.bind (agree_entityAt (typePath_joined isOf isInside isDefined))
    intro entity
    apply Agree.given
    rintro rfl
    apply Agree.pure
    rintro workspace _ _ ⟨⟩
    have isPlaced : (placeAt site occurrence.place (project.entityAt
        (site.entity.location.joined occurrence.place.entity.location.steps)) scope).entity
        = project.entityAt
          (site.entity.location.joined occurrence.place.entity.location.steps) := by
      simp only [placeAt]
      split <;> rfl
    simp only [isPlaced]
    exact ⟨isOf.definition, rfl⟩

end Placing

/-- Whether all fragments of some names are built. -/
def AreBuilt (needs : Name → Prop) (workspace : Workspace) : Prop :=
  ∀ name, needs name → ∃ shape, workspace.fragment? name = some shape

theorem AreBuilt.mono {needs : Name → Prop} (first second : Workspace)
    (grows : (Workspace.settling project reached).grows first second)
    (areBuilt : AreBuilt needs first) : AreBuilt needs second := by
  intro name isNeeded
  rcases areBuilt name isNeeded with ⟨shape, found⟩
  exact ⟨shape, grows.toGrows.fragment?_eq_some found⟩

/-- Whether a spread is made at a place of the definition, and of a fragment that is defined and
needed. -/
structure IsSpreadOf (project : Project) (definition : DefinitionId) (needs : Name → Prop)
    (spread : Spread) : Prop where
  isOf : spread.place.entity.IsOf project definition
  isDefined : ∃ fragment, project.compilation.spreadFragment? spread.name = some fragment
  isNeeded : needs spread.name

/-- What a built fragment has placed is the same everywhere. -/
theorem agree_placeSpread {needs : Name → Prop} {spread : Spread}
    (isSpread : IsSpreadOf project definition needs spread) :
    Agree (Workspace.settling project reached) (AreBuilt needs) (placeSpread project spread)
      (placeSpread project spread)
      fun found _ => ∀ occurrence ∈ found, occurrence.place.entity.IsOf project definition := by
  rcases isSpread.isDefined with ⟨condition, isFragment⟩
  rcases Compilation.exists_fragment?_of_spreadFragment? isFragment with ⟨document, found⟩
  simp only [placeSpread, found]
  -- Of a fragment that is built, every settled workspace holds what an empty one would draft.
  have ofBuilt (workspace : Workspace) (settled : workspace.IsSettled project)
      (areBuilt : AreBuilt needs workspace) : ∃ draft,
      ((fragmentDraft project (Build.fragment project) condition).runIn .empty).1 = .ok draft
        ∧ workspace.fragmentOccurrences spread.name = draft.2
        ∧ ∀ occurrence ∈ draft.2,
          occurrence.place.entity.IsOf project (.fragment spread.name) := by
    rcases areBuilt spread.name isSpread.isNeeded with ⟨shape, isShape⟩
    rcases settled.fragments spread.name shape isShape with
      ⟨_, _, draft, isDefined, drafts, rfl, isFilled⟩
    rcases Prod.mk.inj (Option.some.inj (found.symm.trans isDefined)) with ⟨rfl, rfl⟩
    refine ⟨draft, drafts, ?_, isFilled.isOf⟩
    rw [Workspace.fragmentOccurrences, isShape, Option.map_some, Option.getD_some]
    rfl
  have placing (spreadScope : Scope) (inside : List Occurrence)
      (isInside : ∀ occurrence ∈ inside,
        occurrence.place.entity.IsOf project (.fragment spread.name)) :
      Agree (Workspace.settling project reached) (AreBuilt needs)
        (do
          let placed ← inside.mapM
            (placeOccurrence project.schema spread.place spreadScope spread.name)
          return placed.filterMap id)
        (do
          let placed ← inside.mapM
            (placeOccurrence project.schema spread.place spreadScope spread.name)
          return placed.filterMap id)
        fun found _ => ∀ occurrence ∈ found, occurrence.place.entity.IsOf project definition := by
    apply Agree.anywhere
    apply Agree.bind (.mapM (fun occurrence mem => agree_placeOccurrence isSpread.isOf
      (isInside occurrence mem) isSpread.isDefined) (fun _ _ _ _ _ same => same)
        fun _ _ _ same => same)
    intro placed
    apply Agree.given
    intro ofPlaced
    apply Agree.pure
    intro workspace _ occurrence mem
    rcases List.mem_filterMap.mp mem with ⟨outcome, outcomeMem, isPlaced⟩
    rcases exists_mem_of_forall₂_right ofPlaced outcomeMem with ⟨_, -, isOf⟩
    exact isOf occurrence isPlaced
  apply Agree.andThen (Agree.anywhere ((Agree.ofExcept _).weaken fun _ _ _ => trivial)) .mono
  intro spreadScope _
  refine Agree.read (·.fragmentOccurrences spread.name) ?_ ?_ (placing spreadScope)
  · intro workspace twin settled twinSettled areBuilt twinBuilt
    rcases ofBuilt workspace settled areBuilt with ⟨draft, drafts, same, -⟩
    rcases ofBuilt twin twinSettled twinBuilt with ⟨twinDraft, twinDrafts, twinSame, -⟩
    rcases Except.ok.inj (drafts.symm.trans twinDrafts) with rfl
    exact same.trans twinSame.symm
  · intro workspace settled areBuilt
    rcases ofBuilt workspace settled areBuilt with ⟨draft, -, same, isOf⟩
    rw [same]
    exact isOf

/-- Whether what is written belongs to a definition, and spreads fragments that are needed. -/
def IsDraftOf (project : Project) (definition : DefinitionId) (needs : Name → Prop)
    (members : List (Place × SelectionTree)) : Prop :=
  ∀ member ∈ members, member.1.entity.IsOf project definition
    ∧ ∀ spread ∈ member.2.spreads, IsSpreadOf project definition needs spread

section Occurrences

variable {needs : Name → Prop}

theorem agree_append {first second : Build (List Occurrence)}
    (ofFirst : Agree (Workspace.settling project reached) (AreBuilt needs) first first
      fun found _ => ∀ occurrence ∈ found, occurrence.place.entity.IsOf project definition)
    (ofSecond : Agree (Workspace.settling project reached) (AreBuilt needs) second second
      fun found _ => ∀ occurrence ∈ found, occurrence.place.entity.IsOf project definition) :
    Agree (Workspace.settling project reached) (AreBuilt needs)
      (do let found ← first; return found ++ (← second))
      (do let found ← first; return found ++ (← second))
      fun found _ => ∀ occurrence ∈ found, occurrence.place.entity.IsOf project definition := by
  apply ofFirst.andThen .mono
  intro found isOf
  apply ofSecond.andThen .mono
  intro more alsoOf
  exact Agree.pure fun _ _ => List.forall_mem_append.mpr ⟨isOf, alsoOf⟩

mutual

/-- The occurrences of a tree are the same everywhere. -/
theorem agree_occurrences (place : Place) : (tree : SelectionTree) →
    IsDraftOf project definition needs (tree.writtenSets place) →
    Agree (Workspace.settling project reached) (AreBuilt needs) (occurrences project place tree)
      (occurrences project place tree)
      fun found _ => ∀ occurrence ∈ found, occurrence.place.entity.IsOf project definition
  | .mk fields branches spreads, isDraft => by
      simp only [SelectionTree.writtenSets, IsDraftOf, List.forall_mem_cons,
        List.forall_mem_append] at isDraft
      rcases isDraft with ⟨⟨isOf, areSpreads⟩, ofFields, ofBranches⟩
      simp only [occurrences]
      apply (agree_occurrencesOfFields fields ofFields).andThen .mono
      intro foundInFields inFields
      apply (agree_occurrencesOfBranches branches ofBranches).andThen .mono
      intro foundInBranches inBranches
      apply Agree.bind (.mapM (fun spread mem => agree_placeSpread (areSpreads spread mem))
        (fun _ _ _ _ _ same => same) .mono)
      intro placed
      apply Agree.given
      intro ofPlaced
      apply Agree.pure
      intro workspace _
      simp only [List.forall_mem_cons, List.forall_mem_append]
      refine ⟨isOf, ⟨inFields, inBranches⟩, ?_⟩
      intro occurrence mem
      rcases List.mem_flatten.mp mem with ⟨found, foundMem, mem⟩
      rcases exists_mem_of_forall₂_right ofPlaced foundMem with ⟨_, -, isOf⟩
      exact isOf occurrence mem

theorem agree_occurrencesOfFields : (fields : List TreeField) →
    IsDraftOf project definition needs (SelectionTree.writtenSetsOfFields fields) →
    Agree (Workspace.settling project reached) (AreBuilt needs)
      (occurrencesOfFields project fields) (occurrencesOfFields project fields)
      fun found _ => ∀ occurrence ∈ found, occurrence.place.entity.IsOf project definition
  | [], _ => by
      simp only [occurrencesOfFields]
      exact Agree.pure fun _ _ => by simp
  | .scalar _ :: rest, isDraft => by
      simp only [SelectionTree.writtenSetsOfFields] at isDraft
      simp only [occurrencesOfFields]
      exact agree_occurrencesOfFields rest isDraft
  | .entity _ place tree :: rest, isDraft => by
      simp only [SelectionTree.writtenSetsOfFields, IsDraftOf, List.forall_mem_append] at isDraft
      simp only [occurrencesOfFields]
      exact agree_append (agree_occurrences place tree isDraft.1)
        (agree_occurrencesOfFields rest isDraft.2)

theorem agree_occurrencesOfBranches : (branches : List TreeBranch) →
    IsDraftOf project definition needs (SelectionTree.writtenSetsOfBranches branches) →
    Agree (Workspace.settling project reached) (AreBuilt needs)
      (occurrencesOfBranches project branches) (occurrencesOfBranches project branches)
      fun found _ => ∀ occurrence ∈ found, occurrence.place.entity.IsOf project definition
  | [], _ => by
      simp only [occurrencesOfBranches]
      exact Agree.pure fun _ _ => by simp
  | .mk _ place tree :: rest, isDraft => by
      simp only [SelectionTree.writtenSetsOfBranches, IsDraftOf, List.forall_mem_append] at isDraft
      simp only [occurrencesOfBranches]
      exact agree_append (agree_occurrences place tree isDraft.1)
        (agree_occurrencesOfBranches rest isDraft.2)

end

end Occurrences

/-- Builders of fragments that leave the fragments they are asked for built. -/
def IsBuilder (project : Project) (fragment : Name → Build FragmentShape) : Prop :=
  ∀ name, Ensures (Workspace.law project) (fun _ => True) (fragment name)
    fun _ workspace => ∃ shape, workspace.fragment? name = some shape

/-- What is found for a definition is the same everywhere, if the fragments that it spreads are. -/
theorem agree_draft {type : Name} {written : List Selection} (name : Name)
    (isRoot : project.rootType? definition = some type)
    (isBuilder : IsBuilder project fragment) (otherIsBuilder : IsBuilder project other)
    (ofFragments : ∀ name ∈ Selection.spreadsOfAll written,
      Agree (Workspace.settling project reached) (fun _ => True) (fragment name) (other name)
        fun _ _ => True) :
    Agree (Workspace.settling project reached) (fun _ => True)
      (draft project fragment definition name type written)
      (draft project other definition name type written)
      fun draft _ => ∀ occurrence ∈ draft.2, occurrence.place.entity.IsOf project definition := by
  have isPath : [type] = project.typePath (.root definition) := by
    simp [Project.typePath, Location.root, isRoot]
  have ofRoot : Agree (Workspace.settling project reached) (fun _ => True)
      (root project fragment definition name type written)
      (root project other definition name type written)
      fun built _ => IsOfAll project definition built.value.place built.value.selections := by
    simp only [root]
    apply Agree.bind (agree_entityAt isPath)
    intro entity
    apply Agree.given
    rintro rfl
    apply Agree.bind (.ofExcept _)
    intro scope
    apply Agree.anywhere
    apply Agree.bind (agree_selections _ _ ⟨_, [], scope⟩ _ ⟨rfl, rfl⟩ ofFragments)
    intro built
    exact Agree.pure fun _ ofBuilt => ofBuilt
  have resolved := ofRoot.also (ensures_root isBuilder definition name type written)
    (ensures_root otherIsBuilder definition name type written)
  simp only [draft]
  apply resolved.bind
  intro built
  let needs (name : Name) : Prop := ∃ member ∈ built.value.writtenSets,
    ∃ spread ∈ member.2.spreads, spread.name = name
  apply Agree.strengthen (?_ : Agree _ (fun workspace =>
    IsDraftOf project definition needs built.value.writtenSets ∧ AreBuilt needs workspace) _ _ _) ?_
  · apply Agree.assuming
    intro isDraft
    apply (agree_occurrences built.value.place built.value.selections isDraft).andThen .mono
    intro found isOf
    exact Agree.pure fun _ _ => isOf
  · rintro workspace ⟨isOfAll, depiction, areResolved⟩
    constructor
    · intro member mem
      refine ⟨isOfAll member mem, fun spread spreadMem => ?_⟩
      have isOf := isOfAll member mem
      rw [← depiction.place_of_spread mem spreadMem] at isOf
      exact ⟨isOf, (areResolved member mem spread spreadMem).2, member, mem, spread,
        spreadMem, rfl⟩
    · rintro name ⟨member, mem, spread, spreadMem, rfl⟩
      exact (areResolved member mem spread spreadMem).1

end Build

end ResponseShape
