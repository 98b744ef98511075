import ResponseShape.Proofs.Workspace.Agreement
import ResponseShape.Proofs.Workspace.Building

/-!
# Settled workspaces

What a workspace holds is settled if it depends on the project alone. Then an entity has the types
on the way to it, whoever allocated it. A definition that is built is built as in an empty
workspace, and all that is registered for its entities is what was found then; nothing is registered
for one that is not built. What builds do in settled workspaces is therefore the same in all of
them.
-/

namespace ResponseShape

/-- The type that a definition selects on. -/
def Project.rootType? (project : Project) : DefinitionId → Option Name
  | .fragment name => (project.compilation.spreadFragment? name).map (·.typeCondition)
  | .operation index _ name =>
      project.compilation.documents[index]?.bind fun document =>
        (document.document.operation? name).map (·.rootType)

/-- The types on the way to a location, that of its definition first. -/
def Project.typePath (project : Project) (location : Location) : List Name :=
  (project.rootType? location.definition).toList ++ location.steps.map (·.type)

/-- The entity at a location. -/
def Project.entityAt (project : Project) (location : Location) : Entity :=
  ⟨location, project.typePath location⟩

/-- Whether an entity belongs to a definition, and has the types on the way to it. -/
structure Entity.IsOf (project : Project) (definition : DefinitionId) (entity : Entity) : Prop where
  definition : entity.location.definition = definition
  isEntity : entity = project.entityAt entity.location

theorem Project.typePath_child (project : Project) (location : Location) (key type : Name) :
    project.typePath (location.child key type) = project.typePath location ++ [type] := by
  simp [typePath, Location.child, Location.joined]

theorem Entity.IsOf.isOf_child {project : Project} {definition : DefinitionId} {entity : Entity}
    (isOf : entity.IsOf project definition) (key type : Name) :
    (project.entityAt (entity.location.child key type)).IsOf project definition :=
  ⟨isOf.definition, rfl⟩

theorem Entity.IsOf.typePath {project : Project} {definition : DefinitionId} {entity : Entity}
    (isOf : entity.IsOf project definition) :
    entity.typePath = project.typePath entity.location :=
  congrArg Entity.typePath isOf.isEntity

namespace Build

/-- What building a definition finds before anything is registered: its root field with what it
mentions, and its occurrences. -/
def draft (project : Project) (fragment : Name → Build FragmentShape) (definition : DefinitionId)
    (name type : Name) (written : List Selection) : Build (Built RootField × List Occurrence) := do
  let built ← root project fragment definition name type written
  let found ← occurrences project built.value.place built.value.selections
  return (built, found)

/-- What is found for a definition is what it consists of, with the fragments built by then. -/
theorem ensures_draft {project : Project} {fragment : Name → Build FragmentShape}
    (ofFragment : ∀ name, Ensures (Workspace.law project) (fun _ => True) (fragment name)
      fun _ workspace => ∃ shape, workspace.fragment? name = some shape)
    (definition : DefinitionId) (name type : Name) (written : List Selection) :
    Ensures (Workspace.law project) (fun _ => True)
      (draft project fragment definition name type written) fun draft workspace =>
        draft.1.value.IsBuilt project workspace.fragment? definition type written draft.2 := by
  simp only [draft]
  apply Ensures.bind (ensures_root ofFragment definition name type written)
  intro built
  apply Ensures.assuming
  intro depiction
  apply Ensures.bind (ensures_isBuilt depiction)
  intro found
  exact Ensures.pure fun _ isBuilt => isBuilt

/-- What building a fragment finds. -/
def fragmentDraft (project : Project) (fragment : Name → Build FragmentShape)
    (definition : Fragment) : Build (Built RootField × List Occurrence) :=
  draft project fragment (.fragment definition.name) definition.name definition.typeCondition
    definition.selections

/-- What building an operation of the document at an index finds. -/
def operationDraft (project : Project) (index : Nat) (definition : Operation) :
    Build (Built RootField × List Occurrence) :=
  draft project (fragment project) (.operation index definition.kind definition.name) "data"
    definition.rootType definition.selections

end Build

/-- The shape of a fragment in which the given was found. -/
def Fragment.shape (definition : Fragment) (document : DocumentFile)
    (draft : Built RootField × List Occurrence) : FragmentShape where
  name := definition.name
  typeCondition := definition.typeCondition
  root := draft.1.value
  mentions := draft.1.mentions
  source := document.path
  occurrences := draft.2

/-- The shape of an operation in which the given was found. -/
def Operation.shape (definition : Operation) (document : DocumentFile)
    (draft : Built RootField × List Occurrence) : OperationShape where
  name := definition.name
  kind := definition.kind
  root := draft.1.value
  mentions := draft.1.mentions
  source := document.path

/-- Whether all that is registered for the entities of a definition is what was found for it. -/
structure Workspace.IsFilled (project : Project) (workspace : Workspace) (definition : DefinitionId)
    (occurrences : List Occurrence) : Prop where
  registers : workspace.Registers definition occurrences
  isOf : ∀ occurrence ∈ occurrences, occurrence.place.entity.IsOf project definition

/-- Whether what a workspace holds depends on the project alone. -/
structure Workspace.IsSettled (project : Project) (workspace : Workspace) : Prop where
  sound : workspace.IsSound project
  entities : ∀ location entity, workspace.entities.entity? location = some entity →
    entity = project.entityAt location
  fragments : ∀ name shape, workspace.fragment? name = some shape → ∃ document definition draft,
    project.compilation.fragment? name = some (document, definition)
      ∧ ((Build.fragmentDraft project (Build.fragment project) definition).runIn .empty).1
        = .ok draft
      ∧ shape = definition.shape document draft
      ∧ workspace.IsFilled project (.fragment name) draft.2
  unbuilt : ∀ name steps, workspace.fragment? name = none →
    workspace.entities.occurrences ⟨.fragment name, steps⟩ = []
  operations : ∀ key shape, workspace.operation? key = some shape → ∃ document definition draft,
    project.compilation.documents[key.document]? = some document
      ∧ document.document.operation? key.name = some definition
      ∧ ((Build.operationDraft project key.document definition).runIn .empty).1 = .ok draft
      ∧ shape = definition.shape document draft
      ∧ workspace.IsFilled project (.operation key.document definition.kind key.name) draft.2

namespace Workspace

variable {project : Project} {workspace later : Workspace} {reached further : Name → Prop}

/-- How a workspace may change while something is built that reaches certain fragments. -/
structure Reaches (reached : Name → Prop) (workspace later : Workspace) : Prop
    extends Workspace.Grows workspace later where
  others : ∀ name, ¬reached name → later.fragment? name = workspace.fragment? name
  cache : later.cache = workspace.cache

theorem Reaches.mono (reaches : Reaches reached workspace later)
    (more : ∀ name, reached name → further name) : Reaches further workspace later :=
  { reaches with
    others := fun name isOther =>
      reaches.others name fun isReached => isOther (more name isReached) }

/-- The law by which definitions are built in settled workspaces. -/
def settling (project : Project) (reached : Name → Prop) : Build.Law where
  valid := IsSettled project
  grows := Reaches reached
  refl workspace := ⟨.refl workspace, fun _ _ => rfl, rfl⟩
  trans reaches more :=
    ⟨reaches.toGrows.trans more.toGrows,
      fun name isOther => (more.others name isOther).trans (reaches.others name isOther),
      more.cache.trans reaches.cache⟩

/-- How a workspace may change from one call to another: what is built stays built. -/
structure Keeps (workspace later : Workspace) : Prop where
  fragments : ∀ name shape, workspace.fragment? name = some shape →
    later.fragment? name = some shape
  operations : ∀ key shape, workspace.operation? key = some shape →
    later.operation? key = some shape
  cache : later.cache = workspace.cache

/-- The law by which calls to build something are answered in settled workspaces. -/
def answering (project : Project) : Build.Law where
  valid := IsSettled project
  grows := Keeps
  refl _ := ⟨fun _ _ => id, fun _ _ => id, rfl⟩
  trans keeps more :=
    ⟨fun name shape found => more.fragments name shape (keeps.fragments name shape found),
      fun key shape found => more.operations key shape (keeps.operations key shape found),
      more.cache.trans keeps.cache⟩

theorem Reaches.keeps (reaches : Reaches reached workspace later) : workspace.Keeps later where
  fragments _ _ found := reaches.toGrows.fragment?_eq_some found
  operations key shape found := by
    rw [operation?, reaches.operations]
    exact found
  cache := reaches.cache

theorem isSettled_empty : empty.IsSettled project where
  sound := isSound_empty
  entities location entity found := by
    simp [empty, EntityTable.entity?, EntityTable.record?, EntityTable.empty, EntityTable.treeOf]
      at found
  fragments name shape found := by simp [empty, fragment?] at found
  unbuilt name steps _ := by
    simp [empty, EntityTable.occurrences, EntityTable.record?, EntityTable.empty,
      EntityTable.treeOf]
  operations key shape found := by simp [empty, operation?] at found

end Workspace

namespace Build.Agree

variable {α : Type} {project : Project} {reached further : Name → Prop}
  {before : Workspace → Prop} {build other : Build α} {after : α → Workspace → Prop}

theorem mono (agree : Agree (Workspace.settling project reached) before build other after)
    (more : ∀ name, reached name → further name) :
    Agree (Workspace.settling project further) before build other after :=
  agree.loosen rfl fun _ _ reaches => Workspace.Reaches.mono reaches more

/-- What agrees while a definition is built agrees from call to call. -/
theorem answering (agree : Agree (Workspace.settling project reached) before build other after) :
    Agree (Workspace.answering project) before build other after :=
  agree.loosen rfl fun _ _ => Workspace.Reaches.keeps

theorem also {extra : α → Workspace → Prop}
    (agree : Agree (Workspace.settling project reached) before build other after)
    (left : Ensures (Workspace.law project) before build extra)
    (right : Ensures (Workspace.law project) before other extra) :
    Agree (Workspace.settling project reached) before build other
      fun value workspace => after value workspace ∧ extra value workspace :=
  ⟨agree.left.also left fun _ => Workspace.IsSettled.sound,
    agree.right.also right fun _ => Workspace.IsSettled.sound, agree.same⟩

end Build.Agree

namespace Build

variable {project : Project} {reached : Name → Prop} {location : Location}

/-- Where entities have the types on the way to them, so has the one that is asked for. -/
theorem intern_eq_entityAt {table : EntityTable} {typePath : List Name}
    (isPath : typePath = project.typePath location)
    (known : ∀ other entity, table.entity? other = some entity → entity = project.entityAt other) :
    (table.intern location typePath).1 = project.entityAt location
      ∧ ∀ other entity, (table.intern location typePath).2.entity? other = some entity →
        entity = project.entityAt other := by
  have isNew : Entity.mk location typePath = project.entityAt location := by rw [isPath]; rfl
  simp only [EntityTable.intern]
  split
  next entity found => exact ⟨known location entity found, known⟩
  next =>
    refine ⟨isNew, ?_⟩
    intro other entity found
    simp only [EntityTable.entity?, EntityTable.record?_update] at found
    split at found
    next same =>
      rw [Option.map_some, Option.some.injEq] at found
      rw [← found, same]
      exact isNew
    next => exact known other entity found

theorem agree_entityAt {typePath : List Name} (isPath : typePath = project.typePath location) :
    Agree (Workspace.settling project reached) (fun _ => True) (entityAt location typePath)
      (entityAt location typePath) fun entity _ => entity = project.entityAt location := by
  have ensures : Ensures (Workspace.settling project reached) (fun _ => True)
      (entityAt location typePath) fun entity _ => entity = project.entityAt location := by
    intro workspace settled _
    rcases ensures_entityAt location typePath workspace settled.sound trivial with
      ⟨sound, grows, -⟩
    have run : (entityAt location typePath).runIn workspace
        = (.ok (workspace.entities.intern location typePath).1,
            { workspace with entities := (workspace.entities.intern location typePath).2 }) := rfl
    rw [run] at sound grows ⊢
    rcases intern_eq_entityAt isPath settled.entities with ⟨isEntity, entities⟩
    have filled {definition : DefinitionId} {occurrences : List Occurrence}
        (isFilled : workspace.IsFilled project definition occurrences) :
        Workspace.IsFilled project
          { workspace with entities := (workspace.entities.intern location typePath).2 }
          definition occurrences := by
      refine ⟨fun other isHere => ?_, isFilled.isOf⟩
      rw [EntityTable.occurrences_intern]
      exact isFilled.registers other isHere
    refine ⟨⟨sound, entities, ?_, ?_, ?_⟩, ⟨grows, fun _ _ => rfl, rfl⟩, ?_⟩
    · intro name shape found
      rcases settled.fragments name shape found with
        ⟨document, definition, draft, isDefined, drafts, isShape, isFilled⟩
      exact ⟨document, definition, draft, isDefined, drafts, isShape, filled isFilled⟩
    · intro name steps isUnbuilt
      rw [EntityTable.occurrences_intern]
      exact settled.unbuilt name steps isUnbuilt
    · intro key shape found
      rcases settled.operations key shape found with
        ⟨document, definition, draft, isDocument, isDefined, drafts, isShape, isFilled⟩
      exact ⟨document, definition, draft, isDocument, isDefined, drafts, isShape, filled isFilled⟩
    · intro entity same
      rw [← Except.ok.inj same]
      exact isEntity
  refine ⟨ensures, ensures, ?_⟩
  intro workspace twin settled twinSettled _ _
  have isEntity := (ensures workspace settled trivial).2.2 _ rfl
  have isTwin := (ensures twin twinSettled trivial).2.2 _ rfl
  exact congrArg Except.ok (isEntity.trans isTwin.symm)

end Build

end ResponseShape
