import ResponseShape.Proofs.Definition.Placing
import ResponseShape.Proofs.Entity.Registration

/-!
# Sound workspaces

What every workspace satisfies. Entities are found at their locations. Whatever is registered
depicts selections of some definition, in a scope that knows all that the selections rely on. A
fragment was built from those before it, and an operation from the fragments that are built; the
occurrences of an operation's entities are those of the operation. All that occurs in a fragment is
registered, and what is registered for the entities of a fragment occurs in some build of it.
-/

namespace ResponseShape

variable {project : Project}

/-- Whether an occurrence depicts selections, in a scope that knows what they rely on. -/
structure Occurrence.IsSound (project : Project) (occurrence : Occurrence) : Prop where
  scope : Scope.Reachable project.schema occurrence.place.scope
  depicts : ∃ levels place selections,
    Depicts project levels place selections occurrence.selections
      ∧ Scope.Reachable project.schema place.scope
      ∧ place.scope.IsKnownIn occurrence.place.scope

/-- Whether a place lies within a definition that is made on the given type. -/
structure Place.IsRooted (definition : DefinitionId) (type : Name) (place : Place) : Prop where
  definition : place.entity.location.definition = definition
  type : ∃ rest, place.rootScope.path = .onType type :: rest

/-- Whether a root field depicts the selections of a definition. -/
structure RootField.IsDepiction (project : Project) (definition : DefinitionId) (type : Name)
    (selections : List Selection) (root : RootField) : Prop where
  location : root.place.entity.location = .root definition
  enclosing : root.place.enclosing = []
  scope : Scope.forType project.schema type = .ok root.place.scope
  depicts : ∃ levels, Depicts project levels root.place selections root.selections
  located : ∀ member ∈ root.writtenSets, ∀ field ∈ member.2.fields,
    ∀ set, field.selectionSet = some set → set.place.entity.location
      = member.1.entity.location.child field.responseKey field.summary.type.innerName

/-- Whether a root field and its occurrences are what building a definition gives, with the
fragments built before. -/
structure RootField.IsBuilt (project : Project) (shape? : Name → Option FragmentShape)
    (definition : DefinitionId) (type : Name) (selections : List Selection) (root : RootField)
    (occurrences : List Occurrence) : Prop where
  depiction : root.IsDepiction project definition type selections
  occurs : OccurrencesOf project shape? root.writtenSets occurrences
  sound : ∀ occurrence ∈ occurrences, occurrence.IsSound project
  rooted : ∀ occurrence ∈ occurrences, occurrence.place.IsRooted definition type

theorem RootField.IsBuilt.mono {shape? other? : Name → Option FragmentShape}
    {definition : DefinitionId} {type : Name} {selections : List Selection} {root : RootField}
    {occurrences : List Occurrence}
    (built : root.IsBuilt project shape? definition type selections occurrences)
    (grows : ∀ name shape, shape? name = some shape → other? name = some shape) :
    root.IsBuilt project other? definition type selections occurrences :=
  { built with occurs := built.occurs.mono grows }

/-- Whether a fragment was built with those before it. -/
def FragmentShape.IsBuilt (project : Project) (before : List FragmentShape)
    (shape : FragmentShape) : Prop :=
  ∃ document fragment, project.compilation.fragment? shape.name = some (document, fragment)
    ∧ shape.root.IsBuilt project (fun name => before.find? (·.name == name)) (.fragment shape.name)
      fragment.typeCondition fragment.selections shape.occurrences

/-- Whether what is registered for the entities of a definition are the given occurrences. -/
def Workspace.Registers (workspace : Workspace) (definition : DefinitionId)
    (occurrences : List Occurrence) : Prop :=
  ∀ location, location.definition = definition → workspace.entities.occurrences location
    = occurrences.filter (·.place.entity.location == location)

/-- Whether all occurrences are registered. -/
def Workspace.HoldsAll (workspace : Workspace) (occurrences : List Occurrence) : Prop :=
  ∀ occurrence ∈ occurrences,
    occurrence ∈ workspace.entities.occurrences occurrence.place.entity.location

/-- Whether an occurrence is one of those that some build of a fragment found and registered. -/
def Workspace.HoldsBuild (project : Project) (workspace : Workspace) (name : Name)
    (occurrence : Occurrence) : Prop :=
  ∃ fragment root occurrences, project.compilation.spreadFragment? name = some fragment
    ∧ RootField.IsBuilt project workspace.fragment? (.fragment name) fragment.typeCondition
      fragment.selections root occurrences
    ∧ workspace.HoldsAll occurrences ∧ occurrence ∈ occurrences

/-- Whether the occurrences of a fragment lie within it and have a property, which is one of what
occurs in a definition. -/
def FragmentShape.Has (project : Project)
    (property : DefinitionId → Name → List Selection → List Occurrence → Prop)
    (shape : FragmentShape) : Prop :=
  ∃ fragment, project.compilation.spreadFragment? shape.name = some fragment
    ∧ (∀ occurrence ∈ shape.occurrences,
      ∃ rest, occurrence.place.rootScope.path = .onType fragment.typeCondition :: rest)
    ∧ property (.fragment shape.name) fragment.typeCondition fragment.selections shape.occurrences

/-- Whether an operation was built, and what is registered for its entities is what occurs in it. -/
def OperationShape.IsBuilt (project : Project) (workspace : Workspace) (key : OperationKey)
    (shape : OperationShape) : Prop :=
  ∃ document definition occurrences,
    project.compilation.documents[key.document]? = some document
      ∧ definition ∈ document.document.operations ∧ definition.name = key.name
      ∧ shape.root.IsBuilt project workspace.fragment?
        (.operation key.document definition.kind key.name) definition.rootType
        definition.selections occurrences
      ∧ workspace.Registers (.operation key.document definition.kind key.name) occurrences

/-- Whether a workspace is as builds leave it. -/
structure Workspace.IsSound (project : Project) (workspace : Workspace) : Prop where
  entities : workspace.entities.IsSound
  registered : ∀ location, ∀ occurrence ∈ workspace.entities.occurrences location,
    occurrence.IsSound project ∧ occurrence.place.entity.location = location
  fragments : ∀ before shape after, workspace.fragments = before ++ shape :: after →
    shape.IsBuilt project before
  operations : ∀ key shape, (key, shape) ∈ workspace.operations →
    shape.IsBuilt project workspace key
  unbuilt : ∀ index kind name steps, workspace.operation? ⟨index, name⟩ = none →
    workspace.entities.occurrences ⟨.operation index kind name, steps⟩ = []
  stored : ∀ shape ∈ workspace.fragments, workspace.HoldsAll shape.occurrences
  attempts : ∀ name steps, ∀ occurrence ∈ workspace.entities.occurrences ⟨.fragment name, steps⟩,
    workspace.HoldsBuild project name occurrence

/-- How a workspace may change while one definition is built. -/
structure Workspace.Grows (workspace later : Workspace) : Prop where
  fragments : workspace.fragments <+: later.fragments
  operations : later.operations = workspace.operations
  occurrences : ∀ location, location.definition.isOperation = true →
    later.entities.occurrences location = workspace.entities.occurrences location

namespace Workspace

variable {workspace later : Workspace} {name : Name} {shape : FragmentShape}

theorem Grows.refl (workspace : Workspace) : workspace.Grows workspace where
  fragments := List.prefix_rfl
  operations := rfl
  occurrences _ _ := rfl

theorem Grows.trans {last : Workspace} (grows : workspace.Grows later) (more : later.Grows last) :
    workspace.Grows last where
  fragments := grows.fragments.trans more.fragments
  operations := more.operations.trans grows.operations
  occurrences location isOperation :=
    (more.occurrences location isOperation).trans (grows.occurrences location isOperation)

/-- A built fragment stays the one that its name stands for. -/
theorem fragment?_of_prefix (grows : workspace.fragments <+: later.fragments)
    (found : workspace.fragment? name = some shape) : later.fragment? name = some shape := by
  rcases grows with ⟨more, same⟩
  simp only [fragment?] at found ⊢
  rw [← same, List.find?_append, found, Option.some_or]

theorem Grows.fragment?_eq_some (grows : workspace.Grows later)
    (found : workspace.fragment? name = some shape) : later.fragment? name = some shape :=
  fragment?_of_prefix grows.fragments found

theorem isSound_empty : empty.IsSound project where
  entities := EntityTable.isSound_empty
  registered location occurrence mem := by
    simp [empty, EntityTable.occurrences, EntityTable.record?, EntityTable.empty,
      EntityTable.treeOf] at mem
  fragments before shape after same := by simp [empty] at same
  operations key shape mem := by simp [empty] at mem
  unbuilt _ _ _ _ _ := by
    simp [empty, EntityTable.occurrences, EntityTable.record?, EntityTable.empty,
      EntityTable.treeOf]
  stored shape mem := by simp [empty] at mem
  attempts name steps occurrence mem := by
    simp [empty, EntityTable.occurrences, EntityTable.record?, EntityTable.empty,
      EntityTable.treeOf] at mem

theorem HoldsBuild.mono {occurrence : Occurrence}
    (holds : workspace.HoldsBuild project name occurrence)
    (fragments : ∀ name shape, workspace.fragment? name = some shape →
      later.fragment? name = some shape)
    (occurrences : ∀ location, ∀ occurrence ∈ workspace.entities.occurrences location,
      occurrence ∈ later.entities.occurrences location) :
    later.HoldsBuild project name occurrence := by
  rcases holds with ⟨fragment, root, others, isFragment, built, all, mem⟩
  exact ⟨fragment, root, others, isFragment, built.mono fragments,
    fun other otherMem => occurrences _ other (all other otherMem), mem⟩

/-- A built fragment depicts the definition that its name resolves to. -/
theorem IsSound.isBuilt_of_fragment? (sound : workspace.IsSound project)
    (found : workspace.fragment? name = some shape) :
    ∃ before after, workspace.fragments = before ++ shape :: after ∧ shape.name = name
      ∧ shape.IsBuilt project before := by
  rcases List.find?_eq_some_iff_append.mp found with ⟨isNamed, before, after, split, -⟩
  exact ⟨before, after, split, by simpa using isNamed, sound.fragments before shape after split⟩

/-- What goes over from the fragments built before a fragment to it holds for all fragments. -/
theorem IsSound.forall_fragments {motive : FragmentShape → Prop} (sound : workspace.IsSound project)
    (step : ∀ before shape after, workspace.fragments = before ++ shape :: after →
      shape.IsBuilt project before → (∀ earlier ∈ before, motive earlier) → motive shape) :
    ∀ shape ∈ workspace.fragments, motive shape := by
  have all (built after : List FragmentShape) (split : workspace.fragments = built ++ after) :
      ∀ shape ∈ built, motive shape := by
    induction built using List.reverseRecOn generalizing after with
    | nil => simp
    | append_singleton before last ih =>
        rw [List.append_assoc] at split
        have earlier := ih ([last] ++ after) split
        intro shape mem
        rcases List.mem_append.mp mem with isEarlier | isLast
        · exact earlier shape isEarlier
        · rw [List.mem_singleton.mp isLast]
          exact step before last after split (sound.fragments before last after split) earlier
  exact all workspace.fragments [] (List.append_nil _).symm

/-- A fragment that was built before another is the one that its name stands for. -/
theorem fragment?_of_before {before after : List FragmentShape} {other : FragmentShape}
    (split : workspace.fragments = before ++ other :: after)
    (found : before.find? (·.name == name) = some shape) :
    workspace.fragment? name = some shape := by
  rw [fragment?, split, List.find?_append, found, Option.some_or]

/-- Induction along builds: a property of what occurs in a definition, which goes over to it from
the fragments that it spreads, holds for all definitions built in a workspace. The fragments are
those that their names stand for. -/
theorem IsSound.of_isBuilt
    {motive : DefinitionId → Name → List Selection → List Occurrence → Prop}
    (step : ∀ {shape? definition type selections root occurrences},
      (∀ name shape, shape? name = some shape → workspace.fragment? name = some shape
        ∧ shape.name = name ∧ shape.Has project motive) →
      RootField.IsBuilt project shape? definition type selections root occurrences →
        motive definition type selections occurrences)
    (sound : workspace.IsSound project) {definition : DefinitionId} {type : Name}
    {selections : List Selection} {root : RootField} {occurrences : List Occurrence}
    (built : root.IsBuilt project workspace.fragment? definition type selections occurrences) :
    motive definition type selections occurrences := by
  have all := sound.forall_fragments (motive := (·.Has project motive)) ?_
  · apply step ?_ built
    intro name shape found
    exact ⟨found, by simpa using List.find?_some found,
      all shape (List.mem_of_find?_eq_some found)⟩
  · rintro before shape after split ⟨document, fragment, isDefined, built⟩ earlier
    refine ⟨fragment, Compilation.spreadFragment?_of_fragment? isDefined, ?_, ?_⟩
    · intro occurrence mem
      exact (built.rooted occurrence mem).type
    · apply step ?_ built
      intro name shape found
      exact ⟨fragment?_of_before split found, by simpa using List.find?_some found,
        earlier shape (List.mem_of_find?_eq_some found)⟩

/-- The law by which definitions are built. -/
def law (project : Project) : Build.Law where
  valid := IsSound project
  grows := Grows
  refl := Grows.refl
  trans := Grows.trans

end Workspace

section Members

variable {definition : DefinitionId} {type : Name} {selections : List Selection} {root : RootField}

theorem Place.exists_path_of_further {enclosing : List Scope} {scope further : Scope}
    (rooted : ∃ rest, (enclosing.headD scope).path = .onType type :: rest)
    (isFurther : scope.path <+: further.path) :
    ∃ rest, (enclosing.headD further).path = .onType type :: rest := by
  cases enclosing with
  | cons first _ => exact rooted
  | nil =>
      rcases rooted with ⟨rest, path⟩
      rcases isFurther with ⟨more, isPath⟩
      simp only [List.headD_nil] at path ⊢
      exact ⟨rest ++ more, by rw [← isPath, path, List.cons_append]⟩

theorem Place.IsRooted.narrowed {schema : Schema} {place child : Place} {narrowing : Narrowing}
    (rooted : place.IsRooted definition type)
    (narrowed : place.narrowed schema narrowing = .ok child) : child.IsRooted definition type := by
  rcases Place.narrowed_eq_ok narrowed with ⟨inner, sameEntity, sameEnclosing⟩
  constructor
  · rw [sameEntity]
    exact rooted.definition
  · rw [Place.rootScope, sameEnclosing]
    exact Place.exists_path_of_further rooted.type (Scope.path_prefix_of_narrow inner)

/-- Everything written in a definition depicts selections, at a place within the definition. -/
theorem RootField.IsDepiction.forall_writtenSets
    (depiction : root.IsDepiction project definition type selections) :
    ∀ member ∈ root.writtenSets, (∃ levels selections,
        Depicts project levels member.1 selections member.2)
      ∧ Scope.Reachable project.schema member.1.scope ∧ member.1.IsRooted definition type := by
  rcases depiction.depicts with ⟨levels, depicts⟩
  have all := depicts.forall_writtenSets (motive := fun place _ tree =>
      (∀ member ∈ tree.writtenSets place, member ∈ root.writtenSets)
        ∧ Scope.Reachable project.schema place.scope ∧ place.IsRooted definition type) ?_ ?_ ?_
  · intro member mem
    rcases all member mem with ⟨levels, selections, depicts, -, rest⟩
    exact ⟨⟨levels, selections, depicts⟩, rest⟩
  · rintro levels place selections gathered fields branches spreads known summary child tree
      ⟨subset, -, rooted⟩ - - fieldMem ofField
    refine ⟨?_, ?_⟩
    · intro member mem
      exact subset member
        (SelectionTree.mem_writtenSets.mpr (Or.inr (Or.inl ⟨_, _, _, fieldMem, mem⟩)))
    · have here := subset _ (SelectionTree.self_mem_writtenSets place _)
      have located := depiction.located _ here _ (List.mem_map_of_mem fieldMem) _ rfl
      cases ofField with
      | entity _ isChild _ =>
          refine ⟨.forType isChild.scope, ?_, ?_⟩
          · rw [located]
            exact rooted.definition
          · rw [Place.rootScope_of_enclosing isChild.enclosing]
            exact rooted.type
  · rintro levels place selections gathered fields branches spreads behind key child tree
      ⟨subset, reachable, rooted⟩ - - branchMem ofBranch
    refine ⟨?_, ?_⟩
    · intro member mem
      exact subset member
        (SelectionTree.mem_writtenSets.mpr (Or.inr (Or.inr ⟨_, _, _, branchMem, mem⟩)))
    · cases ofBranch with
      | kept narrowed _ _ =>
          exact ⟨.narrow reachable (Place.narrowed_eq_ok narrowed).1, rooted.narrowed narrowed⟩
  · refine ⟨fun _ mem => mem, .forType depiction.scope, ?_, ?_⟩
    · rw [depiction.location]
      rfl
    · rcases Scope.forType_eq_ok depiction.scope with ⟨supertypes, -, isScope⟩
      rw [Place.rootScope, depiction.enclosing, List.headD_nil, isScope]
      exact ⟨[], rfl⟩

/-- What a definition spreads is spread at the place of a set that is written there. -/
theorem RootField.IsDepiction.place_of_spread
    (depiction : root.IsDepiction project definition type selections)
    {member : Place × SelectionTree} (memberMem : member ∈ root.writtenSets) {spread : Spread}
    (spreadMem : spread ∈ member.2.spreads) : spread.place = member.1 := by
  rcases (depiction.forall_writtenSets member memberMem).1 with ⟨_, _, depicts⟩
  rw [(depicts.of_mem_spreads spreadMem).1]
  rfl

end Members

end ResponseShape
