import ResponseShape.Merging.VisibleSelections
import ResponseShape.Proofs.Workspace.Settled

/-!
# Aligned places

A place lists the scopes that lead to it, its entity the types on the way there, and the entity's
location the fields. The three are aligned if there is a type for the root of the definition and
for each field, and a scope for each type that starts with it (`Place.IsAligned`). Visibility relies
on that when it compares scopes level by level. Each way in which places are made keeps them
aligned: at the root of a definition, in a narrower scope, below a field, and where a spread places
what occurs in a fragment (`Place.IsAligned.placeAt`).
-/

namespace ResponseShape

/-- Every place in a tree that stands at the given one: where it selects, and where it spreads. -/
def SelectionTree.places (place : Place) (tree : SelectionTree) : List Place :=
  (tree.writtenSets place).flatMap fun member => member.1 :: member.2.spreads.map (·.place)

/-- Every place in a selection set. -/
def SelectionSet.places (set : SelectionSet) : List Place :=
  match set.direct with
  | some tree => tree.places set.place
  | none => [set.place]

/-- Every place in a definition. -/
def RootField.places (root : RootField) : List Place := root.selections.places root.place

/-- Every place in an occurrence. -/
def Occurrence.places (occurrence : Occurrence) : List Place :=
  occurrence.selections.places occurrence.place

/-- Every place that a field leads to. -/
def Field.places (field : Field) : List Place := (field.selectionSet.map (·.places)).getD []

/-- Every place in what is visible: where it is seen from, where its fields and branches lead, where
it spreads, and what it is seen of. -/
def VisibleSelections.places (visible : VisibleSelections) : List Place :=
  (SelectionSet.mk visible.place visible.direct).places
    ++ visible.fields.flatMap (·.places)
    ++ visible.branches.flatMap (·.selectionSet.places)
    ++ visible.spreads.map (·.place)
    ++ visible.contributors.map (·.place)

/-- Whether a scope starts on a type. -/
def Scope.StartsOn (scope : Scope) (type : Name) : Prop :=
  ∃ rest, scope.path = .onType type :: rest

/-- Whether a place has a scope for each entity on the way to it, and each of them starts on the
type of its entity. -/
structure Place.IsAligned (project : Project) (place : Place) : Prop where
  levels : place.enclosing.length = place.entity.location.steps.length
  types : ∃ type, project.rootType? place.entity.location.definition = some type
    ∧ place.entity.typePath = type :: place.entity.location.steps.map (·.type)
  scopes : List.Forall₂ Scope.StartsOn place.scopes place.entity.typePath

section Places

variable {place other : Place} {tree : SelectionTree} {property : Place → Prop}

theorem SelectionTree.mem_places : other ∈ tree.places place ↔
    ∃ member ∈ tree.writtenSets place, other = member.1
      ∨ ∃ spread ∈ member.2.spreads, spread.place = other := by
  simp only [places, List.mem_flatMap, List.mem_cons, List.mem_map]

theorem SelectionTree.self_mem_places (place : Place) (tree : SelectionTree) :
    place ∈ tree.places place :=
  mem_places.mpr ⟨_, self_mem_writtenSets place tree, Or.inl rfl⟩

/-- What holds for all places in a tree holds for the place that it stands at and those that it
spreads at, and for all places in the trees of its fields and branches. -/
theorem SelectionTree.forall_mem_places {fields : List TreeField} {branches : List TreeBranch}
    {spreads : List Spread} :
    (∀ other ∈ (mk fields branches spreads).places place, property other) ↔
      property place ∧ (∀ spread ∈ spreads, property spread.place)
        ∧ (∀ summary child inner, .entity summary child inner ∈ fields →
          ∀ other ∈ inner.places child, property other)
        ∧ ∀ key child inner, .mk key child inner ∈ branches →
          ∀ other ∈ inner.places child, property other := by
  constructor
  · intro all
    refine ⟨all _ (self_mem_places _ _), ?_, ?_, ?_⟩
    · intro spread mem
      exact all _ (mem_places.mpr ⟨_, self_mem_writtenSets _ _, Or.inr ⟨spread, mem, rfl⟩⟩)
    · intro summary child inner fieldMem other mem
      rcases mem_places.mp mem with ⟨member, memberMem, isOther⟩
      exact all other (mem_places.mpr ⟨member,
        mem_writtenSets.mpr (Or.inr (Or.inl ⟨_, _, _, fieldMem, memberMem⟩)), isOther⟩)
    · intro key child inner branchMem other mem
      rcases mem_places.mp mem with ⟨member, memberMem, isOther⟩
      exact all other (mem_places.mpr ⟨member,
        mem_writtenSets.mpr (Or.inr (Or.inr ⟨_, _, _, branchMem, memberMem⟩)), isOther⟩)
  · rintro ⟨here, ofSpreads, ofFields, ofBranches⟩ other mem
    rcases mem_places.mp mem with ⟨member, memberMem, isOther⟩
    rcases mem_writtenSets.mp memberMem with
      rfl | ⟨summary, child, inner, fieldMem, below⟩ | ⟨key, child, inner, branchMem, behind⟩
    · rcases isOther with rfl | ⟨spread, spreadMem, rfl⟩
      · exact here
      · exact ofSpreads spread spreadMem
    · exact ofFields summary child inner fieldMem other (mem_places.mpr ⟨member, below, isOther⟩)
    · exact ofBranches key child inner branchMem other (mem_places.mpr ⟨member, behind, isOther⟩)

/-- What holds for all places in a tree holds for those of its fields, branches and spreads. -/
theorem SelectionTree.forall_mem_places_of_parts
    (all : ∀ other ∈ tree.places place, property other) :
    (∀ field ∈ tree.fields, ∀ other ∈ field.places, property other)
      ∧ (∀ branch ∈ tree.branches, ∀ other ∈ branch.selectionSet.places, property other)
      ∧ ∀ spread ∈ tree.spreads, property spread.place := by
  rcases tree with ⟨fields, branches, spreads⟩
  rcases forall_mem_places.mp all with ⟨-, ofSpreads, ofFields, ofBranches⟩
  refine ⟨?_, ?_, ofSpreads⟩
  · intro field mem other otherMem
    rcases List.mem_map.mp mem with ⟨treeField, treeFieldMem, rfl⟩
    cases treeField with
    | scalar summary => cases otherMem
    | entity summary child inner => exact ofFields summary child inner treeFieldMem other otherMem
  · intro branch mem other otherMem
    rcases List.mem_map.mp mem with ⟨⟨key, child, inner⟩, treeBranchMem, rfl⟩
    exact ofBranches key child inner treeBranchMem other otherMem

theorem SelectionSet.self_mem_places (set : SelectionSet) : set.place ∈ set.places := by
  rw [places]
  split
  next => exact SelectionTree.self_mem_places _ _
  next => exact List.mem_singleton_self _

theorem VisibleSelections.mem_places_of_field {visible : VisibleSelections} {field : Field}
    {inner : SelectionSet} (mem : field ∈ visible.fields)
    (isInner : field.selectionSet = some inner) (isPlace : place ∈ inner.places) :
    place ∈ visible.places := by
  have ofField : place ∈ field.places := by rwa [Field.places, isInner]
  have listed : place ∈ visible.fields.flatMap (·.places) :=
    List.mem_flatMap.mpr ⟨field, mem, ofField⟩
  simp only [places, List.mem_append, listed, or_true, true_or]

theorem VisibleSelections.mem_places_of_branch {visible : VisibleSelections} {branch : Branch}
    (mem : branch ∈ visible.branches) (isPlace : place ∈ branch.selectionSet.places) :
    place ∈ visible.places := by
  have listed : place ∈ visible.branches.flatMap (·.selectionSet.places) :=
    List.mem_flatMap.mpr ⟨branch, mem, isPlace⟩
  simp only [places, List.mem_append, listed, or_true, true_or]

/-- Where a tree stands makes a difference for no place but that. -/
theorem SelectionTree.forall_mem_places_of_moved {moved : Place}
    (all : ∀ other ∈ tree.places place, property other) (ofMoved : property moved) :
    ∀ other ∈ tree.places moved, property other := by
  rcases tree with ⟨fields, branches, spreads⟩
  rcases forall_mem_places.mp all with ⟨-, rest⟩
  exact forall_mem_places.mpr ⟨ofMoved, rest⟩

end Places

namespace Scope

variable {scope further : Scope} {type : Name}

theorem StartsOn.of_prefix (starts : scope.StartsOn type)
    (isFurther : scope.path <+: further.path) : further.StartsOn type := by
  rcases starts with ⟨rest, path⟩
  rcases isFurther with ⟨more, isPath⟩
  exact ⟨rest ++ more, by rw [← isPath, path, List.cons_append]⟩

theorem startsOn_of_forType {schema : Schema} (isRoot : forType schema type = .ok scope) :
    scope.StartsOn type := by
  rcases forType_eq_ok isRoot with ⟨supertypes, -, rfl⟩
  exact ⟨[], rfl⟩

end Scope

namespace Place.IsAligned

variable {project : Project} {place child site inside : Place} {definition : DefinitionId}
  {type : Name}

theorem entity_eq (aligned : place.IsAligned project) :
    place.entity = project.entityAt place.entity.location := by
  rcases aligned.types with ⟨type, isRoot, typePath⟩
  have sameTypes : place.entity.typePath = project.typePath place.entity.location := by
    rw [typePath, Project.typePath, isRoot, Option.toList_some, List.singleton_append]
  exact congrArg (Entity.mk _) sameTypes

theorem of_scopes (location : Location) (isEntity : place.entity = project.entityAt location)
    (isRoot : project.rootType? location.definition = some type)
    (scopes : List.Forall₂ Scope.StartsOn place.scopes (project.typePath location)) :
    place.IsAligned project := by
  have typePath : project.typePath location = type :: location.steps.map (·.type) := by
    rw [Project.typePath, isRoot, Option.toList_some, List.singleton_append]
  have levels := scopes.length_eq
  rw [typePath] at levels
  constructor
  · rw [isEntity]
    simpa [Place.scopes, Project.entityAt] using levels
  · rw [isEntity]
    exact ⟨type, isRoot, typePath⟩
  · rw [isEntity]
    exact scopes

theorem root {scope : Scope} (isRoot : project.rootType? definition = some type)
    (isScope : Scope.forType project.schema type = .ok scope) :
    (Place.mk (project.entityAt (.root definition)) [] scope).IsAligned project := by
  have typePath : project.typePath (.root definition) = [type] := by
    simp [Project.typePath, Location.root, isRoot]
  refine of_scopes (.root definition) rfl isRoot ?_
  rw [typePath]
  exact .cons (Scope.startsOn_of_forType isScope) .nil

/-- A scope that goes further than that of an aligned place can take its stead. -/
theorem further {scope : Scope} (aligned : place.IsAligned project)
    (isFurther : place.scope.path <+: scope.path) :
    List.Forall₂ Scope.StartsOn (place.enclosing ++ [scope]) place.entity.typePath :=
  forall₂_append_last aligned.scopes fun _ starts => starts.of_prefix isFurther

theorem narrowed {narrowing : Narrowing} (aligned : place.IsAligned project)
    (narrowed : place.narrowed project.schema narrowing = .ok child) :
    child.IsAligned project := by
  rcases Place.narrowed_eq_ok narrowed with ⟨inner, sameEntity, sameEnclosing⟩
  have scopes := aligned.further (Scope.path_prefix_of_narrow inner)
  rw [← sameEntity, ← sameEnclosing] at scopes
  constructor
  · rw [sameEnclosing, sameEntity]
    exact aligned.levels
  · rw [sameEntity]
    exact aligned.types
  · exact scopes

theorem below {key : Name} (aligned : place.IsAligned project)
    (isBelow : place.below project.schema
      (project.entityAt (place.entity.location.child key type)) type = .ok child) :
    child.IsAligned project := by
  rcases aligned.types with ⟨root, isRoot, -⟩
  simp only [Place.below, Except.map] at isBelow
  split at isBelow
  next => cases isBelow
  next scope isScope =>
    rcases Except.ok.inj isBelow with rfl
    have scopes := aligned.scopes
    rw [congrArg Entity.typePath aligned.entity_eq] at scopes
    refine of_scopes (place.entity.location.child key type) rfl isRoot ?_
    rw [Project.typePath_child]
    exact List.rel_append scopes (.cons (Scope.startsOn_of_forType isScope) .nil)

/-- What occurs in a fragment stays aligned where the fragment is spread. -/
theorem placeAt {scope : Scope} (aligned : site.IsAligned project)
    (isInside : inside.IsAligned project) (isFurther : site.scope.path <+: scope.path) :
    (Build.placeAt site inside
        (project.entityAt (site.entity.location.joined inside.entity.location.steps))
        scope).IsAligned project := by
  rcases aligned.types with ⟨type, isRoot, typePath⟩
  rcases isInside.types with ⟨first, -, insidePath⟩
  have joined : project.typePath (site.entity.location.joined inside.entity.location.steps)
      = site.entity.typePath ++ inside.entity.typePath.tail := by
    rw [typePath, insidePath, Project.typePath]
    simp [Location.joined, isRoot]
  have nested : List.Forall₂ Scope.StartsOn inside.scopes.tail inside.entity.typePath.tail := by
    have scopes := isInside.scopes
    rw [Place.scopes_eq_cons, insidePath] at scopes
    cases scopes with
    | cons _ rest => rwa [insidePath, List.tail_cons]
  refine of_scopes _ (Build.entity_placeAt _ _ _ _) isRoot ?_
  rw [Build.scopes_placeAt, joined, ← List.singleton_append, ← List.append_assoc]
  exact List.rel_append (aligned.further isFurther) nested

end Place.IsAligned

end ResponseShape
