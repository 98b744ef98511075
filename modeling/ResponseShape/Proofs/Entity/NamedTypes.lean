import ResponseShape.Proofs.Entity.Alignment

/-!
# Types that are named

A scope names the type that it selects on and the type conditions on the path to it, and a place
names what its scopes do, on all levels. So what is selected at a place names types at any depth:
by the places of its fields, branches and spreads, and by the types of the fields themselves.

Each way in which places are made names nothing but what was named before, the types of the fields
and what is asked for: below a field (`Place.IsChild.namedTypes_subset`), within a narrowing
(`Place.namedTypes_subset_of_narrowed`), and where a spread places what occurs in a fragment
(`Build.namedTypes_subset_placeAt`).
-/

namespace ResponseShape

/-- The types that a scope names: the one selected on, and the conditions on the path to it. -/
def Scope.namedTypes (scope : Scope) : List Name := scope.type :: scope.typeConditions

/-- The types that the scopes of a place name, on all levels. -/
def Place.namedTypes (place : Place) : List Name := place.scopes.flatMap (·.namedTypes)

/-- The types named in a tree that stands at a place: at any depth, by the places where it selects
and spreads, and by its fields. -/
def SelectionTree.namedTypes (place : Place) (tree : SelectionTree) : List Name :=
  (tree.writtenSets place).flatMap fun member =>
    member.1.namedTypes ++ member.2.fields.map (·.summary.type.innerName)
      ++ member.2.spreads.flatMap (·.place.namedTypes)

/-- The types named in a selection set. -/
def SelectionSet.namedTypes (set : SelectionSet) : List Name :=
  match set.direct with
  | some tree => tree.namedTypes set.place
  | none => set.place.namedTypes

/-- The types that a field names, by its own type and by what is selected on its objects. -/
def Field.namedTypes (field : Field) : List Name :=
  field.summary.type.innerName :: (field.selectionSet.map (·.namedTypes)).getD []

/-- The types named in a definition. -/
def RootField.namedTypes (root : RootField) : List Name :=
  root.summary.type.innerName :: root.selections.namedTypes root.place

/-- The types named in an occurrence. -/
def Occurrence.namedTypes (occurrence : Occurrence) : List Name :=
  occurrence.selections.namedTypes occurrence.place

/-- The types named in what is visible: where it is seen from, by its fields, its branches and its
spreads, and by what it is seen of. -/
def VisibleSelections.namedTypes (visible : VisibleSelections) : List Name :=
  (SelectionSet.mk visible.place visible.direct).namedTypes
    ++ visible.fields.flatMap (·.namedTypes)
    ++ visible.branches.flatMap (·.selectionSet.namedTypes)
    ++ visible.spreads.flatMap (·.place.namedTypes)
    ++ visible.contributors.flatMap (·.place.namedTypes)

variable {schema : Schema} {types : List Name}

namespace Scope

variable {scope narrower inside : Scope} {narrowing : Narrowing} {narrowings : List Narrowing}
  {type : Name}

theorem namedTypes_subset_of_forType (isRoot : forType schema type = .ok scope)
    (mem : type ∈ types) : scope.namedTypes ⊆ types := by
  rcases forType_eq_ok isRoot with ⟨supertypes, -, rfl⟩
  intro named isNamed
  have same : named = type := by simpa [namedTypes, typeConditions, Narrowing.onType] using isNamed
  rwa [same]

theorem namedTypes_subset_of_narrow (narrowed : scope.narrow schema narrowing = .ok narrower)
    (within : scope.namedTypes ⊆ types)
    (ofCondition : ∀ type ∈ narrowing.typeCondition, type ∈ types) :
    narrower.namedTypes ⊆ types := by
  rcases narrow_cases narrowed with ⟨-, rfl⟩ | ⟨effective, _, _, isEffective, -, -, rfl⟩
  · exact within
  · have ofEffective (type : Name) (isType : effective.typeCondition = some type) :
        type ∈ types := by
      rw [(effective?_eq_some isEffective).1] at isType
      exact ofCondition type (Option.eq_some_of_filter_eq_some isType)
    rcases List.cons_subset.mp within with ⟨ofType, ofPath⟩
    refine List.cons_subset.mpr ⟨?_, fun named isNamed => ?_⟩
    · cases isType : effective.typeCondition with
      | none => exact ofType
      | some type => exact ofEffective type isType
    · rcases mem_typeConditions.mp isNamed with ⟨added, onPath, isType⟩
      rcases List.mem_append.mp onPath with isOld | isNew
      · exact ofPath (mem_typeConditions.mpr ⟨added, isOld, isType⟩)
      · rw [List.mem_singleton.mp isNew] at isType
        exact ofEffective named isType

theorem namedTypes_subset_of_narrowAll (narrowed : scope.narrowAll schema narrowings = .ok narrower)
    (within : scope.namedTypes ⊆ types)
    (ofConditions : ∀ narrowing ∈ narrowings, ∀ type ∈ narrowing.typeCondition, type ∈ types) :
    narrower.namedTypes ⊆ types := by
  induction narrowings generalizing scope with
  | nil =>
      rcases Except.ok.inj narrowed with rfl
      exact within
  | cons narrowing rest ih =>
      rw [List.forall_mem_cons] at ofConditions
      rcases narrowAll_cons_eq_ok narrowed with ⟨next, once, further⟩
      exact ih further (namedTypes_subset_of_narrow once within ofConditions.1) ofConditions.2

/-- Where a fragment is spread, what is named around it is, what its root names and the type that it
is on. -/
theorem namedTypes_subset_of_spreadInto?
    (spread : scope.spreadInto? schema type inside = .ok (some narrower))
    (within : scope.namedTypes ⊆ types) (ofType : type ∈ types)
    (ofInside : inside.namedTypes ⊆ types) : narrower.namedTypes ⊆ types := by
  refine namedTypes_subset_of_narrowAll (narrowAll_of_spreadInto? spread) within ?_
  refine List.forall_mem_cons.mpr ⟨?_, fun narrowing mem type isType => ?_⟩
  · rintro _ ⟨⟩
    exact ofType
  · exact (List.cons_subset.mp ofInside).2
      (mem_typeConditions.mpr ⟨narrowing, List.mem_of_mem_tail mem, isType⟩)

end Scope

section Places

variable {place child site inside : Place} {narrowing : Narrowing} {type : Name}

theorem Place.namedTypes_subset :
    place.namedTypes ⊆ types ↔ ∀ scope ∈ place.scopes, scope.namedTypes ⊆ types := by
  simp only [namedTypes, List.subset_def, List.forall_mem_flatMap]

theorem Place.IsChild.namedTypes_subset (isChild : place.IsChild schema type child)
    (within : place.namedTypes ⊆ types) (ofType : type ∈ types) : child.namedTypes ⊆ types := by
  rw [Place.namedTypes_subset] at within ⊢
  rw [Place.scopes, isChild.enclosing, List.forall_mem_append, List.forall_mem_singleton]
  exact ⟨within, Scope.namedTypes_subset_of_forType isChild.scope ofType⟩

theorem Place.isChild_of_below {entity : Entity}
    (isBelow : place.below schema entity type = .ok child) : place.IsChild schema type child := by
  simp only [below, Except.map] at isBelow
  split at isBelow
  next => cases isBelow
  next isScope =>
    rcases Except.ok.inj isBelow with rfl
    exact ⟨rfl, isScope⟩

theorem Place.namedTypes_subset_of_narrowed (narrowed : place.narrowed schema narrowing = .ok child)
    (within : place.namedTypes ⊆ types)
    (ofCondition : ∀ type ∈ narrowing.typeCondition, type ∈ types) :
    child.namedTypes ⊆ types := by
  rcases narrowed_eq_ok narrowed with ⟨inScope, -, sameEnclosing⟩
  rw [namedTypes_subset, scopes, List.forall_mem_append, List.forall_mem_singleton] at within ⊢
  rw [sameEnclosing]
  exact ⟨within.1, Scope.namedTypes_subset_of_narrow inScope within.2 ofCondition⟩

/-- A spread places what occurs in a fragment where nothing else is named than around it and
inside. -/
theorem Build.namedTypes_subset_placeAt {entity : Entity} {scope : Scope}
    (spread : site.scope.spreadInto? schema type inside.rootScope = .ok (some scope))
    (within : site.namedTypes ⊆ types) (ofType : type ∈ types)
    (ofInside : inside.namedTypes ⊆ types) :
    (placeAt site inside entity scope).namedTypes ⊆ types := by
  rw [Place.namedTypes_subset] at within ofInside ⊢
  rw [Place.scopes, List.forall_mem_append, List.forall_mem_singleton] at within
  rw [inside.scopes_eq_cons, List.forall_mem_cons] at ofInside
  rw [scopes_placeAt, List.forall_mem_append, List.forall_mem_cons]
  exact ⟨within.1, Scope.namedTypes_subset_of_spreadInto? spread within.2 ofType ofInside.1,
    ofInside.2⟩

end Places

section Trees

variable {place moved : Place} {tree : SelectionTree} {set inner : SelectionSet} {field : Field}
  {branch : Branch} {visible : VisibleSelections}

theorem SelectionTree.namedTypes_subset : tree.namedTypes place ⊆ types ↔
    ∀ member ∈ tree.writtenSets place, member.1.namedTypes ⊆ types
      ∧ (∀ field ∈ member.2.fields, field.summary.type.innerName ∈ types)
      ∧ ∀ spread ∈ member.2.spreads, spread.place.namedTypes ⊆ types := by
  simp only [namedTypes, List.subset_def, List.forall_mem_flatMap, List.forall_mem_append,
    List.forall_mem_map, and_assoc]

theorem SelectionTree.place_namedTypes_subset (within : tree.namedTypes place ⊆ types) :
    place.namedTypes ⊆ types :=
  (namedTypes_subset.mp within _ (self_mem_writtenSets place tree)).1

/-- What is named in a tree bounds what its parts name. -/
theorem SelectionTree.namedTypes_subset_of_parts (within : tree.namedTypes place ⊆ types) :
    (∀ field ∈ tree.fields, field.namedTypes ⊆ types)
      ∧ (∀ branch ∈ tree.branches, branch.selectionSet.namedTypes ⊆ types)
      ∧ ∀ spread ∈ tree.spreads, spread.place.namedTypes ⊆ types := by
  rw [namedTypes_subset] at within
  rcases within _ (self_mem_writtenSets place tree) with ⟨-, ofFields, ofSpreads⟩
  rcases tree with ⟨fields, branches, spreads⟩
  refine ⟨fun field mem => List.cons_subset.mpr ⟨ofFields field mem, ?_⟩, ?_, ofSpreads⟩
  · rcases List.mem_map.mp mem with ⟨treeField, treeFieldMem, rfl⟩
    cases treeField with
    | scalar summary => exact List.nil_subset _
    | entity summary child inner =>
        exact namedTypes_subset.mpr fun member memberMem => within member
          (mem_writtenSets.mpr (Or.inr (Or.inl ⟨_, _, _, treeFieldMem, memberMem⟩)))
  · intro branch mem
    rcases List.mem_map.mp mem with ⟨⟨key, child, inner⟩, treeBranchMem, rfl⟩
    exact namedTypes_subset.mpr fun member memberMem => within member
      (mem_writtenSets.mpr (Or.inr (Or.inr ⟨_, _, _, treeBranchMem, memberMem⟩)))

theorem SelectionTree.namedTypes_subset_of_moved (within : tree.namedTypes place ⊆ types)
    (ofMoved : moved.namedTypes ⊆ types) : tree.namedTypes moved ⊆ types := by
  rw [namedTypes_subset] at within ⊢
  intro member mem
  have here := within _ (self_mem_writtenSets place tree)
  rcases tree with ⟨fields, branches, spreads⟩
  rcases mem_writtenSets.mp mem with rfl | below
  · exact ⟨ofMoved, here.2⟩
  · exact within member (mem_writtenSets.mpr (Or.inr below))

theorem SelectionSet.place_namedTypes_subset (within : set.namedTypes ⊆ types) :
    set.place.namedTypes ⊆ types := by
  simp only [namedTypes] at within
  split at within
  next => exact SelectionTree.place_namedTypes_subset within
  next => exact within

theorem VisibleSelections.namedTypes_subset : visible.namedTypes ⊆ types ↔
    (SelectionSet.mk visible.place visible.direct).namedTypes ⊆ types
      ∧ (∀ field ∈ visible.fields, field.namedTypes ⊆ types)
      ∧ (∀ branch ∈ visible.branches, branch.selectionSet.namedTypes ⊆ types)
      ∧ (∀ spread ∈ visible.spreads, spread.place.namedTypes ⊆ types)
      ∧ ∀ contributor ∈ visible.contributors, contributor.place.namedTypes ⊆ types := by
  simp only [namedTypes, List.subset_def, List.forall_mem_append, List.forall_mem_flatMap,
    and_assoc]

/-- What is selected on the objects of a field names what the field names at most. -/
theorem Field.namedTypes_subset_of_selectionSet (isInner : field.selectionSet = some inner)
    (within : field.namedTypes ⊆ types) : inner.namedTypes ⊆ types := by
  rw [namedTypes, isInner] at within
  exact (List.cons_subset.mp within).2

end Trees

end ResponseShape
