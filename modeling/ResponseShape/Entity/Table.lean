import ResponseShape.Ordered
import ResponseShape.Selection.Occurrence

/-!
# The table of entities

The entity table interns entities by their locations and records where each is selected, in the
order of registration; entries are only ever added. The table has the form of the responses
themselves: one tree for each definition, with a branch for each field selected from an object on.
What a tree holds behind one way is not touched by an update behind another
(`EntityTree.record?_update`).
-/

namespace ResponseShape

/-- An entity and what is selected on it. -/
structure EntityRecord where
  entity : Entity
  /-- The occurrences of the entity, the one registered last in front. -/
  latest : List Occurrence
deriving Inhabited

namespace EntityRecord

/-- The occurrences of the entity in order of registration. -/
def occurrences (record : EntityRecord) : List Occurrence := record.latest.reverse

/-- The record with one more occurrence. -/
def add (record : EntityRecord) (occurrence : Occurrence) : EntityRecord :=
  { record with latest := occurrence :: record.latest }

@[simp]
theorem occurrences_add (record : EntityRecord) (occurrence : Occurrence) :
    (record.add occurrence).occurrences = record.occurrences ++ [occurrence] := by
  simp [add, occurrences]

end EntityRecord

/-- The entities from one object on: the record of the object, if it is an entity already, and the
entities behind each field selected on it. -/
inductive EntityTree where
  | mk (record : Option EntityRecord) (branches : List (FieldStep × EntityTree))

namespace EntityTree

/-- No entities. -/
def empty : EntityTree := mk none []

instance : Inhabited EntityTree := ⟨empty⟩

mutual

/-- How many entities there are. -/
def size : EntityTree → Nat
  | mk record branches => record.toList.length + sizeOfBranches branches

/-- How many entities there are behind several fields. -/
def sizeOfBranches : List (FieldStep × EntityTree) → Nat
  | [] => 0
  | (_, tree) :: rest => size tree + sizeOfBranches rest

end

/-- The record behind some steps. -/
def record? : EntityTree → List FieldStep → Option EntityRecord
  | mk record _, [] => record
  | mk _ branches, step :: rest =>
      ((branches.lookup step).getD empty).record? rest

/-- The tree with another record behind some steps. -/
def update (change : Option EntityRecord → EntityRecord) :
    List FieldStep → EntityTree → EntityTree
  | [], mk record branches => mk (some (change record)) branches
  | step :: rest, mk record branches =>
      let branch := (step, update change rest ((branches.lookup step).getD empty))
      mk record (updateOrAppend (·.1 == step) (fun _ => branch) branch branches)

@[simp]
theorem record?_empty (steps : List FieldStep) : empty.record? steps = none := by
  induction steps with
  | nil => rfl
  | cons step rest ih => simpa [empty, record?] using ih

/-- An update is found behind its own steps, and leaves the records behind all others alone. -/
theorem record?_update (change : Option EntityRecord → EntityRecord) (steps other : List FieldStep)
    (tree : EntityTree) :
    (tree.update change steps).record? other
      = if other = steps then some (change (tree.record? steps)) else tree.record? other := by
  induction steps generalizing other tree with
  | nil =>
      obtain ⟨record, branches⟩ := tree
      cases other with
      | nil => simp [update, record?]
      | cons head tail => simp [update, record?]
  | cons step rest ih =>
      obtain ⟨record, branches⟩ := tree
      cases other with
      | nil => simp [update, record?]
      | cons head tail =>
          simp only [update, record?, lookup_updateOrAppend, List.cons.injEq]
          by_cases same : head = step
          · subst same
            simp [ih]
          · simp [same]

end EntityTree

/-- The entities of all definitions. -/
structure EntityTable where
  trees : List (DefinitionId × EntityTree)
deriving Inhabited

namespace EntityTable

/-- No entities. -/
def empty : EntityTable := ⟨[]⟩

/-- How many entities there are. -/
def size (table : EntityTable) : Nat :=
  table.trees.foldl (fun size (_, tree) => size + tree.size) 0

/-- The entities of a definition. -/
def treeOf (table : EntityTable) (definition : DefinitionId) : EntityTree :=
  (table.trees.lookup definition).getD .empty

/-- The record of a location. -/
def record? (table : EntityTable) (location : Location) : Option EntityRecord :=
  (table.treeOf location.definition).record? location.steps

/-- The entity at a location. -/
def entity? (table : EntityTable) (location : Location) : Option Entity :=
  (table.record? location).map (·.entity)

/-- Every occurrence of the entity at a location, in order of registration. -/
def occurrences (table : EntityTable) (location : Location) : List Occurrence :=
  ((table.record? location).map (·.occurrences)).getD []

/-- The table with another record of a location. -/
def update (table : EntityTable) (location : Location)
    (change : Option EntityRecord → EntityRecord) : EntityTable :=
  let tree := (table.treeOf location.definition).update change location.steps
  ⟨updateOrAppend (·.1 == location.definition) (fun _ => (location.definition, tree))
    (location.definition, tree) table.trees⟩

/-- The entity at a location and the table that holds it. The given type path is that of an entity
allocated here for the first time. -/
def intern (table : EntityTable) (location : Location) (typePath : List Name) :
    Entity × EntityTable :=
  match table.entity? location with
  | some entity => (entity, table)
  | none =>
      let entity : Entity := ⟨location, typePath⟩
      (entity, table.update location fun _ => ⟨entity, []⟩)

/-- Records one occurrence. -/
def register (table : EntityTable) (occurrence : Occurrence) : EntityTable :=
  let entity := occurrence.place.entity
  table.update entity.location fun
    | some record => record.add occurrence
    | none => ⟨entity, [occurrence]⟩

/-- Records occurrences in order. -/
def registerAll (table : EntityTable) (occurrences : List Occurrence) : EntityTable :=
  occurrences.foldl register table

end EntityTable

end ResponseShape
