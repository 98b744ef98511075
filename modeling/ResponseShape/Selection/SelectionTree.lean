import ResponseShape.Entity.Place
import ResponseShape.Selection.FieldSummary

/-!
# Selection trees

What a definition selects, as written: fields, branches and spreads, each in the order of their
first appearance. A branch leads into a narrower scope, as inline fragments do; a spread names a
fragment, whose own tree stays with the fragment. `SelectionSet`, `Field` and `Branch` are views
of the tree's parts that also fit what is only reached by merging.
-/

namespace ResponseShape

/-- A spread of a named fragment. -/
structure Spread where
  name : Name
  /-- The place that the fragment is spread at. -/
  place : Place
  /-- The conditions applied since the field that the spread is nested in. -/
  conditions : Option Alternatives
deriving Inhabited

mutual

/-- What is selected at one place. Fields have distinct response keys, branches distinct narrowings
and spreads distinct names. -/
inductive SelectionTree where
  | mk (fields : List TreeField) (branches : List TreeBranch) (spreads : List Spread)

/-- A selected field. One of composite type has selections of its own. -/
inductive TreeField where
  | scalar (summary : FieldSummary)
  | entity (summary : FieldSummary) (place : Place) (selections : SelectionTree)

/-- A branch into a narrower scope, known by what it asks beyond the scope around it. -/
inductive TreeBranch where
  | mk (key : Narrowing) (place : Place) (selections : SelectionTree)

end

instance : Inhabited SelectionTree := ⟨.mk [] [] []⟩

instance : Inhabited TreeField := ⟨.scalar default⟩

instance : Inhabited TreeBranch := ⟨.mk default default default⟩

/-- A place that can be asked for everything selected there. -/
structure SelectionSet where
  place : Place
  /-- Absent if the place exists only because selections elsewhere reach it. -/
  direct : Option SelectionTree
deriving Inhabited

/-- A field as seen from one place. -/
structure Field where
  summary : FieldSummary
  /-- The selection set on the field's objects, absent if the field is a leaf. -/
  selectionSet : Option SelectionSet
deriving Inhabited

/-- A branch as seen from one place. -/
structure Branch where
  /-- What the branch asks beyond the scope of the place. -/
  key : Narrowing
  selectionSet : SelectionSet
deriving Inhabited

/-- The key under which responses hold the field. -/
def Field.responseKey (field : Field) : Name := field.summary.responseKey

/-- The narrowing that the scope of the branch ends with. -/
def Branch.narrowing (branch : Branch) : Narrowing := branch.selectionSet.place.scope.innermost

/-- Whether the branch crosses a defer boundary. -/
def Branch.isDeferred (branch : Branch) : Bool := branch.narrowing.isDeferred

/-- The view of a field of the tree. -/
def TreeField.toField : TreeField → Field
  | .scalar summary => ⟨summary, none⟩
  | .entity summary place selections => ⟨summary, some ⟨place, some selections⟩⟩

/-- The view of a branch of the tree. -/
def TreeBranch.toBranch : TreeBranch → Branch
  | .mk key place selections => ⟨key, ⟨place, some selections⟩⟩

namespace SelectionTree

/-- The selected fields. -/
def fields : SelectionTree → List Field
  | .mk fields _ _ => fields.map (·.toField)

/-- The branches into narrower scopes. -/
def branches : SelectionTree → List Branch
  | .mk _ branches _ => branches.map (·.toBranch)

/-- The spread fragments. -/
def spreads : SelectionTree → List Spread
  | .mk _ _ spreads => spreads

/-- Whether nothing is selected. -/
def isEmpty : SelectionTree → Bool
  | .mk fields branches spreads => fields.isEmpty && branches.isEmpty && spreads.isEmpty

/-- The field of a response key. -/
def field? (tree : SelectionTree) (responseKey : Name) : Option Field :=
  tree.fields.find? (·.responseKey == responseKey)

/-- The branch of a key. -/
def branch? (tree : SelectionTree) (key : Narrowing) : Option Branch :=
  tree.branches.find? (·.key == key)

/-- The first branch on a type, whatever else it asks. -/
def branchOn? (tree : SelectionTree) (type : Name) : Option Branch :=
  tree.branches.find? (·.key.typeCondition == some type)

/-- The spread of a fragment. -/
def spread? (tree : SelectionTree) (name : Name) : Option Spread :=
  tree.spreads.find? (·.name == name)

/-- Fields, branches and spreads, one a line. -/
def render (tree : SelectionTree) : String :=
  String.join (tree.fields.map fun field => "  " ++ field.summary.render ++ "\n")
    ++ String.join (tree.branches.map fun branch => "  ... " ++ branch.key.render ++ "\n")
    ++ String.join (tree.spreads.map fun spread => "  ..." ++ spread.name ++ "\n")

mutual

/-- Every place that is written at or below the given one, with its tree: the place itself, then
those of its fields, then those of its branches. Spread fragments are not entered. -/
def writtenSets (place : Place) : SelectionTree → List (Place × SelectionTree)
  | .mk fields branches spreads =>
      (place, .mk fields branches spreads)
        :: (writtenSetsOfFields fields ++ writtenSetsOfBranches branches)

/-- The places written below fields. -/
def writtenSetsOfFields : List TreeField → List (Place × SelectionTree)
  | [] => []
  | .scalar _ :: rest => writtenSetsOfFields rest
  | .entity _ place selections :: rest =>
      writtenSets place selections ++ writtenSetsOfFields rest

/-- The places written below branches. -/
def writtenSetsOfBranches : List TreeBranch → List (Place × SelectionTree)
  | [] => []
  | .mk _ place selections :: rest =>
      writtenSets place selections ++ writtenSetsOfBranches rest

end

end SelectionTree

namespace SelectionSet

/-- The type that is selected on. -/
def type (set : SelectionSet) : Name := set.place.type

/-- Whether nothing is written at the place. -/
def isMergedOnly (set : SelectionSet) : Bool := set.direct.isNone

/-- The direct field of a response key. -/
def field? (set : SelectionSet) (responseKey : Name) : Option Field :=
  set.direct.bind (·.field? responseKey)

/-- The first direct branch on a type. -/
def branchOn? (set : SelectionSet) (type : Name) : Option Branch :=
  set.direct.bind (·.branchOn? type)

end SelectionSet

end ResponseShape
