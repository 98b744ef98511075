import ResponseShape.Selection.Occurrence

/-!
# Shapes of definitions

What building an operation or a fragment gives: its tree of direct selections, and what the tree
mentions, which is the fragments it references and the defer boundaries it crosses.
-/

namespace ResponseShape

/-- A defer boundary reachable from a definition. -/
structure DeferBoundary where
  label : String
  variableName : Option Name
  /-- The response keys from the definition's root to the boundary. -/
  path : List Name
  typeCondition : Name
deriving DecidableEq, Inhabited

/-- The boundary as seen from a place at the given path. -/
def DeferBoundary.rebased (boundary : DeferBoundary) (path : List Name) : DeferBoundary :=
  { boundary with path := path ++ boundary.path }

/-- What a stretch of a definition mentions besides its own fields. -/
structure Mentions where
  /-- Referenced fragments, each once, in order of first reference. -/
  fragments : List Name
  boundaries : List DeferBoundary
deriving DecidableEq, Inhabited

namespace Mentions

/-- Nothing mentioned. -/
def empty : Mentions := ⟨[], []⟩

/-- What two stretches mention, one after the other. -/
def append (mentions later : Mentions) : Mentions :=
  ⟨appendAllNew mentions.fragments later.fragments, mentions.boundaries ++ later.boundaries⟩

instance : Append Mentions := ⟨append⟩

/-- What several stretches mention in turn. -/
def concat (mentions : List Mentions) : Mentions := mentions.foldl append empty

end Mentions

/-- The field that holds a whole definition: the data of an operation, or a fragment. -/
structure RootField where
  summary : FieldSummary
  place : Place
  selections : SelectionTree
deriving Inhabited

namespace RootField

/-- The summary of the root field of a name and a type. -/
def summaryOf (name type : Name) : FieldSummary where
  name := name
  aliasName := none
  type := .named type true
  arguments := []
  conditions := none
  deprecation := none

/-- The root selection set. -/
def selectionSet (root : RootField) : SelectionSet := ⟨root.place, some root.selections⟩

/-- Every selection set of the definition. -/
def writtenSets (root : RootField) : List (Place × SelectionTree) :=
  root.selections.writtenSets root.place

end RootField

/-- A built operation. -/
structure OperationShape where
  name : Option Name
  kind : OperationKind
  root : RootField
  mentions : Mentions
  /-- The path of the document that defines the operation. -/
  source : String
deriving Inhabited

/-- A built fragment. -/
structure FragmentShape where
  name : Name
  typeCondition : Name
  root : RootField
  mentions : Mentions
  /-- The path of the document that defines the fragment. -/
  source : String
  /-- The selection sets of the fragment and of those it spreads, relative to the fragment's root.
  They are placed wherever the fragment is spread. -/
  occurrences : List Occurrence
deriving Inhabited

end ResponseShape
