import ResponseShape.Compilation
import ResponseShape.Config.Basic
import ResponseShape.Definition.Shape
import ResponseShape.Merging.ViewCache

/-!
# Workspaces

A project is what shapes are built from; a workspace is what has been built so far. Builds run in
`Build`, which keeps the workspace when they fail: entities already known stay known, and a
definition that failed can be tried again.
-/

namespace ResponseShape

/-- A compilation and how to build it. -/
structure Project where
  compilation : Compilation
  config : Config
deriving Inhabited

/-- The schema of a project. -/
def Project.schema (project : Project) : Schema := project.compilation.schema

/-- An operation by its document and its name, which is unique within the document only. -/
structure OperationKey where
  document : Nat
  name : Option Name
deriving DecidableEq, Inhabited

/-- Everything built so far. -/
structure Workspace where
  entities : EntityTable
  operations : List (OperationKey × OperationShape)
  fragments : List FragmentShape
  cache : ViewCache
deriving Inhabited

namespace Workspace

/-- Nothing built. -/
def empty : Workspace := ⟨.empty, [], [], .empty⟩

/-- The built fragment of a name. -/
def fragment? (workspace : Workspace) (name : Name) : Option FragmentShape :=
  workspace.fragments.find? (·.name == name)

/-- The built operation of a document. -/
def operation? (workspace : Workspace) (key : OperationKey) : Option OperationShape :=
  workspace.operations.lookup key

/-- The occurrences that a spread of a fragment places, none before the fragment is built. -/
def fragmentOccurrences (workspace : Workspace) (name : Name) : List Occurrence :=
  ((workspace.fragment? name).map (·.occurrences)).getD []

end Workspace

/-- A step that may extend the workspace and may fail. -/
abbrev Build := ExceptT BuildError (StateM Workspace)

namespace Build

variable {α : Type}

/-- The outcome of a step and the workspace it leaves. -/
def runIn (build : Build α) (workspace : Workspace) : Except BuildError α × Workspace :=
  (ExceptT.run build).run workspace

/-- A step that leaves the workspace alone. -/
def ofExcept : Except BuildError α → Build α
  | .ok value => pure value
  | .error error => throw error

/-- The entity at a location, which enters the table on first use. -/
def entityAt (location : Location) (typePath : List Name) : Build Entity := do
  let workspace ← get
  let (entity, entities) := workspace.entities.intern location typePath
  set { workspace with entities }
  return entity

end Build

end ResponseShape
