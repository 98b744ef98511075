import ResponseShape.Definition.Placement
import ResponseShape.Definition.Selections

/-!
# Building definitions

Operations and fragments are built when they are first asked for, and only once. A fragment is
built while the definition that spreads it is; fragments that do not spread themselves nest at
most as deep as there are fragments.
-/

namespace ResponseShape.Build

/-- Builds a fragment from its definition. -/
def fragmentDefinition (project : Project) (fragment : Name → Build FragmentShape)
    (document : DocumentFile) (definition : Fragment) : Build FragmentShape := do
  let built ← root project fragment (.fragment definition.name) definition.name
    definition.typeCondition definition.selections
  let occurrences ← register project built.value
  return {
    name := definition.name
    typeCondition := definition.typeCondition
    root := built.value
    mentions := built.mentions
    source := document.path
    occurrences }

/-- Stores a built fragment. -/
def storeFragment (shape : FragmentShape) : Build Unit :=
  modify fun workspace => { workspace with fragments := workspace.fragments ++ [shape] }

/-- The fragment of a name, built if it is not yet, while fragments nest at most `height` deep. -/
def fragmentWithin (project : Project) : Nat → Name → Build FragmentShape
  | height, name => do
      match project.compilation.fragment? name with
      | none => throw (.unknownFragment name)
      | some (document, definition) =>
          match (← get).fragment? name with
          | some shape => return shape
          | none =>
              match height with
              | 0 => throw (.cyclicFragment name)
              | height + 1 =>
                  let shape ← fragmentDefinition project (fragmentWithin project height) document
                    definition
                  storeFragment shape
                  return shape

/-- The fragment of a name, built if it is not yet. -/
def fragment (project : Project) (name : Name) : Build FragmentShape :=
  fragmentWithin project project.compilation.fragmentDefinitions.length name

/-- Builds an operation from its definition. -/
def operationDefinition (project : Project) (index : Nat) (document : DocumentFile)
    (definition : Operation) : Build OperationShape := do
  let built ← root project (fragment project)
    (.operation index definition.kind definition.name) "data" definition.rootType
    definition.selections
  let _ ← register project built.value
  return {
    name := definition.name
    kind := definition.kind
    root := built.value
    mentions := built.mentions
    source := document.path }

/-- The given operation, built if it is not yet. -/
def operationIn (project : Project) (index : Nat) (document : DocumentFile)
    (definition : Operation) : Build OperationShape := do
  let key : OperationKey := ⟨index, definition.name⟩
  match (← get).operation? key with
  | some shape => return shape
  | none =>
      let shape ← operationDefinition project index document definition
      modify fun workspace =>
        { workspace with operations := workspace.operations ++ [(key, shape)] }
      return shape

/-- The operation of a name, or the anonymous one, built if it is not yet. Of several documents that
define it the first one counts. -/
def operation (project : Project) (name : Option Name) : Build OperationShape := do
  let candidates := project.compilation.documents.zipIdx.filterMap fun (document, index) =>
    (document.document.operation? name).map (index, document, ·)
  match candidates with
  | [] => throw (.unknownOperation name)
  | (index, document, definition) :: _ => operationIn project index document definition

end ResponseShape.Build

namespace ResponseShape

/-- Every definition of a project. -/
structure Shapes where
  operations : List OperationShape
  fragments : List FragmentShape
deriving Inhabited

namespace Shapes

/-- The named operation. -/
def operation? (shapes : Shapes) (name : Name) : Option OperationShape :=
  shapes.operations.find? (·.name == some name)

/-- The fragment of a name. -/
def fragment? (shapes : Shapes) (name : Name) : Option FragmentShape :=
  shapes.fragments.find? (·.name == name)

end Shapes

namespace Build

/-- Builds every operation of every document, then every fragment, in order. -/
def all (project : Project) : Build Shapes := do
  let operations ← project.compilation.documents.zipIdx.mapM fun (document, index) =>
    document.document.operations.mapM (operationIn project index document)
  let fragments ← project.compilation.fragments.mapM fun (_, definition) =>
    fragment project definition.name
  return ⟨operations.flatten, fragments⟩

/-- Everything selected at a place under a strategy, computed if it is not yet. -/
def viewUnder (project : Project) (selectionSet : SelectionSet) (strategy : MergingStrategy) :
    Build VisibleSelections := do
  let workspace ← get
  let (outcome, cache) := workspace.cache.getOrCompute (selectionSet.viewKey strategy) fun _ =>
    selectionSet.visible project.schema workspace.entities strategy
  set { workspace with cache }
  ofExcept outcome

/-- Everything selected at a place under the configured strategy. -/
def view (project : Project) (selectionSet : SelectionSet) : Build VisibleSelections :=
  viewUnder project selectionSet project.config.mergingStrategy

end Build

end ResponseShape
