import ResponseShape.Selection.SelectionTree

/-!
# Occurrences

An occurrence is a selection tree as seen from the entity it selects on.
-/

namespace ResponseShape

/-- Selections that occur at a place. -/
structure Occurrence where
  place : Place
  selections : SelectionTree
  /-- The fragment the selections are written in, if they are reached through a spread. -/
  fragment : Option Name
deriving Inhabited

end ResponseShape
