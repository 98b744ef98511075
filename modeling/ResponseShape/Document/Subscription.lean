import ResponseShape.Document.Spreads

/-!
# Subscriptions

A subscription is a stream of events of one kind, so it selects a single field of its root type,
always and not for introspection. `Document.subscriptionIsSingle` looks for the root's fields in the
operation itself and in every fragment that stands on the root.
-/

namespace ResponseShape

namespace Selection

mutual

/-- A selection and those made on the same object below it, fragment spreads not followed. -/
def onSameObject : Selection → List Selection
  | .field selected selections => [.field selected selections]
  | .inlineFragment typeCondition directives selections =>
      .inlineFragment typeCondition directives selections :: allOnSameObject selections
  | .fragmentSpread name directives => [.fragmentSpread name directives]

/-- Selections and those made on the same object below them, fragment spreads not followed. -/
def allOnSameObject : List Selection → List Selection
  | [] => []
  | selection :: rest => onSameObject selection ++ allOnSameObject rest

end

/-- The field that a selection selects. -/
def field? : Selection → Option FieldSelection
  | .field selected _ => some selected
  | _ => none

/-- The directives of a selection. -/
def directives : Selection → List Directive
  | .field selected _ => selected.directives
  | .inlineFragment _ directives _ => directives
  | .fragmentSpread _ directives => directives

/-- Whether a selection counts under some conditions only. -/
def isConditional (selection : Selection) : Bool :=
  selection.directives.any fun directive =>
    directive.name == "skip" || directive.name == "include"

end Selection

namespace Document

/-- All selections made on one object by the given ones, those of fragments included. -/
def selectionsOnObject (document : Document) (selections : List Selection) : List Selection :=
  document.throughFragments Selection.allOnSameObject selections

/-- Whether an operation, if it is a subscription, selects no more than one field of its root type,
unconditionally and not for introspection. -/
def subscriptionIsSingle (document : Document) (operation : Operation) : Bool :=
  let selections := document.selectionsOnObject operation.selections
  let names := selections.filterMap fun selection => selection.field?.map (·.name)
  operation.kind != .subscription
    || (names.length ≤ 1 && !selections.any (·.isConditional)
      && !names.any ["__typename", "__schema", "__type"].contains)

end Document

end ResponseShape
