import ResponseShape.Document.Subscription

/-!
# Deferred selections

Selections behind `@defer` are delivered later than the response they belong to, under a label. Some
have to arrive with their response: the fields of a mutation or a subscription
(`Document.rootIsWhole`), and all that every event of a subscription selects
(`Document.eventsAreWhole`). The labels of one document tell its deferred parts from one another
(`Document.deferLabelsAreValid`).
-/

namespace ResponseShape

namespace Directive

/-- Whether a directive defers selections. -/
def isDefer (directive : Directive) : Bool := directive.name == "defer"

/-- Whether a directive can be turned off by its argument `if`. -/
def isOptional (directive : Directive) : Bool :=
  match directive.argument? "if" with
  | some (.boolean false) | some (.var _) => true
  | _ => false

/-- Whether a directive defers selections in any case. -/
def isCertainDefer (directive : Directive) : Bool := directive.isDefer && !directive.isOptional

/-- Whether a directive can leave selections out: a `@skip` or an `@include`, unless its argument
`if` is the Boolean that keeps them. -/
def canLeaveOut (directive : Directive) : Bool :=
  match directive.name, directive.argument? "if" with
  | "skip", some (.boolean false) | "include", some (.boolean true) => false
  | "skip", _ | "include", _ => true
  | _, _ => false

end Directive

namespace Selection

mutual

/-- The deferring directives of a selection and of all below it, fragments not entered. -/
def defers : Selection → List Directive
  | .field selected selections =>
      selected.directives.filter (·.isDefer) ++ defersOfAll selections
  | .inlineFragment _ directives selections =>
      directives.filter (·.isDefer) ++ defersOfAll selections
  | .fragmentSpread _ directives => directives.filter (·.isDefer)

/-- The deferring directives of selections and of all below them, fragments not entered. -/
def defersOfAll : List Selection → List Directive
  | [] => []
  | selection :: rest => defers selection ++ defersOfAll rest

end

mutual

/-- A selection and all below it, without those that can be left out. -/
def certain : Selection → List Selection
  | .field selected selections =>
      if selected.directives.any (·.canLeaveOut) then []
      else .field selected selections :: allCertain selections
  | .inlineFragment typeCondition directives selections =>
      if directives.any (·.canLeaveOut) then []
      else .inlineFragment typeCondition directives selections :: allCertain selections
  | .fragmentSpread name directives =>
      if directives.any (·.canLeaveOut) then [] else [.fragmentSpread name directives]

/-- Selections and all below them, without those that can be left out. -/
def allCertain : List Selection → List Selection
  | [] => []
  | selection :: rest => certain selection ++ allCertain rest

end

end Selection

namespace Document

/-- The deferring directives of a document. -/
def defers (document : Document) : List Directive :=
  document.operations.flatMap (fun operation => Selection.defersOfAll operation.selections)
    ++ document.fragments.flatMap fun fragment => Selection.defersOfAll fragment.selections

/-- The labels of the deferred parts of a document. -/
def deferLabels (document : Document) : List Value :=
  document.defers.filterMap (·.argument? "label")

/-- Whether no label of a deferred part is left to a variable, and no text labels two parts. -/
def deferLabelsAreValid (document : Document) : Bool :=
  let labels := document.deferLabels
  !labels.any (fun
    | .var _ => true
    | _ => false)
    && areDistinct (labels.filterMap fun
      | .string text => some text
      | _ => none)

/-- Whether an operation, if it is a mutation or a subscription, has no deferred fragment on its
root, even one that could be turned off. -/
def rootIsWhole (document : Document) (operation : Operation) : Bool :=
  operation.kind == .query
    || !(document.selectionsOnObject operation.selections).any fun selection =>
      selection.field?.isNone && selection.directives.any (·.isDefer)

/-- Whether an operation, if it is a subscription, does not defer in any case what it selects in any
case. -/
def eventsAreWhole (document : Document) (operation : Operation) : Bool :=
  operation.kind != .subscription
    || !(document.throughFragments Selection.allCertain operation.selections).any fun selection =>
      selection.directives.any (·.isCertainDefer)

end Document

end ResponseShape
