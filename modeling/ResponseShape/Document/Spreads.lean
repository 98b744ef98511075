import ResponseShape.Document.Basic
import ResponseShape.Ordered

/-!
# Spreads of fragments

Which fragments selections reach by spreading them, directly or through other fragments, and how far
apart these can lie. `Document.spreadsAreBounded` says that no fragment reaches itself or heads a
long row of fragments, and `Document.selectionsAreBounded` that an operation can be followed through
all its fragments without going deep. Either way each fragment is entered once, where it is met
first, so a fragment that is also spread further on does not count for the way to there. What an
operation selects in some respect, those fragments included, is `Document.throughFragments`.
-/

namespace ResponseShape

namespace Selection

mutual

/-- The fragments that a selection spreads, at any depth. -/
def spreads : Selection → List Name
  | .field _ selections => spreadsOfAll selections
  | .inlineFragment _ _ selections => spreadsOfAll selections
  | .fragmentSpread name _ => [name]

/-- The fragments that selections spread, at any depth. -/
def spreadsOfAll : List Selection → List Name
  | [] => []
  | selection :: rest => spreads selection ++ spreadsOfAll rest

end

/-- The fragment that a selection spreads. -/
def spread? : Selection → Option Name
  | .fragmentSpread name _ => some name
  | _ => none

end Selection

namespace Document

/-- The selections of the fragment of a name. -/
def selectionsOf (document : Document) (name : Name) : List Selection :=
  ((document.fragment? name).map (·.selections)).getD []

/-- The fragments that a fragment spreads. -/
def spreadsOf (document : Document) (name : Name) : List Name :=
  Selection.spreadsOfAll (document.selectionsOf name)

/-- The fragments that selections reach through any number of spreads. -/
def reachableFragments (document : Document) (selections : List Selection) : List Name :=
  closure document.spreadsOf document.fragments.length
    (distinct (Selection.spreadsOfAll selections))

/-- What `choose` takes from selections and from the fragments spread among what it takes. -/
def throughFragments (document : Document) (choose : List Selection → List Selection)
    (selections : List Selection) : List Selection :=
  let ofFragment (name : Name) : List Selection := choose (document.selectionsOf name)
  let own := choose selections
  let fragments := closure (fun name => (ofFragment name).filterMap (·.spread?))
    document.fragments.length (distinct (own.filterMap (·.spread?)))
  own ++ fragments.flatMap ofFragment

/-- Follows a spread of a fragment and the spreads in it, passing over fragments seen before. The
result is the fragments seen then. There is none if the spreads come back to the fragment at their
root, or if a row of them holds more fragments than the given number. -/
def followSpread (document : Document) (root : Name) :
    Nat → List Name → Name → Option (List Name)
  | length, seen, name =>
      if name == root then none
      else if seen.contains name then some seen
      else
        match length with
        | 0 => none
        | length + 1 =>
            (document.spreadsOf name).foldlM (document.followSpread root length) (name :: seen)

/-- How many fragments can follow one another in a row below a fragment. -/
def maximalRow : Nat := 99

/-- Whether no fragment reaches itself or heads a long row of fragments. -/
def spreadsAreBounded (document : Document) : Bool :=
  document.fragments.all fun fragment =>
    ((document.spreadsOf fragment.name).foldlM
      (document.followSpread fragment.name maximalRow) []).isSome

/-- Goes through a selection and all below it, entering each fragment where it is met first, unless
it was seen before. The result is the fragments seen then. There is none if the way leads down more
than the given number of levels. -/
def followSelection (document : Document) :
    Nat → List Name → Selection → Option (List Name)
  | levels, seen, .fragmentSpread name _ =>
      if seen.contains name then some seen
      else
        match levels with
        | 0 => none
        | levels + 1 =>
            (document.selectionsOf name).foldlM (document.followSelection levels) (name :: seen)
  | levels + 1, seen, .field _ selections | levels + 1, seen, .inlineFragment _ _ selections =>
      selections.foldlM (document.followSelection levels) seen
  | 0, _, _ => none

/-- How many levels the selections of an operation can have, those of fragments included. -/
def maximalLevels : Nat := 500

/-- Whether the selections of an operation do not lie deep. -/
def selectionsAreBounded (document : Document) (operation : Operation) : Bool :=
  (operation.selections.foldlM (document.followSelection maximalLevels) []).isSome

end Document

end ResponseShape
