import ResponseShape.Merging.Visibility

/-!
# Visible selections

Everything selected at one place: what is written there, and what other occurrences of the same
entity add. A direct field that some occurrence selects under weaker conditions is widened; a
field or branch that only occurs elsewhere gets a selection set without direct selections.
-/

namespace ResponseShape

/-- An occurrence that contributed at least one selection. -/
structure Contributor where
  place : Place
  origin : Origin
deriving Inhabited

instance : BEq Contributor :=
  ⟨fun left right => left.place == right.place && left.origin == right.origin⟩

/-- What merging adds to the direct selections of a place. -/
structure Additions where
  /-- Direct fields that are also selected under weaker conditions, with these conditions. -/
  widened : List Field
  /-- Fields without a direct selection. -/
  fields : List Field
  /-- Branches without a direct selection. -/
  branches : List Branch
  /-- Spreads of fragments that are not directly spread. -/
  spreads : List Spread
deriving Inhabited

namespace Additions

/-- Nothing added. -/
def empty : Additions := ⟨[], [], [], []⟩

/-- The widened form of a direct field. -/
def widened? (additions : Additions) (responseKey : Name) : Option Field :=
  additions.widened.find? (·.responseKey == responseKey)

/-- The added field of a response key. -/
def field? (additions : Additions) (responseKey : Name) : Option Field :=
  additions.fields.find? (·.responseKey == responseKey)

/-- The added branch of a key. -/
def branch? (additions : Additions) (key : Narrowing) : Option Branch :=
  additions.branches.find? (·.key == key)

/-- The added spread of a fragment. -/
def spread? (additions : Additions) (name : Name) : Option Spread :=
  additions.spreads.find? (·.name == name)

end Additions

/-- Everything selected at one place, merged under one strategy. -/
structure VisibleSelections where
  place : Place
  strategy : MergingStrategy
  direct : Option SelectionTree
  additions : Additions
  /-- Where the additions come from, in the order of merging. -/
  contributors : List Contributor
deriving Inhabited

namespace VisibleSelections

/-- The type that is selected on. -/
def type (visible : VisibleSelections) : Name := visible.place.type

/-- Direct fields in their order, widened where they are, followed by the added ones. -/
def fields (visible : VisibleSelections) : List Field :=
  ((visible.direct.map (·.fields)).getD []).map (fun field =>
      (visible.additions.widened? field.responseKey).getD field)
    ++ visible.additions.fields

/-- The field of a response key. -/
def field? (visible : VisibleSelections) (responseKey : Name) : Option Field :=
  ((visible.additions.widened? responseKey).or
    (visible.direct.bind (·.field? responseKey))).or (visible.additions.field? responseKey)

/-- Direct branches, followed by the added ones. -/
def branches (visible : VisibleSelections) : List Branch :=
  (visible.direct.map (·.branches)).getD [] ++ visible.additions.branches

/-- The branch of a key. -/
def branch? (visible : VisibleSelections) (key : Narrowing) : Option Branch :=
  (visible.direct.bind (·.branch? key)).or (visible.additions.branch? key)

/-- The branch that asks for nothing but a type. -/
def branchOn? (visible : VisibleSelections) (type : Name) : Option Branch :=
  visible.branches.find? (·.narrowing.isOnlyOn type)

/-- Direct spreads, followed by the added ones. -/
def spreads (visible : VisibleSelections) : List Spread :=
  (visible.direct.map (·.spreads)).getD [] ++ visible.additions.spreads

/-- The spread of a fragment. -/
def spread? (visible : VisibleSelections) (name : Name) : Option Spread :=
  (visible.direct.bind (·.spread? name)).or (visible.additions.spread? name)

/-- The contributor that the place merely passes on: nothing is directly selected, and nothing else
contributed. The place's type can then be an alias of the contributor's. -/
def aliased? (visible : VisibleSelections) : Option Contributor :=
  if visible.direct.any fun direct => !direct.isEmpty then none
  else
    match visible.contributors with
    | [contributor] => some contributor
    | _ => none

/-- Fields, branches and spreads, one a line between braces. -/
def render (visible : VisibleSelections) : String :=
  "\x7b\n"
    ++ String.join (visible.fields.map fun field => "  " ++ field.summary.render ++ "\n")
    ++ String.join (visible.branches.map fun branch => "  ... " ++ branch.key.render ++ "\n")
    ++ String.join (visible.spreads.map fun spread => "  ..." ++ spread.name ++ "\n")
    ++ "\x7d"

end VisibleSelections

end ResponseShape
