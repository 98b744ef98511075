import ResponseShape.Merging.Merge

/-!
# The cache of visible selections

What is visible at a place is computed once for each strategy. A slot appears when it is first asked
for; it stays empty until a computation for it succeeds.
-/

namespace ResponseShape

/-- What identifies a computation. A set without direct selections can stand at the place of one
that has them. -/
structure ViewKey where
  place : Place
  strategy : MergingStrategy
  isDirect : Bool
deriving Inhabited

instance : BEq ViewKey :=
  ⟨fun left right => left.place == right.place && left.strategy == right.strategy
    && left.isDirect == right.isDirect⟩

instance : Hashable ViewKey :=
  ⟨fun key => mixHash (hash key.place) (mixHash (hash key.strategy) (hash key.isDirect))⟩

/-- The key of a selection set under a strategy. -/
def SelectionSet.viewKey (set : SelectionSet) (strategy : MergingStrategy) : ViewKey :=
  ⟨set.place, strategy, set.direct.isSome⟩

/-- What was found visible, and how many computations ran for it. -/
structure ViewCache where
  slots : List (ViewKey × Option VisibleSelections)
  computations : Nat
deriving Inhabited

namespace ViewCache

/-- No slots. -/
def empty : ViewCache := ⟨[], 0⟩

/-- How many slots were asked for. -/
def size (cache : ViewCache) : Nat := cache.slots.length

/-- Whether no slot was asked for. -/
def isEmpty (cache : ViewCache) : Bool := cache.slots.isEmpty

/-- Forgets the slots, but not how many computations ran. -/
def clear (cache : ViewCache) : ViewCache := { cache with slots := [] }

/-- The result in a slot. -/
def result? (cache : ViewCache) (key : ViewKey) : Option VisibleSelections :=
  (cache.slots.lookup key).join

/-- The cache with a slot of the given content. -/
def setSlot (cache : ViewCache) (key : ViewKey) (content : Option VisibleSelections) :
    ViewCache :=
  { cache with
    slots := updateOrAppend (·.1 == key) (fun (known, _) => (known, content)) (key, content)
      cache.slots }

/-- The result in a slot or, if there is none, that of the given computation. Only a success is
stored. -/
def getOrCompute (cache : ViewCache) (key : ViewKey)
    (computation : Unit → Except BuildError VisibleSelections) :
    Except BuildError VisibleSelections × ViewCache :=
  match cache.result? key with
  | some known => (.ok known, cache)
  | none =>
      let counted := { cache with computations := cache.computations + 1 }
      match computation () with
      | .ok visible => (.ok visible, counted.setSlot key (some visible))
      | .error error => (.error error, counted.setSlot key none)

end ViewCache

end ResponseShape
