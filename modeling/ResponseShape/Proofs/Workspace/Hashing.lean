import ResponseShape.Proofs.Merging.Caching
import ResponseShape.Proofs.Scope.Agreement

/-!
# Hashing

Groups compare without the order in which their tests are listed, and so does all that is built from
them: narrowings, scopes, places and the keys of the cache. A hash map finds an entry only if equal
keys are hashed alike, so nothing of a key may be hashed that depends on that order.

What is hashed of a key is its form, in which every group is sorted (`IsHashedBy`). The tests of a
group are of distinct variables, so sorting leaves them no choice: groups compare equal exactly if
they are the same once sorted (`ConditionGroup.isHashedBy_sorted`). Options, lists and records pass
this on from their parts to themselves, up to the keys of the cache
(`ConditionGroup.sorted_canonical_and_keys_found`).
-/

namespace ResponseShape

section Forms

variable {Key Form : Type} [BEq Key] [Hashable Key] [Hashable Form] {form : Key → Form}

/-- Whether hash maps have the same entry under equal keys. -/
def FindsAlike (Key : Type) [BEq Key] [Hashable Key] : Prop :=
  ∀ (Value : Type) (entries : Std.HashMap Key Value) (key other : Key), (key == other) = true →
    entries[key]? = entries[other]? ∧ ∀ value, (entries.insert key value)[other]? = some value

/-- Whether keys are hashed by a form that says as much of them as comparison sees. -/
structure IsHashedBy (form : Key → Form) : Prop where
  beq_iff : ∀ key other : Key, (key == other) = true ↔ form key = form other
  hash_eq : ∀ key, hash key = hash (form key)
  /-- Whatever code a hasher makes of a form. -/
  finds : ∀ code : Form → UInt64, @FindsAlike Key _ ⟨code ∘ form⟩

/-- Keys that are compared and hashed by their forms are found, as equal ones have one code. -/
theorem isHashedBy_of (beq_iff : ∀ key other : Key, (key == other) = true ↔ form key = form other)
    (hash_eq : ∀ key, hash key = hash (form key)) : IsHashedBy form := by
  refine ⟨beq_iff, hash_eq, fun code Value => ?_⟩
  let _ : Hashable Key := ⟨code ∘ form⟩
  have equivalence : EquivBEq Key := {
    rfl := (beq_iff _ _).mpr rfl
    symm := fun same => (beq_iff _ _).mpr ((beq_iff _ _).mp same).symm
    trans := fun same further =>
      (beq_iff _ _).mpr (((beq_iff _ _).mp same).trans ((beq_iff _ _).mp further)) }
  have lawful : LawfulHashable Key :=
    ⟨fun key other same => congrArg code ((beq_iff key other).mp same)⟩
  intro entries key other same
  refine ⟨Std.HashMap.getElem?_congr same, fun value => ?_⟩
  rw [Std.HashMap.getElem?_insert, if_pos same]

namespace IsHashedBy

variable (hashed : IsHashedBy form)

include hashed

theorem option : IsHashedBy (Option.map form) := by
  apply isHashedBy_of
  · rintro (_ | key) (_ | other)
    · simp
    · simp
    · simp
    · simpa using hashed.beq_iff key other
  · rintro (_ | key)
    · rfl
    · change mixHash (hash key) 13 = mixHash (hash (form key)) 13
      rw [hashed.hash_eq]

theorem list : IsHashedBy (List.map form) := by
  apply isHashedBy_of
  · intro keys others
    have pairs : keys.map form = others.map form
        ↔ List.Forall₂ (fun key other => form key = form other) keys others := by
      rw [← List.forall₂_eq_eq_eq, List.forall₂_map_left_iff, List.forall₂_map_right_iff]
    simp only [pairs, ← hashed.beq_iff]
    exact ⟨forall₂_of_beq, beq_of_forall₂⟩
  · intro keys
    change keys.foldl (fun code key => mixHash code (hash key)) 7
      = (keys.map form).foldl (fun code part => mixHash code (hash part)) 7
    simp only [List.foldl_map, hashed.hash_eq]

end IsHashedBy

end Forms

namespace ConditionGroup

variable {group other : ConditionGroup} {known otherKnown : Option ConditionGroup}
  {test : VariableTest}

theorem mem_sorted : test ∈ group.sorted ↔ test ∈ group.tests :=
  group.perm_sorted.mem_iff

theorem beq_iff_sorted_eq : (group == other) = true ↔ group.sorted = other.sorted := by
  constructor
  · exact sorted_eq_of_beq
  · intro same
    apply beq_iff_mem.mpr
    intro test
    rw [← mem_sorted, same, mem_sorted]

theorem isHashedBy_sorted : IsHashedBy sorted :=
  isHashedBy_of (fun _ _ => beq_iff_sorted_eq) fun _ => rfl

/-- What is left to test are the tests of the group that are not known to be passed. -/
theorem mem_remainderIn_iff : (∃ remaining ∈ group.remainderIn known, test ∈ remaining.tests)
    ↔ test ∈ group.tests ∧ ∀ inside ∈ known, test ∉ inside.tests := by
  constructor
  · rintro ⟨remaining, remains, left⟩
    refine ⟨mem_of_remainderIn remains left, fun inside isKnown => ?_⟩
    rw [Option.mem_def] at isKnown
    subst isKnown
    exact not_mem_of_remainderIn remains left
  · rintro ⟨made, unknown⟩
    rcases mem_remainderIn_or_scope known made with left | ⟨inside, isKnown, passed⟩
    · exact left
    · exact absurd passed (unknown inside isKnown)

/-- What is left of equal groups within equal scopes is equal. -/
theorem remainderIn_congr (same : (group == other) = true)
    (sameKnown : (known == otherKnown) = true) :
    (group.remainderIn known == other.remainderIn otherKnown) = true := by
  apply TestAlike.beq
  intro test
  rw [mem_remainderIn_iff, mem_remainderIn_iff, beq_iff_mem.mp same]
  cases known with
  | none =>
      cases otherKnown with
      | none => simp
      | some partner => simp at sameKnown
  | some inside =>
      cases otherKnown with
      | none => simp at sameKnown
      | some partner => simp [beq_iff_mem.mp (Option.some_beq_some.symm.trans sameKnown)]

end ConditionGroup

namespace InclusionResult

variable {left right : InclusionResult} {tests others : List VariableTest}

theorem sorted_eq_of_beq (same : (left == right) = true) :
    left.group?.map (·.sorted) = right.group?.map (·.sorted) := by
  rcases left with group | included
  · rcases right with other | others
    · exact congrArg some (ConditionGroup.sorted_eq_of_beq same)
    · cases same
  · rcases right with other | others
    · cases same
    · rfl

/-- Tests make the same group, once sorted, in whatever order and however often they are written. -/
theorem sorted_allOf_congr (same : ∀ test, test ∈ tests ↔ test ∈ others) :
    (allOf tests).group?.map (·.sorted) = (allOf others).group?.map (·.sorted) :=
  sorted_eq_of_beq (beq_allOf_iff.mpr fun _ => by simp only [same])

end InclusionResult

namespace Narrowing

/-- The forms of narrowings. -/
abbrev Form := Option Name × Option (List VariableTest) × Option Defer

/-- What is hashed of a narrowing. -/
def form (narrowing : Narrowing) : Form :=
  (narrowing.typeCondition, narrowing.conditions.map (·.sorted), narrowing.defer)

theorem isHashedBy_form : IsHashedBy form := by
  have conditions := ConditionGroup.isHashedBy_sorted.option
  apply isHashedBy_of
  · intro narrowing other
    change (narrowing.typeCondition == other.typeCondition
      && narrowing.conditions == other.conditions && narrowing.defer == other.defer) = true ↔ _
    simp only [Bool.and_eq_true, beq_iff_eq, conditions.beq_iff, form, Prod.mk.injEq, and_assoc]
  · intro narrowing
    change mixHash _ (mixHash (hash narrowing.conditions) _) = mixHash _ (mixHash _ _)
    rw [conditions.hash_eq]

end Narrowing

namespace Scope

/-- What is hashed of a scope: its path alone. -/
def form (scope : Scope) : List Narrowing.Form := scope.path.map (·.form)

theorem isHashedBy_form : IsHashedBy form := by
  have paths := Narrowing.isHashedBy_form.list
  exact isHashedBy_of (fun scope other => paths.beq_iff scope.path other.path)
    fun scope => paths.hash_eq scope.path

end Scope

theorem Entity.isHashedBy_location : IsHashedBy Entity.location := by
  apply isHashedBy_of
  · intro entity other
    change (entity.location == other.location) = true ↔ _
    exact beq_iff_eq
  · exact fun _ => rfl

namespace Place

/-- The forms of places. -/
abbrev Form := Location × List (List Narrowing.Form) × List Narrowing.Form

/-- What is hashed of a place. -/
def form (place : Place) : Form :=
  (place.entity.location, place.enclosing.map (·.form), place.scope.form)

theorem isHashedBy_form : IsHashedBy form := by
  have enclosing := Scope.isHashedBy_form.list
  apply isHashedBy_of
  · intro place other
    simp only [beq_iff, enclosing.beq_iff, Scope.isHashedBy_form.beq_iff, form, Prod.mk.injEq]
  · intro place
    change mixHash _ (mixHash (hash place.enclosing) (hash place.scope)) = mixHash _ (mixHash _ _)
    rw [enclosing.hash_eq, Scope.isHashedBy_form.hash_eq]
    rfl

end Place

namespace ViewKey

/-- What is hashed of a key of the cache. -/
def form (key : ViewKey) : Place.Form × MergingStrategy × Bool :=
  (key.place.form, key.strategy, key.isDirect)

theorem isHashedBy_form : IsHashedBy form := by
  apply isHashedBy_of
  · intro key other
    simp only [beq_iff, Place.isHashedBy_form.beq_iff, form, Prod.mk.injEq]
  · intro key
    change mixHash (hash key.place) _ = mixHash _ _
    rw [Place.isHashedBy_form.hash_eq]
    rfl

end ViewKey

/-- Branches are found under all narrowings that compare equal to their own. -/
theorem find?_branches_congr {branches : List Branch} {key other : Narrowing}
    (same : (key == other) = true) :
    branches.find? (·.key == key) = branches.find? (·.key == other) := by
  simp only [BEq.congr_right same]

/-- Groups compare equal exactly if they are the same once sorted, and they are if they were made of
the same tests, however written, or are what is left of equal groups. All keys built from groups are
hashed by forms in which these are sorted, so a map has one entry under keys that compare equal. -/
theorem ConditionGroup.sorted_canonical_and_keys_found :
    (∀ group other : ConditionGroup, (group == other) = true ↔ group.sorted = other.sorted)
    ∧ (∀ tests others : List VariableTest, (∀ test, test ∈ tests ↔ test ∈ others) →
      (InclusionResult.allOf tests).group?.map (·.sorted)
        = (InclusionResult.allOf others).group?.map (·.sorted))
    ∧ (∀ (group other : ConditionGroup) (known otherKnown : Option ConditionGroup),
      (group == other) = true → (known == otherKnown) = true →
        (group.remainderIn known).map (·.sorted) = (other.remainderIn otherKnown).map (·.sorted))
    ∧ IsHashedBy ConditionGroup.sorted ∧ IsHashedBy Narrowing.form ∧ IsHashedBy Scope.form
    ∧ IsHashedBy Entity.location ∧ IsHashedBy Place.form ∧ IsHashedBy ViewKey.form
    ∧ (∀ key other : Narrowing, (key == other) = true →
      (∀ tree : SelectionTree, tree.branch? key = tree.branch? other)
        ∧ ∀ visible : VisibleSelections, visible.branch? key = visible.branch? other)
    ∧ ∀ (cache : ViewCache) (key other : ViewKey), (key == other) = true →
      cache.result? key = cache.result? other
        ∧ ∀ content, (cache.setSlot key content).result? other = content := by
  refine ⟨fun _ _ => beq_iff_sorted_eq, fun _ _ => InclusionResult.sorted_allOf_congr, ?_,
    isHashedBy_sorted, Narrowing.isHashedBy_form, Scope.isHashedBy_form, Entity.isHashedBy_location,
    Place.isHashedBy_form, ViewKey.isHashedBy_form, ?_, ?_⟩
  · intro group other known otherKnown same sameKnown
    exact (isHashedBy_sorted.option.beq_iff _ _).mp (remainderIn_congr same sameKnown)
  · intro key other same
    refine ⟨fun tree => find?_branches_congr same, fun visible => ?_⟩
    have direct (tree : SelectionTree) : tree.branch? key = tree.branch? other :=
      find?_branches_congr same
    have added : visible.additions.branch? key = visible.additions.branch? other :=
      find?_branches_congr same
    simp only [VisibleSelections.branch?, direct, added]
  · intro cache key other same
    refine ⟨cache.result?_congr same, fun content => ?_⟩
    rw [cache.result?_setSlot, if_pos (BEq.symm same)]

/-- Maps have what was stored under one of two scopes that differ in the order of their tests under
the other one too. -/
theorem ConditionGroup.sorted_canonical_and_keys_found_petsIf :
    Animals.petsIf Animals.firstAndSecond ≠ Animals.petsIf Animals.secondAndFirst
    ∧ ∀ (code : List Narrowing.Form → UInt64)
      (entries : @Std.HashMap Scope Name _ ⟨code ∘ Scope.form⟩),
      (entries.insert (Animals.petsIf Animals.firstAndSecond) "Pets").get?
        (Animals.petsIf Animals.secondAndFirst) = some "Pets" := by
  rcases sorted_canonical_and_keys_found with ⟨-, -, -, -, -, scopes, -⟩
  refine ⟨by decide +kernel, fun code entries => ?_⟩
  exact (scopes.finds code Name entries _ _ (by decide +kernel)).2 "Pets"

end ResponseShape
