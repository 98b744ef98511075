import ResponseShape.Proofs.Schema.Supertypes

/-!
# Subtyping agrees with possible types

Upwards a type is asked for its supertypes, downwards for its possible objects, and the two answers
come from different parts of a schema. In a lawful schema they agree
(`Schema.IsLawful.isSubtype_agrees_possibleTypes`): a subtype has no objects that its supertype does
not have, and an object type is a subtype of just those types that it is a possible object of. One
way this is an induction along the chain of steps up. The other way no chain is needed, since an
object type of a lawful schema declares every interface that it implements.
-/

namespace ResponseShape.Schema

variable {schema : Schema} {name object supertype left right : Name} {type : TypeDefinition}
  {objects lefts rights : List Name}

theorem isPossible_iff (known : schema.possibleTypes name = .ok objects) :
    schema.isPossible name object = true ↔ object ∈ objects := by
  simp [isPossible, known]

theorem exists_possibleTypes (isType : schema.get name = .ok type) :
    ∃ objects, schema.possibleTypes name = .ok objects := by
  simp [possibleTypes, isType, Except.map]

theorem exists_get_of_isComposite (isComposite : schema.isComposite name = .ok true) :
    ∃ type, schema.get name = .ok type ∧ type.kind.isComposite = true := by
  unfold Schema.isComposite kind at isComposite
  cases isType : schema.get name with
  | error error => simp [isType, Except.map] at isComposite
  | ok type => exact ⟨type, rfl, by simpa [isType, Except.map] using isComposite⟩

section Overlap

theorem typesOverlap_eq (ofLeft : schema.possibleTypes left = .ok lefts)
    (ofRight : schema.possibleTypes right = .ok rights) :
    schema.typesOverlap left right = .ok (rights.any lefts.contains) := by
  simp [typesOverlap, ofLeft, ofRight, bind, Except.bind, pure, Except.pure]

theorem any_contains_comm (lefts rights : List Name) :
    rights.any lefts.contains = lefts.any rights.contains := by
  rw [Bool.eq_iff_iff]
  simp only [List.any_eq_true, List.contains_eq_mem, decide_eq_true_eq]
  constructor <;> exact fun ⟨object, mem, other⟩ => ⟨object, other, mem⟩

theorem typesOverlap_comm (ofLeft : schema.possibleTypes left = .ok lefts)
    (ofRight : schema.possibleTypes right = .ok rights) :
    schema.typesOverlap left right = schema.typesOverlap right left := by
  rw [typesOverlap_eq ofLeft ofRight, typesOverlap_eq ofRight ofLeft, any_contains_comm]

end Overlap

namespace IsLawful

theorem exists_get_of_stepsUp (lawful : schema.IsLawful) (step : schema.StepsUp name supertype) :
    ∃ type, schema.get supertype = .ok type := by
  rw [stepsUp_eq] at step
  rcases step with ⟨isType, -, declared⟩ | ⟨-, -, unionMem, -, -⟩
  · have typeMem := (mem_types_of_get (get_eq_ok_iff.mpr isType)).1
    rcases lawful.interfaces _ typeMem _ declared with ⟨interface, interfaceMem, rfl, -⟩
    exact ⟨interface, lawful.get_name interfaceMem⟩
  · exact ⟨_, lawful.get_name unionMem⟩

theorem exists_supertypes (lawful : schema.IsLawful) (isType : schema.get name = .ok type) :
    ∃ supertypes, schema.supertypes name = .ok supertypes := by
  rw [← hasDefinedSupertypes_iff]
  intro above reached
  induction reached with
  | refl => exact ⟨type, isType⟩
  | tail _ step _ => exact lawful.exists_get_of_stepsUp step

/-- Asked in a lawful schema whether a type is a subtype, the answer is whether steps up lead to the
other. -/
theorem exists_isSubtype (lawful : schema.IsLawful) (isType : schema.get name = .ok type)
    (supertype : Name) : ∃ isBelow, schema.isSubtype supertype name = .ok isBelow
      ∧ (isBelow = true ↔ Relation.ReflTransGen schema.StepsUp name supertype) := by
  unfold isSubtype
  split
  next same =>
    rcases beq_iff_eq.mp same with rfl
    exact ⟨true, rfl, by simpa using .refl⟩
  next =>
    rcases lawful.exists_supertypes isType with ⟨supertypes, known⟩
    refine ⟨supertypes.contains supertype, by simp [known, Except.map], ?_⟩
    simpa using mem_supertypes_iff known

/-- What an object type is a possible object of is itself or one step up from it. -/
theorem eq_or_stepsUp_of_isPossible (lawful : schema.IsLawful) (isType : schema.get name = .ok type)
    (isObject : type.kind = .object) (possible : schema.isPossible supertype name = true) :
    supertype = name ∨ schema.StepsUp name supertype := by
  rcases mem_types_of_get isType with ⟨typeMem, typeName⟩
  cases isAbove : schema.get supertype with
  | error error => simp [isPossible, possibleTypes, isAbove, Except.map] at possible
  | ok above =>
      rcases mem_types_of_get isAbove with ⟨aboveMem, aboveName⟩
      have step (direct : supertype ∈ schema.directSupertypes type) :
          schema.StepsUp name supertype := ⟨type, isType, direct⟩
      simp only [directSupertypes, isObject, List.mem_append] at step
      cases aboveKind : above.kind with
      | object =>
          rw [isPossible_of_object isAbove aboveKind, beq_iff_eq, aboveName] at possible
          exact .inl possible.symm
      | interface =>
          rcases (isPossible_of_interface isAbove aboveKind).mp possible with
            ⟨candidate, candidateMem, -, declares, candidateName⟩
          rcases lawful.eq_of_name candidateMem typeMem (candidateName.trans typeName.symm) with rfl
          exact .inr (step (.inl declares))
      | union =>
          have listed : name ∈ above.members := by
            rcases above with ⟨_, _, body⟩
            cases body <;> simp_all [TypeDefinition.kind, TypeBody.kind, isPossible, possibleTypes,
              Except.map, TypeDefinition.members, TypeBody.members]
          refine .inr (step (.inr ?_))
          rw [← aboveName]
          refine List.mem_map_of_mem (List.mem_filter.mpr ⟨aboveMem, ?_⟩)
          simpa [typeName] using listed
      | scalar | enum | inputObject =>
          have isLeaf : schema.isComposite supertype = .ok false := by
            simp [isComposite, Schema.kind, isAbove, Except.map, aboveKind, TypeKind.isComposite]
          simp [not_isPossible_of_leaf isLeaf] at possible

/-- Subtyping agrees with possible types. In a lawful schema all questions about composite types are
answered. A subtype has no objects that the supertype does not have. An object type is a subtype
exactly of what it is a possible object of. Types overlap or not, whichever comes first, and they do
if one is a subtype and has an object. -/
theorem isSubtype_agrees_possibleTypes (lawful : schema.IsLawful) {subtype : Name}
    (isComposite : schema.isComposite subtype = .ok true)
    (isCompositeAbove : schema.isComposite supertype = .ok true) :
    ∃ isBelow objects objectsAbove overlap,
      schema.isSubtype supertype subtype = .ok isBelow
      ∧ schema.possibleTypes subtype = .ok objects
      ∧ schema.possibleTypes supertype = .ok objectsAbove
      ∧ schema.typesOverlap subtype supertype = .ok overlap
      ∧ schema.typesOverlap supertype subtype = .ok overlap
      ∧ (isBelow = true → ∀ object ∈ objects, object ∈ objectsAbove)
      ∧ (schema.kind subtype = .ok .object → (isBelow = true ↔ subtype ∈ objectsAbove))
      ∧ (isBelow = true → objects ≠ [] → overlap = true) := by
  rcases exists_get_of_isComposite isComposite with ⟨type, isType, -⟩
  rcases exists_get_of_isComposite isCompositeAbove with ⟨above, isAbove, -⟩
  rcases lawful.exists_isSubtype isType supertype with ⟨isBelow, answer, isBelow_iff⟩
  rcases exists_possibleTypes isType with ⟨objects, known⟩
  rcases exists_possibleTypes isAbove with ⟨objectsAbove, knownAbove⟩
  have included (below : isBelow = true) (object : Name) (mem : object ∈ objects) :
      object ∈ objectsAbove := by
    rw [← isPossible_iff knownAbove]
    exact lawful.isPossible_of_reached (isBelow_iff.mp below) ((isPossible_iff known).mpr mem)
  have overlapEq := typesOverlap_eq known knownAbove
  refine ⟨isBelow, objects, objectsAbove, _, answer, known, knownAbove, overlapEq,
    (typesOverlap_comm knownAbove known).trans overlapEq, included, ?_, ?_⟩
  · intro ofKind
    have isObject : type.kind = .object := by simpa [Schema.kind, isType, Except.map] using ofKind
    constructor
    · intro below
      apply included below
      rw [← isPossible_iff known, isPossible_of_object isType isObject, (mem_types_of_get isType).2]
      exact beq_self_eq_true subtype
    · intro mem
      rw [isBelow_iff]
      rcases lawful.eq_or_stepsUp_of_isPossible isType isObject
        ((isPossible_iff knownAbove).mpr mem) with rfl | step
      · exact .refl
      · exact .single step
  · intro below isInhabited
    rcases List.exists_mem_of_ne_nil objects isInhabited with ⟨object, mem⟩
    exact List.any_eq_true.mpr ⟨object, included below object mem, by simpa using mem⟩

end IsLawful

/-- Pets are named, and things are rocks and cats. -/
def pets : Schema where
  types := [
    ⟨"Named", [], .interface [] []⟩,
    ⟨"Pet", [], .interface ["Named"] []⟩,
    ⟨"Dog", [], .object ["Pet", "Named"] []⟩,
    ⟨"Cat", [], .object ["Pet", "Named"] []⟩,
    ⟨"Rock", [], .object [] []⟩,
    ⟨"Thing", [], .union ["Rock", "Cat"]⟩]
  directives := []
  query := none
  mutation := none
  subscription := none

/-- Pets have names and so the two types overlap. A cat can be a thing, as its union says, and a dog
cannot. -/
theorem isSubtype_agrees_possibleTypes_pets :
    pets.isSubtype "Named" "Pet" = .ok true ∧ pets.typesOverlap "Named" "Pet" = .ok true
    ∧ pets.isSubtype "Thing" "Cat" = .ok true ∧ pets.isSubtype "Thing" "Dog" = .ok false := by
  have lawful : pets.IsLawful := ⟨by decide, by decide⟩
  have ofPet : pets.isComposite "Pet" = .ok true := by decide +kernel
  have ofNamed : pets.isComposite "Named" = .ok true := by decide +kernel
  have ofCat : pets.isComposite "Cat" = .ok true := by decide +kernel
  have ofDog : pets.isComposite "Dog" = .ok true := by decide +kernel
  have ofThing : pets.isComposite "Thing" = .ok true := by decide +kernel
  have below : pets.isSubtype "Named" "Pet" = .ok true := by decide +kernel
  have petObjects : pets.possibleTypes "Pet" = .ok ["Dog", "Cat"] := by decide +kernel
  have things : pets.possibleTypes "Thing" = .ok ["Rock", "Cat"] := by decide +kernel
  refine ⟨below, ?_, ?_, ?_⟩
  · rcases lawful.isSubtype_agrees_possibleTypes ofPet ofNamed with
      ⟨_, _, _, overlap, answer, known, -, -, overlapEq, -, -, overlaps⟩
    rcases Except.ok.inj (answer.symm.trans below) with rfl
    rcases Except.ok.inj (known.symm.trans petObjects) with rfl
    rw [overlapEq, overlaps rfl (by simp)]
  · rcases lawful.isSubtype_agrees_possibleTypes ofCat ofThing with
      ⟨_, _, _, _, answer, -, known, -, -, -, ofObject, -⟩
    rcases Except.ok.inj (known.symm.trans things) with rfl
    rw [answer, (ofObject (by decide +kernel)).mpr (by simp)]
  · rcases lawful.isSubtype_agrees_possibleTypes ofDog ofThing with
      ⟨isBelow, _, _, _, answer, -, known, -, -, -, ofObject, -⟩
    rcases Except.ok.inj (known.symm.trans things) with rfl
    have notBelow : isBelow = false := by
      simpa using ofObject (by decide +kernel)
    rw [answer, notBelow]

end ResponseShape.Schema
