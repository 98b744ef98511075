import Mathlib.Data.List.Nodup
import ResponseShape.Proofs.Schema.Ascent
import ResponseShape.Schema.Validity

/-!
# Possible objects

Which object types a value of a type can have, as execution asks it. In a lawful schema, and each
valid one is lawful, an object of a type is an object of every supertype as well
(`Schema.IsLawful.isPossible_of_mem_supertypes`).
-/

namespace ResponseShape

namespace Schema

/-- Whether a value of the type can be an object of the given object type. -/
def isPossible (schema : Schema) (type object : Name) : Bool :=
  match schema.possibleTypes type with
  | .ok types => types.contains object
  | .error _ => false

/-- What subtyping relies on: names are unique, and whatever declares an interface declares those
that the interface declares. -/
structure IsLawful (schema : Schema) : Prop where
  distinct : (schema.types.map (·.name)).Nodup
  interfaces : ∀ type ∈ schema.types, ∀ name ∈ type.interfaces,
    ∃ interface ∈ schema.types, interface.name = name ∧ interface.kind = .interface
      ∧ ∀ inherited ∈ interface.interfaces, inherited ∈ type.interfaces

variable {schema : Schema} {name object supertype : Name} {type other : TypeDefinition}

theorem IsLawful.eq_of_name (lawful : schema.IsLawful) (typeMem : type ∈ schema.types)
    (otherMem : other ∈ schema.types) (sameName : type.name = other.name) : type = other :=
  List.inj_on_of_nodup_map lawful.distinct typeMem otherMem sameName

theorem IsLawful.get_name (lawful : schema.IsLawful) (mem : type ∈ schema.types) :
    schema.get type.name = .ok type := by
  have isSome : (schema.type? type.name).isSome = true := by
    rw [type?, List.find?_isSome]
    exact ⟨type, mem, by simp⟩
  rcases Option.isSome_iff_exists.mp isSome with ⟨found, foundEq⟩
  have sameType : found = type :=
    lawful.eq_of_name (List.mem_of_find?_eq_some foundEq) mem (by
      simpa using List.find?_some foundEq)
  simp [get, foundEq, sameType]

theorem kind_eq_of_interfaces (mem : name ∈ type.interfaces) :
    type.kind = .object ∨ type.kind = .interface := by
  rcases type with ⟨_, _, body⟩
  cases body <;> simp_all [TypeDefinition.interfaces, TypeBody.interfaces, TypeDefinition.kind,
    TypeBody.kind]

theorem isPossible_of_object (found : schema.get name = .ok type) (isObject : type.kind = .object) :
    schema.isPossible name object = (object == type.name) := by
  rcases type with ⟨typeName, _, body⟩
  cases body with
  | object _ _ =>
      rw [Bool.eq_iff_iff]
      simp [isPossible, possibleTypes, Except.map, found]
  | _ => simp [TypeDefinition.kind, TypeBody.kind] at isObject

theorem isPossible_of_interface (found : schema.get name = .ok type)
    (isInterface : type.kind = .interface) :
    schema.isPossible name object = true ↔ ∃ candidate ∈ schema.types,
      candidate.kind = .object ∧ name ∈ candidate.interfaces ∧ candidate.name = object := by
  rcases type with ⟨typeName, _, body⟩
  cases body with
  | interface _ _ =>
      simp [isPossible, possibleTypes, Except.map, found, and_assoc]
  | _ => simp [TypeDefinition.kind, TypeBody.kind] at isInterface

theorem isPossible_of_member (found : schema.get name = .ok type)
    (mem : object ∈ type.members) : schema.isPossible name object = true := by
  rcases type with ⟨typeName, _, body⟩
  cases body <;> simp_all [isPossible, possibleTypes, Except.map, TypeDefinition.members,
    TypeBody.members]

theorem IsLawful.isPossible_of_directSupertype (lawful : schema.IsLawful)
    (found : schema.get name = .ok type) (step : supertype ∈ schema.directSupertypes type)
    (possible : schema.isPossible name object = true) :
    schema.isPossible supertype object = true := by
  rcases mem_types_of_get found with ⟨typeMem, typeName⟩
  have ofInterface (declared : supertype ∈ type.interfaces) :
      schema.isPossible supertype object = true := by
    rcases lawful.interfaces type typeMem supertype declared with
      ⟨interface, interfaceMem, rfl, isInterface, -⟩
    rw [isPossible_of_interface (lawful.get_name interfaceMem) isInterface]
    rcases kind_eq_of_interfaces declared with isObject | typeIsInterface
    · rw [isPossible_of_object found isObject, beq_iff_eq] at possible
      exact ⟨type, typeMem, isObject, declared, possible.symm⟩
    · rcases (isPossible_of_interface found typeIsInterface).mp possible with
        ⟨candidate, candidateMem, isObject, declares, candidateName⟩
      rcases lawful.interfaces candidate candidateMem name declares with
        ⟨same, sameMem, sameName, -, inherits⟩
      rcases lawful.eq_of_name sameMem typeMem (sameName.trans typeName.symm) with rfl
      exact ⟨candidate, candidateMem, isObject, inherits _ declared, candidateName⟩
  unfold directSupertypes at step
  split at step
  next isObject =>
    rcases List.mem_append.mp step with declared | listed
    · exact ofInterface declared
    · simp only [unionsWith, List.mem_map, List.mem_filter] at listed
      rcases listed with ⟨union, ⟨unionMem, isMember⟩, rfl⟩
      rw [isPossible_of_object found isObject, beq_iff_eq] at possible
      exact isPossible_of_member (lawful.get_name unionMem) (by simpa [possible] using isMember)
  next => exact ofInterface step

theorem IsLawful.isPossible_of_reached (lawful : schema.IsLawful)
    (reached : Relation.ReflTransGen schema.StepsUp name supertype)
    (possible : schema.isPossible name object = true) :
    schema.isPossible supertype object = true := by
  induction reached with
  | refl => exact possible
  | tail _ step ih =>
      rcases step with ⟨type, isType, direct⟩
      exact lawful.isPossible_of_directSupertype isType direct ih

/-- An object of a type is an object of every supertype. -/
theorem IsLawful.isPossible_of_mem_supertypes (lawful : schema.IsLawful) {supertypes : List Name}
    (known : schema.supertypes name = .ok supertypes) (mem : supertype ∈ supertypes)
    (possible : schema.isPossible name object = true) :
    schema.isPossible supertype object = true :=
  lawful.isPossible_of_reached ((mem_supertypes_iff known).mp mem) possible

/-- Extensions leave the name and the kind of a type as they are. -/
theorem extendType_name_kind (extensions : List TypeDefinition) (type : TypeDefinition) :
    (extendType extensions type).name = type.name
      ∧ (extendType extensions type).kind = type.kind := by
  induction extensions generalizing type with
  | nil => exact ⟨rfl, rfl⟩
  | cons extension rest ih =>
      have once : (extendOnce type extension).name = type.name
          ∧ (extendOnce type extension).kind = type.kind := by
        unfold extendOnce
        split
        next =>
          rcases type with ⟨_, _, body⟩
          rcases extension with ⟨_, _, added⟩
          cases body <;> cases added <;> exact ⟨rfl, rfl⟩
        next => exact ⟨rfl, rfl⟩
      rcases ih (extendOnce type extension) with ⟨nameEq, kindEq⟩
      exact ⟨nameEq.trans once.1, kindEq.trans once.2⟩

/-- The built-in scalars are types of every schema that a text defines. -/
theorem exists_builtIn_scalar (definitions : List Written.Definition)
    (isScalar : BuiltIn.isScalarName name = true) :
    ∃ scalar ∈ (ofDefinitions definitions).types, scalar.name = name ∧ scalar.kind = .scalar := by
  have mem : (⟨name, [], .scalar⟩ : TypeDefinition) ∈ BuiltIn.types := by
    simp only [BuiltIn.types, List.mem_append, List.mem_map]
    exact Or.inr ⟨name, by simpa [BuiltIn.isScalarName] using isScalar, rfl⟩
  refine ⟨_, List.mem_map_of_mem (List.mem_append_left _ mem), ?_⟩
  exact extendType_name_kind _ _

/-- What validity asks of the interfaces of a type. -/
theorem interfaces_of_typeIsValid (valid : schema.typeIsValid type = true)
    (declared : name ∈ type.interfaces) : ∃ interface, schema.type? name = some interface
      ∧ interface.kind = .interface
      ∧ ∀ inherited ∈ interface.interfaces, inherited ∈ type.interfaces := by
  unfold typeIsValid at valid
  simp only [Bool.and_eq_true, List.all_eq_true] at valid
  have implemented := valid.1.2 name declared
  unfold implements at implemented
  split at implemented
  next interface found =>
    simp only [Bool.and_eq_true, beq_iff_eq, List.all_eq_true, List.contains_eq_mem,
      decide_eq_true_eq] at implemented
    exact ⟨interface, found, implemented.1.1.1, implemented.1.2⟩
  next => cases implemented

/-- A valid schema is lawful. What it drops are built-in scalars, which nothing declares. -/
theorem isLawful_of_validated? {text : String} (valid : validated? text = some schema) :
    schema.IsLawful := by
  unfold validated? at valid
  cases parsed : Written.definitions? text with
  | none => simp [parsed] at valid
  | some definitions =>
      simp only [parsed, Option.bind_eq_bind, Option.bind_some] at valid
      split at valid
      next checks =>
        simp only [Bool.and_eq_true, isValid, List.all_eq_true] at checks
        rcases checks with ⟨⟨-, ⟨⟨⟨names, types⟩, -⟩, -⟩⟩, -⟩
        rcases Option.some.inj valid with rfl
        have distinct := nodup_of_areDistinct names
        constructor
        · exact distinct.sublist (List.filter_sublist.map _)
        · intro type mem name declared
          have typeMem := (List.mem_filter.mp mem).1
          rcases interfaces_of_typeIsValid (types type typeMem) declared with
            ⟨interface, found, isInterface, inherits⟩
          have interfaceMem := List.mem_of_find?_eq_some found
          have interfaceName : interface.name = name := by simpa using List.find?_some found
          refine ⟨interface, ?_, interfaceName, isInterface, inherits⟩
          refine List.mem_filter.mpr ⟨interfaceMem, ?_⟩
          cases isScalar : BuiltIn.isScalarName interface.name with
          | false => simp
          | true =>
              rcases exists_builtIn_scalar definitions isScalar with
                ⟨scalar, scalarMem, sameName, scalarKind⟩
              have same : scalar = interface :=
                List.inj_on_of_nodup_map distinct scalarMem interfaceMem sameName
              rw [same, isInterface] at scalarKind
              cases scalarKind
      next => cases valid

theorem not_isPossible_of_leaf (isLeaf : schema.isComposite name = .ok false) :
    schema.isPossible name object = false := by
  unfold isComposite kind at isLeaf
  unfold isPossible possibleTypes
  cases found : schema.get name with
  | error error => rfl
  | ok type =>
      rcases type with ⟨_, _, body⟩
      cases body <;> simp_all [Except.map, TypeDefinition.kind, TypeBody.kind, TypeKind.isComposite]

theorem typesOverlap_of_isPossible {left right : Name}
    (ofLeft : schema.isPossible left object = true)
    (ofRight : schema.isPossible right object = true) :
    schema.typesOverlap left right = .ok true := by
  unfold isPossible at ofLeft ofRight
  unfold typesOverlap
  cases possibleLeft : schema.possibleTypes left with
  | error error => simp [possibleLeft] at ofLeft
  | ok lefts =>
      cases possibleRight : schema.possibleTypes right with
      | error error => simp [possibleRight] at ofRight
      | ok rights =>
          simp only [possibleLeft, possibleRight] at ofLeft ofRight
          have shared : rights.any lefts.contains = true :=
            List.any_eq_true.mpr ⟨object, by simpa using ofRight, ofLeft⟩
          simp [bind, Except.bind, pure, Except.pure, shared]

end Schema

end ResponseShape
