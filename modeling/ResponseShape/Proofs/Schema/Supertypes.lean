import ResponseShape.Proofs.Schema.PossibleObjects

/-!
# Supertypes are closed

The supertypes of a type are what steps up lead to from it, so supertypes of supertypes are
supertypes (`Schema.supertypes_subset`). Listing them fails only over a name that is not defined, so
it succeeds exactly if all that steps up lead to is defined (`Schema.hasDefinedSupertypes_iff`).
This holds of every schema, also of one whose interfaces declare one another.

`Schema.supertypes_reachabilityClosure` says the same of what a schema declares: `IsDirectlyBelow`
reads the interfaces of a type and the members of a union, and knows of no walk.
-/

namespace ResponseShape.Schema

variable {schema : Schema} {name supertype : Name} {type : TypeDefinition}
  {supertypes : List Name}

theorem supertypes_subset {others : List Name} (known : schema.supertypes name = .ok supertypes)
    (mem : supertype ∈ supertypes) (otherKnown : schema.supertypes supertype = .ok others) :
    ∀ other ∈ others, other ∈ supertypes := by
  intro other isOther
  rw [mem_supertypes_iff known] at mem ⊢
  exact mem.trans ((mem_supertypes_iff otherKnown).mp isOther)

section Definedness

/-- Whether a type is defined, and all that steps up lead to from it. -/
def HasDefinedSupertypes (schema : Schema) (name : Name) : Prop :=
  ∀ supertype, Relation.ReflTransGen schema.StepsUp name supertype →
    ∃ type, schema.get supertype = .ok type

/-- The supertypes of a type can be listed exactly if all of them are defined. -/
theorem hasDefinedSupertypes_iff :
    schema.HasDefinedSupertypes name ↔ ∃ supertypes, schema.supertypes name = .ok supertypes := by
  constructor
  · intro defined
    cases known : schema.supertypes name with
    | ok supertypes => exact ⟨supertypes, rfl⟩
    | error error =>
        rcases exists_undefined_of_supertypes known with ⟨missing, reached, failed⟩
        rcases defined missing reached with ⟨type, isType⟩
        rw [isType] at failed
        cases failed
  · rintro ⟨supertypes, known⟩ supertype reached
    exact (explores_of_supertypes known).defined _ ((mem_supertypes_iff known).mpr reached)

theorem exists_supertypes_of_mem (known : schema.supertypes name = .ok supertypes)
    (mem : supertype ∈ supertypes) : ∃ others, schema.supertypes supertype = .ok others := by
  rw [← hasDefinedSupertypes_iff]
  intro other reached
  exact hasDefinedSupertypes_iff.mpr ⟨supertypes, known⟩ other
    (((mem_supertypes_iff known).mp mem).trans reached)

end Definedness

section Declared

/-- Whether a type is declared to be right below another: it is an object or interface type and
declares the other as an interface, or an object type and the other is a union that lists it. -/
inductive IsDirectlyBelow (schema : Schema) (name : Name) : Name → Prop where
  | implements {type : TypeDefinition} {interface : Name} (isType : schema.type? name = some type)
      (canImplement : type.kind = .object ∨ type.kind = .interface)
      (declared : interface ∈ type.interfaces) : IsDirectlyBelow schema name interface
  | isMember {type union : TypeDefinition} (isType : schema.type? name = some type)
      (isObject : type.kind = .object) (unionMem : union ∈ schema.types)
      (isUnion : union.kind = .union) (listed : name ∈ union.members) :
      IsDirectlyBelow schema name union.name

theorem kind_eq_of_members (mem : name ∈ type.members) : type.kind = .union := by
  rcases type with ⟨_, _, body⟩
  cases body <;> simp_all [TypeDefinition.members, TypeBody.members, TypeDefinition.kind,
    TypeBody.kind]

/-- One step up leads from a type to those that it is declared to be right below. -/
theorem stepsUp_eq (schema : Schema) : schema.StepsUp = schema.IsDirectlyBelow := by
  funext name above
  apply propext
  constructor
  · rintro ⟨type, isType, step⟩
    have ofName := get_eq_ok_iff.mp isType
    unfold directSupertypes at step
    split at step
    next isObject =>
      rcases List.mem_append.mp step with declared | listed
      · exact .implements ofName (.inl isObject) declared
      · simp only [unionsWith, List.mem_map, List.mem_filter, List.contains_eq_mem,
          decide_eq_true_eq, (mem_types_of_get isType).2] at listed
        rcases listed with ⟨union, ⟨unionMem, isMember⟩, rfl⟩
        exact .isMember ofName isObject unionMem (kind_eq_of_members isMember) isMember
    next => exact .implements ofName (kind_eq_of_interfaces step) step
  · rintro (⟨isType, -, declared⟩ | ⟨isType, isObject, unionMem, -, listed⟩)
    · refine ⟨_, get_eq_ok_iff.mpr isType, ?_⟩
      unfold directSupertypes
      split
      next => exact List.mem_append_left _ declared
      next => exact declared
    · have ofName := get_eq_ok_iff.mpr isType
      refine ⟨_, ofName, ?_⟩
      simp only [directSupertypes, isObject, (mem_types_of_get ofName).2]
      refine List.mem_append_right _ (List.mem_map_of_mem (List.mem_filter.mpr ⟨unionMem, ?_⟩))
      simpa using listed

/-- The supertypes of a type are the reachability closure of what the schema declares, whether or
not the schema is valid. The walk comes to an end from wherever it stands, and what it ends with are
the supertypes. They can be listed exactly if every name reached is defined, and a name that is not
is to blame otherwise. Listed, they start with the type itself, and each name reached occurs
once. -/
theorem supertypes_reachabilityClosure (schema : Schema) (name : Name) :
    WellFounded (fun later earlier => Ascent.Turn schema earlier later)
    ∧ (∀ outcome, schema.supertypes name = outcome
      ↔ ∃ last, Relation.ReflTransGen (Ascent.Turn schema) (ascentFrom name) last
        ∧ last.Ends schema outcome)
    ∧ ((∃ supertypes, schema.supertypes name = .ok supertypes)
      ↔ ∀ above, Relation.ReflTransGen schema.IsDirectlyBelow name above →
        ∃ type, schema.type? above = some type)
    ∧ (∀ error, schema.supertypes name = .error error → ∃ missing,
      error = .unknownType missing ∧ schema.type? missing = none
        ∧ Relation.ReflTransGen schema.IsDirectlyBelow name missing)
    ∧ ∀ supertypes, schema.supertypes name = .ok supertypes →
      supertypes.head? = some name ∧ supertypes.Nodup
        ∧ ∀ above, above ∈ supertypes
          ↔ Relation.ReflTransGen schema.IsDirectlyBelow name above := by
  rw [← stepsUp_eq]
  refine ⟨Ascent.wellFounded_turn schema, fun outcome => supertypes_eq_iff, ?_, ?_, ?_⟩
  · simp only [← hasDefinedSupertypes_iff, HasDefinedSupertypes, get_eq_ok_iff]
  · intro error failed
    rcases exists_undefined_of_supertypes failed with ⟨missing, reached, failure⟩
    rcases get_eq_error_iff.mp failure with ⟨isMissing, rfl⟩
    exact ⟨missing, rfl, isMissing, reached⟩
  · intro supertypes known
    have explores := explores_of_supertypes known
    exact ⟨by simpa using explores.starts, explores.nodup, fun above => mem_supertypes_iff known⟩

/-- Interfaces that declare each other, and a type that is nowhere defined. -/
def rings : Schema where
  types := [
    ⟨"Inner", [], .interface ["Outer"] []⟩,
    ⟨"Outer", [], .interface ["Inner"] []⟩,
    ⟨"Ring", [], .object ["Inner"] []⟩,
    ⟨"Shape", [], .union ["Ring", "Ghost"]⟩,
    ⟨"Blob", [], .object ["Outer", "Ghost"] []⟩]
  directives := []
  query := none
  mutation := none
  subscription := none

/-- A ring is of four types, though its interfaces lead in a circle. What a blob is cannot be
told. -/
theorem supertypes_reachabilityClosure_rings :
    rings.supertypes "Ring" = .ok ["Ring", "Shape", "Inner", "Outer"]
    ∧ (∀ above, above ∈ ["Ring", "Shape", "Inner", "Outer"]
      ↔ Relation.ReflTransGen rings.IsDirectlyBelow "Ring" above)
    ∧ rings.supertypes "Blob" = .error (.unknownType "Ghost")
    ∧ Relation.ReflTransGen rings.IsDirectlyBelow "Blob" "Ghost" := by
  have known : rings.supertypes "Ring" = .ok ["Ring", "Shape", "Inner", "Outer"] := by
    decide +kernel
  have failed : rings.supertypes "Blob" = .error (.unknownType "Ghost") := by
    decide +kernel
  rcases supertypes_reachabilityClosure rings "Ring" with ⟨-, -, -, -, listed⟩
  rcases supertypes_reachabilityClosure rings "Blob" with ⟨-, -, -, blames, -⟩
  rcases blames _ failed with ⟨missing, same, -, reached⟩
  rcases same
  exact ⟨known, (listed _ known).2.2, failed, reached⟩

end Declared

end ResponseShape.Schema
