import Mathlib.Algebra.Ring.Nat
import Mathlib.Logic.Relation
import ResponseShape.Proofs.Ordered
import ResponseShape.Schema.Subtyping

/-!
# The walk upwards

`Schema.climb` takes at most a given number of names off its stack. `Schema.Ascent` is the same walk
without a bound, as the turns between what it has in hand: a turn drops a name that has been found,
or finds a new one and puts the types one step up on the stack. Interfaces may declare one another,
so names come up again and again. Still each turn comes closer to an end
(`Ascent.Turn.turnsLeft_lt`), in every schema: a type is found once, and only then are the steps up
from it taken. The bound that `Schema.supertypes` climbs with is enough for the walk to end
(`supertypes_eq_iff`).

What a walk has found and what it has pending are one invariant, `Ascent.Explores`. Each turn keeps
it, so what is found in the end is all that steps up lead to (`explores_of_supertypes`).
-/

namespace ResponseShape.Schema

variable {schema : Schema} {name above : Name} {type : TypeDefinition} {error : BuildError}
  {found pending supertypes : List Name}

theorem get_eq_ok_iff : schema.get name = .ok type ↔ schema.type? name = some type := by
  unfold get
  cases schema.type? name <;> simp

theorem get_eq_error_iff :
    schema.get name = .error error ↔ schema.type? name = none ∧ error = .unknownType name := by
  unfold get
  cases schema.type? name <;> simp [eq_comm]

theorem mem_types_of_get (found : schema.get name = .ok type) :
    type ∈ schema.types ∧ type.name = name := by
  have isType := get_eq_ok_iff.mp found
  exact ⟨List.mem_of_find?_eq_some isType, by simpa using List.find?_some isType⟩

/-- Whether one step up leads from a name to another. -/
def StepsUp (schema : Schema) (name above : Name) : Prop :=
  ∃ type, schema.get name = .ok type ∧ above ∈ schema.directSupertypes type

section Bound

/-- How many names a walk can still put on its stack once it has found some. -/
def stepsUpBeyond (schema : Schema) (found : List Name) : Nat :=
  ((schema.types.filter fun type => !found.contains type.name).map fun type =>
    (schema.directSupertypes type).length).sum

theorem climbBound_eq (schema : Schema) : schema.climbBound = 1 + schema.stepsUpBeyond [] := by
  have all (types : List TypeDefinition) (start : Nat) : types.foldl
      (fun bound type => bound + (schema.directSupertypes type).length) start
        = start + (types.map fun type => (schema.directSupertypes type).length).sum := by
    induction types generalizing start with
    | nil => simp
    | cons type rest ih =>
        rw [List.foldl_cons, ih, List.map_cons, List.sum_cons, Nat.add_assoc]
  simp [climbBound, stepsUpBeyond, all]

/-- Finding a type leaves the steps up from it to be taken once. -/
theorem stepsUpBeyond_append (isKnown : schema.get name = .ok type)
    (isNew : found.contains name = false) :
    schema.stepsUpBeyond (found ++ [name]) + (schema.directSupertypes type).length
      ≤ schema.stepsUpBeyond found := by
  rcases mem_types_of_get isKnown with ⟨typeMem, rfl⟩
  rcases List.append_of_mem typeMem with ⟨before, after, split⟩
  have fewer (types : List TypeDefinition) :
      ((types.filter fun other => !(found ++ [type.name]).contains other.name).map fun other =>
          (schema.directSupertypes other).length).sum
        ≤ ((types.filter fun other => !found.contains other.name).map fun other =>
          (schema.directSupertypes other).length).sum := by
    induction types with
    | nil => simp
    | cons other rest ih =>
        cases isFound : found.contains other.name with
        | true =>
            have stays : (found ++ [type.name]).contains other.name = true := by
              simp only [List.contains_eq_mem, decide_eq_true_eq, List.mem_append] at isFound ⊢
              exact Or.inl isFound
            simpa only [List.filter_cons, isFound, stays, Bool.not_true, Bool.false_eq_true,
              if_false] using ih
        | false =>
            simp only [List.filter_cons, isFound, Bool.not_false, if_true, List.map_cons,
              List.sum_cons]
            split
            next => simpa only [List.map_cons, List.sum_cons] using Nat.add_le_add_left ih _
            next => omega
  have ofBefore := fewer before
  have ofAfter := fewer after
  simp only [stepsUpBeyond, split, List.filter_append, List.filter_cons, isNew, Bool.not_false,
    if_true, List.map_append, List.map_cons, List.sum_append, List.sum_cons] at ofBefore ofAfter ⊢
  rw [if_neg (by simp)]
  omega

end Bound

/-- What a walk upwards has in hand: the names it is still to look at, the top of its stack first,
and the names it has found. -/
structure Ascent where
  pending : List Name
  found : List Name

namespace Ascent

/-- One turn of a walk: a name comes off the stack, and unless it has been found before, the types
one step up from its type come onto the stack. -/
inductive Turn (schema : Schema) : Ascent → Ascent → Prop where
  | skip {name : Name} {pending found : List Name} (isFound : name ∈ found) :
      Turn schema ⟨name :: pending, found⟩ ⟨pending, found⟩
  | visit {name : Name} {type : TypeDefinition} {pending found : List Name}
      (isNew : name ∉ found) (isType : schema.get name = .ok type) :
      Turn schema ⟨name :: pending, found⟩
        ⟨(schema.directSupertypes type).reverse ++ pending, found ++ [name]⟩

/-- How a walk ends: with nothing pending, or over a new name that is not defined. -/
inductive Ends (schema : Schema) : Ascent → Except BuildError (List Name) → Prop where
  | exhausted {found : List Name} : Ends schema ⟨[], found⟩ (.ok found)
  | failed {name : Name} {pending found : List Name} {error : BuildError}
      (isNew : name ∉ found) (failure : schema.get name = .error error) :
      Ends schema ⟨name :: pending, found⟩ (.error error)

variable {state other : Ascent} {outcome : Except BuildError (List Name)} {steps : Nat}

/-- The turns that a walk can still take, at the most. -/
def turnsLeft (schema : Schema) (state : Ascent) : Nat :=
  state.pending.length + schema.stepsUpBeyond state.found

theorem Turn.turnsLeft_lt (turn : Turn schema state other) :
    other.turnsLeft schema < state.turnsLeft schema := by
  unfold turnsLeft
  cases turn with
  | skip => simp
  | visit isNew isType =>
      have bound := stepsUpBeyond_append isType (by simpa using isNew)
      simp only [List.length_append, List.length_reverse, List.length_cons]
      omega

theorem wellFounded_turn (schema : Schema) :
    WellFounded fun later earlier => Turn schema earlier later :=
  Subrelation.wf Turn.turnsLeft_lt (InvImage.wf (turnsLeft schema) Nat.lt_wfRel.wf)

theorem Turn.climb_succ (turn : Turn schema state other) (steps : Nat) :
    schema.climb (steps + 1) state.pending state.found
      = schema.climb steps other.pending other.found := by
  cases turn with
  | skip isFound => rw [climb, if_pos (by simpa using isFound)]
  | visit isNew isType =>
      rw [climb, if_neg (by simpa using isNew)]
      simp only [isType]

theorem Ends.climb_eq (ends : Ends schema state outcome) (enough : state.turnsLeft schema ≤ steps) :
    schema.climb steps state.pending state.found = outcome := by
  cases ends with
  | exhausted => cases steps <;> rfl
  | failed isNew failure =>
      obtain ⟨rest, rfl⟩ : ∃ rest, steps = rest + 1 :=
        ⟨steps - 1, by simp only [turnsLeft, List.length_cons] at enough; omega⟩
      rw [climb, if_neg (by simpa using isNew)]
      simp only [failure]

theorem exists_turn_or_ends (schema : Schema) (state : Ascent) :
    (∃ other, Turn schema state other) ∨ ∃ outcome, Ends schema state outcome := by
  rcases state with ⟨_ | ⟨name, pending⟩, found⟩
  · exact Or.inr ⟨_, .exhausted⟩
  · by_cases isFound : name ∈ found
    · exact Or.inl ⟨_, .skip isFound⟩
    · cases isType : schema.get name with
      | ok type => exact Or.inl ⟨_, .visit isFound isType⟩
      | error error => exact Or.inr ⟨_, .failed isFound isType⟩

/-- A walk with steps enough for its turns climbs to its end. -/
theorem exists_ends_climb (enough : state.turnsLeft schema ≤ steps) :
    ∃ last, Relation.ReflTransGen (Turn schema) state last
      ∧ last.Ends schema (schema.climb steps state.pending state.found) := by
  induction steps generalizing state with
  | zero =>
      have isEmpty : state.pending = [] :=
        List.eq_nil_of_length_eq_zero (by simp only [turnsLeft] at enough; omega)
      rcases state with ⟨pending, found⟩
      rcases isEmpty with rfl
      exact ⟨_, .refl, .exhausted⟩
  | succ steps ih =>
      rcases exists_turn_or_ends schema state with ⟨other, turn⟩ | ⟨outcome, ends⟩
      · have closer := turn.turnsLeft_lt
        rcases @ih other (by omega) with ⟨last, turns, ends⟩
        rw [turn.climb_succ]
        exact ⟨last, .head turn turns, ends⟩
      · rw [ends.climb_eq enough]
        exact ⟨state, .refl, ends⟩

/-- However a walk ends, climbing with steps enough comes to the same. -/
theorem climb_eq_of_turns {last : Ascent} (turns : Relation.ReflTransGen (Turn schema) state last)
    (ends : last.Ends schema outcome) (enough : state.turnsLeft schema ≤ steps) :
    schema.climb steps state.pending state.found = outcome := by
  induction turns using Relation.ReflTransGen.head_induction_on generalizing steps with
  | refl => exact ends.climb_eq enough
  | head turn _ ih =>
      have closer := turn.turnsLeft_lt
      obtain ⟨rest, rfl⟩ : ∃ rest, steps = rest + 1 := ⟨steps - 1, by omega⟩
      rw [turn.climb_succ]
      exact ih (by omega)

end Ascent

/-- The walk from a name before its first turn. -/
def ascentFrom (name : Name) : Ascent := ⟨[name], []⟩

/-- The supertypes of a type are what the walk from it, however long, ends with. -/
theorem supertypes_eq_iff {outcome : Except BuildError (List Name)} :
    schema.supertypes name = outcome
      ↔ ∃ last, Relation.ReflTransGen (Ascent.Turn schema) (ascentFrom name) last
        ∧ last.Ends schema outcome := by
  have enough : (ascentFrom name).turnsLeft schema ≤ schema.climbBound := by
    simp [Ascent.turnsLeft, ascentFrom, climbBound_eq]
  constructor
  · rintro rfl
    exact Ascent.exists_ends_climb enough
  · rintro ⟨last, turns, ends⟩
    exact Ascent.climb_eq_of_turns turns ends enough

section Exploration

namespace Ascent

/-- What holds throughout the walk from a name: it comes first, names are found once, all of them
are defined and reached, and each step up from them leads to what is found or pending. -/
structure Explores (schema : Schema) (start : Name) (state : Ascent) : Prop where
  starts : (state.found ++ state.pending).head? = some start
  nodup : state.found.Nodup
  defined : ∀ name ∈ state.found, ∃ type, schema.get name = .ok type
  reached : ∀ name ∈ state.found ++ state.pending, Relation.ReflTransGen schema.StepsUp start name
  closed : ∀ name ∈ state.found, ∀ above, schema.StepsUp name above →
    above ∈ state.found ++ state.pending

variable {start : Name} {state other : Ascent}

theorem explores_ascentFrom (schema : Schema) (start : Name) :
    Explores schema start (ascentFrom start) where
  starts := rfl
  nodup := List.nodup_nil
  defined := by simp [ascentFrom]
  reached := by
    simp only [ascentFrom, List.nil_append, List.mem_singleton]
    rintro _ rfl
    exact .refl
  closed := by simp [ascentFrom]

/-- A turn keeps what is found and pending, but for a name that is found twice. -/
theorem Turn.mem_of_mem (turn : Turn schema state other)
    (mem : name ∈ state.found ++ state.pending) : name ∈ other.found ++ other.pending := by
  cases turn with
  | skip isFound =>
      simp only [List.mem_append, List.mem_cons] at mem ⊢
      rcases mem with old | rfl | later
      · exact Or.inl old
      · exact Or.inl isFound
      · exact Or.inr later
  | visit isNew isType =>
      simp only [List.mem_append, List.mem_cons, List.not_mem_nil, or_false] at mem ⊢
      rcases mem with old | rfl | later
      · exact Or.inl (Or.inl old)
      · exact Or.inl (Or.inr rfl)
      · exact Or.inr (Or.inr later)

theorem Explores.turn (explores : Explores schema start state) (turn : Turn schema state other) :
    Explores schema start other := by
  have closed := fun name mem above step => turn.mem_of_mem (explores.closed name mem above step)
  cases turn with
  | @skip name pending found isFound =>
      refine ⟨?_, explores.nodup, explores.defined, fun other mem => explores.reached other ?_,
        closed⟩
      · have starts := explores.starts
        cases found with
        | nil => cases isFound
        | cons first rest => simpa using starts
      · simp only [List.mem_append, List.mem_cons] at mem ⊢
        exact mem.imp_right Or.inr
  | @visit name type pending found isNew isType =>
      have ofName := explores.reached name (List.mem_append_right _ List.mem_cons_self)
      refine ⟨?_, ?_, ?_, ?_, ?_⟩
      · have starts := explores.starts
        cases found <;> simpa using starts
      · have grown := nodup_appendNew explores.nodup name
        rwa [appendNew, if_neg (by simpa using isNew)] at grown
      · rw [List.forall_mem_append, List.forall_mem_singleton]
        exact ⟨explores.defined, type, isType⟩
      · intro other mem
        simp only [List.mem_append, List.mem_reverse, List.mem_singleton] at mem
        rcases mem with (old | rfl) | step | later
        · exact explores.reached other (List.mem_append_left _ old)
        · exact ofName
        · exact ofName.tail ⟨type, isType, step⟩
        · exact explores.reached other (List.mem_append_right _ (List.mem_cons_of_mem _ later))
      · rw [List.forall_mem_append, List.forall_mem_singleton]
        refine ⟨closed, ?_⟩
        rintro above ⟨same, sameType, step⟩
        rcases Except.ok.inj (isType.symm.trans sameType) with rfl
        exact List.mem_append_right _ (List.mem_append_left _ (List.mem_reverse.mpr step))

theorem Explores.turns (explores : Explores schema start state)
    (turns : Relation.ReflTransGen (Turn schema) state other) : Explores schema start other := by
  induction turns with
  | refl => exact explores
  | tail _ turn ih => exact ih.turn turn

end Ascent

/-- The supertypes of a type are what the walk from it has explored, with nothing pending. -/
theorem explores_of_supertypes (known : schema.supertypes name = .ok supertypes) :
    Ascent.Explores schema name ⟨[], supertypes⟩ := by
  rcases supertypes_eq_iff.mp known with ⟨last, turns, ends⟩
  cases ends with
  | exhausted => exact (Ascent.explores_ascentFrom schema name).turns turns

/-- The supertypes of a type are what steps up lead to from it. -/
theorem mem_supertypes_iff (known : schema.supertypes name = .ok supertypes) :
    above ∈ supertypes ↔ Relation.ReflTransGen schema.StepsUp name above := by
  have explores := explores_of_supertypes known
  constructor
  · exact fun mem => explores.reached above (by simpa using mem)
  · intro reached
    induction reached with
    | refl => exact List.mem_of_mem_head? (by simpa using explores.starts)
    | tail _ step ih => simpa using explores.closed _ ih _ step

theorem mem_supertypes_self (known : schema.supertypes name = .ok supertypes) :
    name ∈ supertypes :=
  (mem_supertypes_iff known).mpr .refl

/-- Listing the supertypes of a type fails over a name that steps up lead to and that is not
defined. -/
theorem exists_undefined_of_supertypes (failed : schema.supertypes name = .error error) :
    ∃ missing, Relation.ReflTransGen schema.StepsUp name missing
      ∧ schema.get missing = .error error := by
  rcases supertypes_eq_iff.mp failed with ⟨last, turns, ends⟩
  have explores := (Ascent.explores_ascentFrom schema name).turns turns
  cases ends with
  | @failed missing _ _ _ _ failure =>
      refine ⟨missing, explores.reached missing ?_, failure⟩
      exact List.mem_append_right _ List.mem_cons_self

end Exploration

end ResponseShape.Schema
