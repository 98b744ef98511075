import ResponseShape.Document.Basic

/-!
# Equality of values and selections

Values and selections are compared part by part, in order. What compares as equal is the same, so
that selections read from different texts can be told to be one.
-/

namespace ResponseShape

mutual

/-- Values compare as equal exactly if they are the same. -/
theorem Value.beq_iff : ∀ {left right : Value}, left.beq right = true ↔ left = right
  | .null, right => by cases right <;> simp [Value.beq]
  | .boolean _, right => by cases right <;> simp [Value.beq]
  | .int _, right => by cases right <;> simp [Value.beq]
  | .float _, right => by cases right <;> simp [Value.beq]
  | .string _, right => by cases right <;> simp [Value.beq]
  | .enum _, right => by cases right <;> simp [Value.beq]
  | .var _, right => by cases right <;> simp [Value.beq]
  | .list _, right => by cases right <;> simp [Value.beq, Value.beqItems_iff]
  | .object _, right => by cases right <;> simp [Value.beq, Value.beqFields_iff]

theorem Value.beqItems_iff :
    ∀ {lefts rights : List Value}, Value.beqItems lefts rights = true ↔ lefts = rights
  | [], rights => by cases rights <;> simp [Value.beqItems]
  | _ :: _, rights => by
      cases rights <;> simp [Value.beqItems, Value.beq_iff, Value.beqItems_iff]

theorem Value.beqFields_iff :
    ∀ {lefts rights : List (Name × Value)}, Value.beqFields lefts rights = true ↔ lefts = rights
  | [], rights => by cases rights <;> simp [Value.beqFields]
  | (_, _) :: _, rights => by
      rcases rights with _ | ⟨⟨_, _⟩, _⟩ <;>
        simp [Value.beqFields, Value.beq_iff, Value.beqFields_iff]

end

instance : LawfulBEq Value where
  eq_of_beq same := Value.beq_iff.mp same
  rfl := Value.beq_iff.mpr rfl

theorem Argument.beq_iff {left right : Argument} : (left == right) = true ↔ left = right := by
  change (left.name == right.name && left.value == right.value) = true ↔ left = right
  rw [Bool.and_eq_true, beq_iff_eq, beq_iff_eq, Argument.mk.injEq]

instance : LawfulBEq Argument where
  eq_of_beq same := Argument.beq_iff.mp same
  rfl := Argument.beq_iff.mpr rfl

deriving instance ReflBEq, LawfulBEq for Directive
deriving instance ReflBEq, LawfulBEq for InputValue
deriving instance ReflBEq, LawfulBEq for FieldDefinition
deriving instance ReflBEq, LawfulBEq for FieldSelection

mutual

/-- Selections compare as equal exactly if they are the same. -/
theorem Selection.beq_iff : ∀ {left right : Selection}, left.beq right = true ↔ left = right
  | .field _ _, right => by cases right <;> simp [Selection.beq, Selection.beqAll_iff]
  | .inlineFragment _ _ _, right => by
      cases right <;> simp [Selection.beq, Selection.beqAll_iff, and_assoc]
  | .fragmentSpread _ _, right => by cases right <;> simp [Selection.beq]

theorem Selection.beqAll_iff :
    ∀ {lefts rights : List Selection}, Selection.beqAll lefts rights = true ↔ lefts = rights
  | [], rights => by cases rights <;> simp [Selection.beqAll]
  | _ :: _, rights => by
      cases rights <;> simp [Selection.beqAll, Selection.beq_iff, Selection.beqAll_iff]

end

instance : LawfulBEq Selection where
  eq_of_beq same := Selection.beq_iff.mp same
  rfl := Selection.beq_iff.mpr rfl

end ResponseShape
