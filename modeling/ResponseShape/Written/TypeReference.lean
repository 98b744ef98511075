import ResponseShape.Written.Value

/-!
# Type references

The type of a field or a variable: a named type inside any number of lists, each level optionally
non-null.
-/

namespace ResponseShape

/-- A type as written for a field, an argument or a variable. -/
inductive TypeReference where
  | named (name : Name) (nonNull : Bool)
  | list (item : TypeReference) (nonNull : Bool)
deriving DecidableEq, Inhabited

namespace TypeReference

/-- The named type at the innermost level. -/
def innerName : TypeReference → Name
  | .named name _ => name
  | .list item _ => item.innerName

/-- The mark of a non-null type. -/
def nonNullMark (nonNull : Bool) : String := if nonNull then "!" else ""

/-- The text of a type reference. -/
def render : TypeReference → String
  | .named name nonNull => name ++ nonNullMark nonNull
  | .list item nonNull => "[" ++ item.render ++ "]" ++ nonNullMark nonNull

/-- Whether `null` is not a value of the type. -/
def isNonNull : TypeReference → Bool
  | .named _ nonNull => nonNull
  | .list _ nonNull => nonNull

/-- The same type with `null` among its values. -/
def nullable : TypeReference → TypeReference
  | .named name _ => .named name false
  | .list item _ => .list item false

/-- Whether the values are lists. -/
def isList : TypeReference → Bool
  | .named .. => false
  | .list .. => true

/-- The type of the items of lists. A named type, which a single item of it can stand for, is its
own item type. -/
def itemType : TypeReference → TypeReference
  | .named name nonNull => .named name nonNull
  | .list item _ => item

/-- Whether the values of the first type are values of the second: the lists and the named type are
the same, and what is nullable in the first is nullable in the second. -/
def isAssignableTo : TypeReference → TypeReference → Bool
  | .named source sourceNonNull, .named target targetNonNull =>
      source == target && (sourceNonNull || !targetNonNull)
  | .list source sourceNonNull, .list target targetNonNull =>
      isAssignableTo source target && (sourceNonNull || !targetNonNull)
  | _, _ => false

end TypeReference

end ResponseShape
