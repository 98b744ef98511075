import ResponseShape.Written.StringLiteral

/-!
# Written values

The values that arguments take in a text. Numbers keep the digits they were written with, so `1.0`
and `1.00` differ, while a string is its text whichever way it was quoted.
-/

namespace ResponseShape

/-- A GraphQL name. -/
abbrev Name := String

/-- A value as written in a document or a schema. -/
inductive Value where
  | null
  | boolean (value : Bool)
  /-- An integer, by its digits. -/
  | int (digits : String)
  /-- A number with a fraction or an exponent, by its digits. -/
  | float (digits : String)
  | string (text : String)
  | enum (name : Name)
  /-- A variable, by its name. -/
  | var (name : Name)
  | list (items : List Value)
  | object (fields : List (Name × Value))
deriving Inhabited

namespace Value

mutual

/-- Structural equality: items and fields compare in order. -/
def beq : Value → Value → Bool
  | .null, .null => true
  | .boolean left, .boolean right => left == right
  | .int left, .int right => left == right
  | .float left, .float right => left == right
  | .string left, .string right => left == right
  | .enum left, .enum right => left == right
  | .var left, .var right => left == right
  | .list left, .list right => beqItems left right
  | .object left, .object right => beqFields left right
  | _, _ => false

/-- Equality of lists of values. -/
def beqItems : List Value → List Value → Bool
  | [], [] => true
  | left :: lefts, right :: rights => beq left right && beqItems lefts rights
  | _, _ => false

/-- Equality of lists of named values. -/
def beqFields : List (Name × Value) → List (Name × Value) → Bool
  | [], [] => true
  | (leftName, left) :: lefts, (rightName, right) :: rights =>
      leftName == rightName && beq left right && beqFields lefts rights
  | _, _ => false

end

instance : BEq Value := ⟨beq⟩

mutual

/-- The text of a value on a line at the given level of nesting. Lists and objects put each member
on a line of its own, one level deeper and followed by a comma. -/
def renderAt (level : Nat) : Value → String
  | .null => "null"
  | .boolean value => if value then "true" else "false"
  | .int digits => digits
  | .float digits => digits
  | .string text => StringLiteral.render level text
  | .enum name => name
  | .var name => "$" ++ name
  | .list [] => "[]"
  | .list items =>
      "[" ++ renderItems (level + 1) items ++ StringLiteral.newLine level ++ "]"
  | .object [] => "\x7b\x7d"
  | .object fields =>
      "\x7b" ++ renderFields (level + 1) fields ++ StringLiteral.newLine level ++ "\x7d"

/-- The lines of the items of a list. -/
def renderItems (level : Nat) : List Value → String
  | [] => ""
  | item :: rest =>
      StringLiteral.newLine level ++ renderAt level item ++ "," ++ renderItems level rest

/-- The lines of the fields of an object. -/
def renderFields (level : Nat) : List (Name × Value) → String
  | [] => ""
  | (name, value) :: rest =>
      StringLiteral.newLine level ++ name ++ ": " ++ renderAt level value ++ ","
        ++ renderFields level rest

end

/-- The text of a value. -/
def render (value : Value) : String := value.renderAt 0

end Value

/-- A named argument of a field or a directive. -/
structure Argument where
  name : Name
  value : Value
deriving Inhabited

instance : BEq Argument :=
  ⟨fun left right => left.name == right.name && left.value == right.value⟩

/-- The text of an argument. -/
def Argument.render (argument : Argument) : String :=
  argument.name ++ ": " ++ argument.value.render

/-- A directive applied to something written. -/
structure Directive where
  name : Name
  arguments : List Argument
deriving BEq, Inhabited

/-- The value of an argument; the first of several with the same name counts. -/
def Directive.argument? (directive : Directive) (name : Name) : Option Value :=
  (directive.arguments.find? (·.name == name)).map (·.value)

end ResponseShape
