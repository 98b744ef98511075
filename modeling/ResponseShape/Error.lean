import ResponseShape.Written.Value

/-!
# Build errors

Why a definition could not be built, or a selection set not be merged. Inputs are expected to be
valid, so each error is either a gap in that validation (`BuildError.isInputError`) or a broken
invariant of the shapes themselves.
-/

namespace ResponseShape

/-- Why building or merging failed. -/
inductive BuildError where
  /-- The schema does not define the type. -/
  | unknownType (name : Name)
  /-- No document defines the operation; the anonymous one has no name. -/
  | unknownOperation (name : Option Name)
  /-- No document defines the fragment. -/
  | unknownFragment (name : Name)
  /-- The fragment spreads itself, directly or through others. -/
  | cyclicFragment (name : Name)
  /-- The `if` argument of the directive is neither a Boolean literal nor a variable. -/
  | invalidConditionArgument (directive : Name) (value : String)
  | missingDeferLabel
  | invalidDeferArgument (argument : Name) (value : String)
  /-- Two selections with one response key do not select the same field. -/
  | fieldConflict (responseKey parentType : Name) (existing incoming : String)
  /-- Selection sets nest deeper than the limit. -/
  | recursionLimitExceeded (limit : Nat)
  /-- An invariant does not hold. -/
  | internal (details : String)
deriving DecidableEq, Inhabited

namespace BuildError

/-- How the name of an operation appears in a message. -/
def operationText : Option Name → String
  | some name => "\"" ++ name ++ "\""
  | none => "(anonymous)"

/-- The message of an error. -/
def message : BuildError → String
  | unknownType name => "Unknown type \"" ++ name ++ "\""
  | unknownOperation name => "Unknown operation " ++ operationText name
  | unknownFragment name => "Unknown fragment \"" ++ name ++ "\""
  | cyclicFragment name => "Fragment \"" ++ name ++ "\" spreads itself"
  | invalidConditionArgument directive value =>
      "Expected boolean or variable `if` argument on @" ++ directive ++ ", got " ++ value
  | missingDeferLabel => "Missing required `label` argument on @defer"
  | invalidDeferArgument argument value =>
      "Invalid @defer argument `" ++ argument ++ "`: " ++ value
  | fieldConflict responseKey parentType existing incoming =>
      "Cannot merge field \"" ++ responseKey ++ "\" on type \"" ++ parentType ++ "\": " ++ existing
        ++ " conflicts with " ++ incoming
  | recursionLimitExceeded limit =>
      "Selection processing recursion limit (" ++ toString limit ++ ") exceeded"
  | internal details =>
      "An internal error has occurred, please report this bug to Apollo.\n\nDetails: " ++ details

/-- Whether the input caused the error, rather than a broken invariant. -/
def isInputError : BuildError → Bool
  | fieldConflict .. | internal _ => false
  | _ => true

end BuildError

end ResponseShape
