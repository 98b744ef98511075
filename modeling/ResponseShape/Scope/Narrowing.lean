import ResponseShape.Inclusion.InclusionResult

/-!
# Narrowings

What an inline fragment or a spread asks of the scope around it: a type condition, inclusion
conditions, a defer boundary, or several of these at once.
-/

namespace ResponseShape

/-- An incremental delivery boundary, as `@defer` sets it. -/
structure Defer where
  label : String
  /-- The variable of the `if` argument, absent if the fragment is always deferred. -/
  variableName : Option Name
deriving DecidableEq, Hashable, Inhabited

/-- A defer boundary as written. -/
def Defer.render (defer : Defer) : String :=
  let ifArgument :=
    match defer.variableName with
    | some variableName => ", if: $" ++ variableName
    | none => ""
  "@defer(label: \"" ++ defer.label ++ "\"" ++ ifArgument ++ ")"

/-- The conditions that one fragment adds to a scope. -/
structure Narrowing where
  typeCondition : Option Name
  conditions : Option ConditionGroup
  defer : Option Defer
deriving DecidableEq, Inhabited

namespace Narrowing

instance : BEq Narrowing :=
  ⟨fun left right => left.typeCondition == right.typeCondition
    && left.conditions == right.conditions && left.defer == right.defer⟩

instance : Hashable Narrowing :=
  ⟨fun narrowing => mixHash (hash narrowing.typeCondition)
    (mixHash (hash narrowing.conditions) (hash narrowing.defer))⟩

/-- A type condition alone. -/
def onType (type : Name) : Narrowing := ⟨some type, none, none⟩

/-- Inclusion conditions alone. -/
def onConditions (group : ConditionGroup) : Narrowing := ⟨none, some group, none⟩

/-- Whether nothing is asked. -/
def isEmpty (narrowing : Narrowing) : Bool :=
  narrowing.typeCondition.isNone && narrowing.conditions.isNone && narrowing.defer.isNone

/-- Whether the narrowing sets a defer boundary. -/
def isDeferred (narrowing : Narrowing) : Bool := narrowing.defer.isSome

/-- Whether a type condition on the given type is all that is asked. -/
def isOnlyOn (narrowing : Narrowing) (type : Name) : Bool :=
  narrowing.conditions.isNone && narrowing.defer.isNone && narrowing.typeCondition == some type

/-- The parts of a narrowing, separated by spaces. -/
def render (narrowing : Narrowing) : String :=
  " ".intercalate ([
    narrowing.typeCondition.map ("on " ++ ·),
    narrowing.conditions.map fun group => "@if(" ++ group.render ++ ")",
    narrowing.defer.map (·.render)].filterMap id)

/-- The defer boundary that directives set. The first `@defer` counts; one that is switched off by a
literal sets none. -/
def deferOfDirectives (directives : List Directive) :
    Except BuildError (Option Defer) := do
  match directives.find? (·.name == "defer") with
  | none => return none
  | some directive =>
      let label ←
        match directive.argument? "label" with
        | some (.string label) => pure label
        | some other => throw (.invalidDeferArgument "label" other.render)
        | none => throw .missingDeferLabel
      match directive.argument? "if" with
      | none | some (.boolean true) => return some ⟨label, none⟩
      | some (.boolean false) => return none
      | some (.var variableName) => return some ⟨label, some variableName⟩
      | some other => throw (.invalidDeferArgument "if" other.render)

/-- The narrowing of an inline fragment or a spread, absent if its directives skip it statically. -/
def ofDirectives (typeCondition : Option Name) (directives : List Directive) :
    Except BuildError (Option Narrowing) := do
  match ← InclusionResult.ofDirectives directives with
  | .boolean false => return none
  | included => return some ⟨typeCondition, included.group?, ← deferOfDirectives directives⟩

end Narrowing

end ResponseShape
