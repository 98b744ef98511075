import ResponseShape.Compilation
import ResponseShape.Selection.FieldSummary
import ResponseShape.Scope.Scope

/-!
# Gathering selections

The selections made at one place, gathered by what they select. Fields with one response key
become one field under the disjunction of their conditions; inline fragments that narrow the scope
in the same way become one branch; those that do not narrow it at all dissolve into the place. A
spread under conditions, or behind a defer boundary, becomes a branch with the spread inside, so
that fragments spread directly are known by their names alone.
-/

namespace ResponseShape

/-- A field gathered from everywhere it is selected at one place. -/
structure GatheredField where
  /-- The first selection of the field. -/
  field : FieldSelection
  conditions : Option Alternatives
  /-- The selections made on the field, in order. -/
  selections : List Selection
deriving Inhabited

/-- The key under which responses hold the field. -/
def GatheredField.responseKey (gathered : GatheredField) : Name := gathered.field.responseKey

/-- The selections at one place by what they select. -/
structure Gathered where
  fields : List GatheredField
  branches : List (Narrowing × List Selection)
  spreads : List Name
deriving Inhabited

namespace Gathered

/-- Nothing gathered. -/
def empty : Gathered := ⟨[], [], []⟩

/-- Adds selections under a branch. -/
def addBranch (gathered : Gathered) (key : Narrowing) (selections : List Selection) : Gathered :=
  { gathered with
    branches := updateOrAppend (·.1 == key)
      (fun (known, earlier) => (known, earlier ++ selections)) (key, selections)
      gathered.branches }

/-- Adds a spread. -/
def addSpread (gathered : Gathered) (name : Name) : Gathered :=
  { gathered with spreads := appendNew gathered.spreads name }

/-- Adds a field selected on the given type. It has to select the same data as a field already
gathered under its key. -/
def addField (gathered : Gathered) (type : Name) (fresh : GatheredField) :
    Except BuildError Gathered :=
  let isSame (known : GatheredField) : Bool := known.responseKey == fresh.responseKey
  let united (known : GatheredField) : GatheredField :=
    { known with
      conditions := Alternatives.union known.conditions fresh.conditions
      selections := known.selections ++ fresh.selections }
  let added := { gathered with fields := updateOrAppend isSame united fresh gathered.fields }
  match gathered.fields.find? isSame with
  | none => .ok added
  | some known =>
      let existing := FieldSummary.ofSelection known.field none
      let incoming := FieldSummary.ofSelection fresh.field none
      if existing.selectsSame incoming then .ok added
      else .error (FieldSummary.conflict type existing incoming)

/-- Adds a selected field unless its conditions cannot hold in the scope. -/
def gatherField (scope : Scope) (field : FieldSelection) (selections : List Selection)
    (gathered : Gathered) : Except BuildError Gathered := do
  match ← InclusionResult.ofDirectives field.directives with
  | .boolean false => return gathered
  | .boolean true => gathered.addField scope.type ⟨field, none, selections⟩
  | .conditional group =>
      if !scope.admits (.onConditions group) then return gathered
      else
        let conditions := (group.remainderIn scope.knownConditions).map Alternatives.single
        gathered.addField scope.type ⟨field, conditions, selections⟩

/-- The narrowing that a fragment applies to a scope, absent if the fragment cannot be included
there. -/
def admitted? (scope : Scope) (typeCondition : Option Name) (directives : List Directive) :
    Except BuildError (Option Narrowing) := do
  match ← Narrowing.ofDirectives typeCondition directives with
  | some narrowing => return if scope.admits narrowing then some narrowing else none
  | none => return none

/-- Adds a spread of a fragment, as a branch if it is conditional or deferred within the scope. -/
def gatherSpread (compilation : Compilation) (scope : Scope) (name : Name)
    (directives : List Directive) (gathered : Gathered) : Except BuildError Gathered := do
  match compilation.fragment? name with
  | none => throw (.unknownFragment name)
  | some (_, fragment) =>
      match ← admitted? scope (some fragment.typeCondition) directives with
      | none => return gathered
      | some narrowing =>
          match scope.effective? narrowing with
          | some effective =>
              if effective.conditions.isSome || effective.defer.isSome then
                return gathered.addBranch effective [.fragmentSpread name directives]
              else return gathered.addSpread name
          | none => return gathered.addSpread name

mutual

/-- Adds one selection. Dissolving an inline fragment takes one of the `remaining` levels of
nesting, of which `limit` were available at first. -/
def gather (compilation : Compilation) (limit : Nat) (scope : Scope) (remaining : Nat)
    (gathered : Gathered) : Selection → Except BuildError Gathered
  | .field field selections => gathered.gatherField scope field selections
  | .inlineFragment typeCondition directives selections => do
      match ← admitted? scope typeCondition directives with
      | none => return gathered
      | some narrowing =>
          match scope.effective? narrowing with
          | some effective => return gathered.addBranch effective selections
          | none =>
              match remaining with
              | 0 => throw (.recursionLimitExceeded limit)
              | remaining + 1 =>
                  gatherAll compilation limit scope remaining gathered selections
  | .fragmentSpread name directives => gathered.gatherSpread compilation scope name directives

/-- Adds selections in order. -/
def gatherAll (compilation : Compilation) (limit : Nat) (scope : Scope) (remaining : Nat)
    (gathered : Gathered) : List Selection → Except BuildError Gathered
  | [] => .ok gathered
  | selection :: rest => do
      let next ← gather compilation limit scope remaining gathered selection
      gatherAll compilation limit scope remaining next rest

end

end Gathered

end ResponseShape
