import ResponseShape.Inclusion.InclusionResult

/-!
# Alternatives of condition groups

A field that is selected several times is included if one of several groups holds. Code renders such
a disjunction as it stands, so it is kept free of redundant groups: none implies another.
-/

namespace ResponseShape

/-- A disjunction of condition groups. -/
structure Alternatives where
  groups : List ConditionGroup
deriving DecidableEq, Inhabited

namespace Alternatives

/-- Disjunctions compare their groups in order. -/
instance : BEq Alternatives := ⟨fun left right => left.groups == right.groups⟩

instance : Hashable Alternatives := ⟨fun alternatives => hash alternatives.groups⟩

/-- The disjunction of one group. -/
def single (group : ConditionGroup) : Alternatives := ⟨[group]⟩

/-- Adds an alternative. A group that implies an existing one adds nothing, and the existing groups
that imply the new one give way to it. -/
def or (alternatives : Alternatives) (group : ConditionGroup) : Alternatives :=
  if alternatives.groups.any (·.isSubset group) then alternatives
  else ⟨alternatives.groups.filter (fun existing => !group.isSubset existing) ++ [group]⟩

/-- The disjunction of two optional disjunctions, where absence means that there is no condition. -/
def union : Option Alternatives → Option Alternatives → Option Alternatives
  | some left, some right => some (right.groups.foldl or left)
  | _, _ => none

/-- Whether one of the groups can hold within the scope. -/
def canHoldIn (alternatives : Alternatives) (scope : Option ConditionGroup) : Bool :=
  alternatives.groups.any fun group => !group.contradicts scope

/-- The disjunction of reduced groups, `reduced` being what is left of those before. One group that
the scope implies makes the whole disjunction hold. -/
def reduceFrom (scope : Option ConditionGroup) (reduced : Option Alternatives) :
    List ConditionGroup → Option Alternatives
  | [] => reduced
  | group :: rest =>
      match group.remainderIn scope with
      | none => none
      | some remaining =>
          reduceFrom scope (some ((reduced.map (·.or remaining)).getD (single remaining))) rest

/-- What is left to check within the scope: groups that contradict it are dropped, and tests it
makes are removed from the others. Absent if nothing is left to check; callers that need to tell
this from a disjunction that cannot hold ask `canHoldIn` first. -/
def remainderIn (alternatives : Alternatives) (scope : Option ConditionGroup) :
    Option Alternatives :=
  reduceFrom scope none (alternatives.groups.filter fun group => !group.contradicts scope)

/-- The groups joined by `||`, those of several conditions between parentheses. -/
def render (alternatives : Alternatives) : String :=
  match alternatives.groups with
  | [group] => group.render
  | groups => " || ".intercalate (groups.map fun group =>
      if group.size > 1 then "(" ++ group.render ++ ")" else group.render)

end Alternatives

end ResponseShape
