import ResponseShape.Document.Basic
import ResponseShape.Ordered

/-!
# Fields that can merge

Selections of one response key at one place give a single field of the response. They have to
agree: in the shape of what they return wherever they stand, and in the field and its arguments
unless they are made on different object types. `Document.fieldsCanMerge` asks this of the fields of
every operation and of all those below them. Fields often meet again, where one fragment is spread
in several places, so the check keeps what it has seen and looks at it once.
-/

namespace ResponseShape

namespace Value

mutual

/-- Whether two values are taken for the same. The order of an object's fields does not count, and
lists are compared as far as both go. -/
def isSame : Value → Value → Bool
  | .list left, .list right => areSame left right
  | .object left, .object right => left.length == right.length && haveSame left right
  | left, right => left == right

/-- Whether two lists hold the same values as far as both go. -/
def areSame : List Value → List Value → Bool
  | left :: lefts, right :: rights => isSame left right && areSame lefts rights
  | _, _ => true

/-- Whether every field of the first object has the same value in the second. -/
def haveSame : List (Name × Value) → List (Name × Value) → Bool
  | [], _ => true
  | (name, left) :: lefts, rights =>
      ((rights.lookup name).any fun right => isSame left right) && haveSame lefts rights

end

end Value

/-- A field selected on a type, with the selections made on it. -/
structure SelectedField where
  parentType : Name
  field : FieldSelection
  selections : List Selection
deriving BEq, Inhabited

/-- Selections and the type they are made on. -/
abbrev TypedSelections := Name × List Selection

namespace Selection

mutual

/-- How many selections there are at and below one. -/
def size : Selection → Nat
  | .field _ selections => sizeOfAll selections + 1
  | .inlineFragment _ _ selections => sizeOfAll selections + 1
  | .fragmentSpread .. => 1

/-- How many selections there are at and below several. -/
def sizeOfAll : List Selection → Nat
  | [] => 0
  | selection :: rest => size selection + sizeOfAll rest

end

end Selection

namespace Document

/-- How much is still to be expanded in a queue of selections. -/
def queueSize : List TypedSelections → Nat
  | [] => 0
  | (_, selections) :: queue => 2 * Selection.sizeOfAll selections + 1 + queueSize queue

/-- How much there is to be expanded in fragments. -/
def fragmentsSize : List Fragment → Nat
  | [] => 0
  | fragment :: rest => 2 * Selection.sizeOfAll fragment.selections + 1 + fragmentsSize rest

theorem queueSize_append (left right : List TypedSelections) :
    queueSize (left ++ right) = queueSize left + queueSize right := by
  induction left with
  | nil => simp [queueSize]
  | cons head rest ih => simp [queueSize, ih]; omega

/-- Taking a fragment out of a list takes its size out of the list's. -/
theorem fragmentsSize_eraseP {isWanted : Fragment → Bool} {fragments : List Fragment}
    {fragment : Fragment} (found : fragments.find? isWanted = some fragment) :
    fragmentsSize (fragments.eraseP isWanted) + 2 * Selection.sizeOfAll fragment.selections + 1
      = fragmentsSize fragments := by
  induction fragments with
  | nil => simp at found
  | cons head rest ih =>
      by_cases wanted : isWanted head
      · simp only [List.find?_cons_of_pos wanted, Option.some.injEq] at found
        subst found
        simp [List.eraseP_cons_of_pos wanted, fragmentsSize]
        omega
      · simp only [List.find?_cons_of_neg wanted] at found
        have := ih found
        simp [List.eraseP_cons_of_neg wanted, fragmentsSize]
        omega

/-- The fields that queued selections make. The selections of inline fragments and of fragments not
yet expanded join the end of the queue, so that fields come in the order of their depth. -/
def expand (unexpanded : List Fragment) : List TypedSelections → List SelectedField
  | [] => []
  | (_, []) :: queue => expand unexpanded queue
  | (parent, .field field selections :: rest) :: queue =>
      ⟨parent, field, selections⟩ :: expand unexpanded ((parent, rest) :: queue)
  | (parent, .inlineFragment typeCondition _ selections :: rest) :: queue =>
      expand unexpanded ((parent, rest) :: queue ++ [(typeCondition.getD parent, selections)])
  | (parent, .fragmentSpread name _ :: rest) :: queue =>
      match _ : unexpanded.find? (·.name == name) with
      | some fragment =>
          expand (unexpanded.eraseP (·.name == name))
            ((parent, rest) :: queue ++ [(fragment.typeCondition, fragment.selections)])
      | none => expand unexpanded ((parent, rest) :: queue)
termination_by queue => fragmentsSize unexpanded + queueSize queue
decreasing_by
  all_goals
    simp only [queueSize, queueSize_append, Selection.size, Selection.sizeOfAll, List.cons_append]
  · omega
  · omega
  · omega
  · have := fragmentsSize_eraseP ‹unexpanded.find? _ = some _›
    omega
  · omega

/-- The fields that several selections make together. -/
def selectedFields (document : Document) (selections : List TypedSelections) :
    List SelectedField :=
  expand document.fragments selections

/-- The fields below several selected ones. -/
def fieldsBelow (document : Document) (fields : List SelectedField) : List SelectedField :=
  document.selectedFields
    (fields.map fun selected => (selected.field.type.innerName, selected.selections))

/-- Fields by their response keys, in order. -/
def byResponseKey (fields : List SelectedField) : List (List SelectedField) :=
  (distinct (fields.map (·.field.responseKey))).map fun key =>
    fields.filter (·.field.responseKey == key)

/-- Whether values of two types have the same shape: the same lists and non-nulls, around one and
the same leaf type or around any two composite types. -/
def haveSameShape (schema : Schema) : TypeReference → TypeReference → Bool
  | .list left leftNonNull, .list right rightNonNull =>
      leftNonNull == rightNonNull && haveSameShape schema left right
  | .named left leftNonNull, .named right rightNonNull =>
      leftNonNull == rightNonNull
        && (left == right || (schema.isCompositeName left && schema.isCompositeName right))
  | _, _ => false

/-- Whether a field is the same as an earlier one and has the same arguments, in whatever order. -/
def selectSame (earlier later : FieldSelection) : Bool :=
  earlier.name == later.name && earlier.arguments.length == later.arguments.length
    && earlier.arguments.all fun argument =>
      (later.arguments.find? (·.name == argument.name)).any fun other =>
        other.value.isSame argument.value

/-- Fields that some object can have in common: for each object type selected on, the fields on that
type and then those on abstract types. -/
def byCommonParent (schema : Schema) (fields : List SelectedField) :
    List (List SelectedField) :=
  let (onObjects, onAbstract) := fields.partition fun selected =>
    (schema.type? selected.parentType).any (·.kind == .object)
  match distinct (onObjects.map (·.parentType)) with
  | [] => [onAbstract]
  | parents => parents.map fun parent =>
      onObjects.filter (·.parentType == parent) ++ onAbstract

end Document

/-- What is asked of fields that meet at one place. -/
structure Agreement where
  /-- The fields among them that have to agree with one another. -/
  groups : List SelectedField → List (List SelectedField)
  /-- Whether two fields of a group agree, the first of which is selected first. -/
  relates : SelectedField → SelectedField → Bool

namespace Agreement

/-- Fields with one response key return the same shape. -/
def inShape (schema : Schema) : Agreement where
  groups := Document.byResponseKey
  relates left right := Document.haveSameShape schema left.field.type right.field.type

/-- Fields with one response key that some object can have in common are the same field. -/
def inField (schema : Schema) : Agreement where
  groups fields := (Document.byResponseKey fields).flatMap (Document.byCommonParent schema)
  relates left right := Document.selectSame left.field right.field

/-- Whether all fields of a group agree with its first. -/
def holdsFor (agreement : Agreement) : List SelectedField → Bool
  | [] => true
  | first :: rest => rest.all (agreement.relates first)

end Agreement

namespace Document

/-- Checks fields that meet at one place and those below them, some levels down, given the fields
checked before. The result is all the fields checked then. There is none if some fields do not agree
or if they lie too deep; that counts also for fields that were checked higher up, but nothing is
asked again of what lies below these. -/
def check (document : Document) (agreement : Agreement) :
    Nat → List (List SelectedField) → List SelectedField → Option (List (List SelectedField))
  | 0, _, _ => none
  | levels + 1, checked, fields =>
      if checked.contains fields then some checked
      else
        (agreement.groups fields).foldlM (fun checked group =>
            if !agreement.holdsFor group then none
            else if group.all (·.selections.isEmpty) then some checked
            else document.check agreement levels checked (document.fieldsBelow group))
          (fields :: checked)

/-- How many levels of fields are followed from an operation. -/
def maximalDepth : Nat := 129

/-- Whether the fields of all operations agree, at every level. -/
def agrees (document : Document) (agreement : Agreement) : Bool :=
  ((document.operations.map fun operation =>
      document.selectedFields [(operation.rootType, operation.selections)]).foldlM
    (document.check agreement maximalDepth) []).isSome

/-- Whether the selections of all operations can merge, at every level. -/
def fieldsCanMerge (schema : Schema) (document : Document) : Bool :=
  document.agrees (.inShape schema) && document.agrees (.inField schema)

end Document

end ResponseShape
