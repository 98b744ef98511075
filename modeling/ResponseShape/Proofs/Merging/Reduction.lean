import ResponseShape.Proofs.Definition.Reduction
import ResponseShape.Proofs.Merging.Conflicts

/-!
# Reduced conditions among what is visible

Merging takes from the conditions of a field what the scope of the place leaves of them, and forms
unions of that. So it keeps the conditions of what was added and widened reduced
(`Additions.AreReduced.mergeField`), and nothing can be left out of the conditions that a set shows:
no variable is tested whose value its scope fixes, and no group makes another redundant
(`SelectionSet.Offered.areReduced`).
-/

namespace ResponseShape

/-- Whether nothing can be left out of the conditions of added and of widened fields. -/
structure Additions.AreReduced (known : Option ConditionGroup) (additions : Additions) : Prop where
  widened : ∀ field ∈ additions.widened, field.IsReduced known
  fields : ∀ field ∈ additions.fields, field.IsReduced known

section Steps

variable {target : MergeTarget} {known : Option ConditionGroup} {additions next : Additions}
  {field direct existing : Field} {incoming : Option Alternatives} {contributed : Bool}

theorem Field.IsReduced.union (reduced : field.IsReduced known)
    (isReduced : ∀ conditions ∈ incoming, conditions.IsReduced known) :
    (field.under (Alternatives.union field.summary.conditions incoming)).IsReduced known :=
  Alternatives.isReduced_union reduced isReduced

theorem Field.isReduced_remainder (field : Field) :
    ∀ conditions ∈ field.summary.conditions.bind (·.remainderIn known),
      conditions.IsReduced known := by
  intro conditions isLeft
  rcases Option.bind_eq_some_iff.mp isLeft with ⟨whole, -, remains⟩
  exact whole.isReduced_remainderIn conditions remains

namespace Additions.AreReduced

theorem empty : Additions.empty.AreReduced known := by
  constructor <;> simp [Additions.empty]

/-- A direct field is widened from reduced conditions, be it for the first time or again. -/
theorem widen (reduced : additions.AreReduced known) (directReduced : direct.IsReduced known)
    (isReduced : ∀ conditions ∈ incoming, conditions.IsReduced known) :
    (MergeTarget.widen additions direct incoming).1.AreReduced known := by
  have current : ((additions.widened? direct.responseKey).getD direct).IsReduced known := by
    cases isWidened : additions.widened? direct.responseKey with
    | none => exact directReduced
    | some field => exact reduced.widened field (List.mem_of_find?_eq_some isWidened)
  simp only [MergeTarget.widen]
  split
  next => exact reduced
  next conditions isConditions =>
    split
    next => exact reduced
    next =>
      have widened := current.union isReduced
      rw [isConditions] at widened
      exact ⟨forall_mem_updateOrAppend reduced.widened widened fun _ _ => widened, reduced.fields⟩

theorem unite (reduced : additions.AreReduced known) (mem : existing ∈ additions.fields)
    (isReduced : ∀ conditions ∈ incoming, conditions.IsReduced known) :
    (MergeTarget.unite additions existing incoming).AreReduced known :=
  ⟨reduced.widened, forall_mem_updateOrAppend reduced.fields (reduced.fields existing mem)
    fun _ earlier => earlier.union isReduced⟩

theorem mergeField (directReduced : ∀ tree ∈ target.direct, ∀ field ∈ tree.fields,
      field.IsReduced target.known)
    (reduced : additions.AreReduced target.known)
    (run : target.mergeField additions field = .ok (next, contributed)) :
    next.AreReduced target.known := by
  have isReduced : ∀ conditions ∈ field.summary.conditions.bind (·.remainderIn target.known),
      conditions.IsReduced target.known := field.isReduced_remainder
  cases MergeTarget.mergesField_of_mergeField run with
  | refused => exact reduced
  | widened _ isDirect _ =>
      rcases Option.bind_eq_some_iff.mp isDirect with ⟨tree, isTree, found⟩
      exact reduced.widen (directReduced tree isTree _ (List.mem_of_find?_eq_some found)) isReduced
  | united _ _ isAdded _ => exact reduced.unite (List.mem_of_find?_eq_some isAdded) isReduced
  | added _ _ _ adopted =>
      refine ⟨reduced.widened, List.forall_mem_append.mpr ⟨reduced.fields, ?_⟩⟩
      rw [List.forall_mem_singleton, Field.IsReduced, (MergeTarget.adopts_of_adopted adopted).2]
      exact isReduced

theorem mergeSpread {spread : Spread} (reduced : additions.AreReduced known) :
    (target.mergeSpread additions spread).1.AreReduced known := by
  simp only [MergeTarget.mergeSpread]
  split <;> exact ⟨reduced.widened, reduced.fields⟩

theorem mergeBranch {key : Narrowing} (reduced : additions.AreReduced known)
    (run : target.mergeBranch additions key = .ok (next, contributed)) :
    next.AreReduced known := by
  simp only [MergeTarget.mergeBranch, bind, Except.bind, pure, Except.pure] at run
  split at run
  next =>
    rcases Prod.mk.inj (Except.ok.inj run) with ⟨rfl, -⟩
    exact reduced
  next =>
    split at run
    next => cases run
    next =>
      rcases Prod.mk.inj (Except.ok.inj run) with ⟨rfl, -⟩
      exact ⟨reduced.widened, reduced.fields⟩

theorem yields_mergeSighting {contributors : List Contributor} {sighting : Sighting}
    (directReduced : ∀ tree ∈ target.direct, ∀ field ∈ tree.fields,
      field.IsReduced target.known)
    (reduced : additions.AreReduced target.known) :
    Yields (fun _ => True) (fun merged => merged.1.AreReduced target.known)
      (target.mergeSighting (additions, contributors) sighting) := by
  simp only [MergeTarget.mergeSighting]
  split
  next =>
    have merges : Yields (fun _ => True) (fun merged => merged.1.AreReduced target.known)
        (target.mergeSelections additions sighting.occurrence.selections) :=
      MergeTarget.yields_mergeSelections_of_steps reduced
        (fun _ before _ _ => .of_forall fun _ run => before.mergeField directReduced run)
        fun _ before _ _ => before.mergeSpread
    exact merges.bind fun _ merged => merged
  next narrowing _ =>
    have merges : Yields (fun _ => True) (fun merged => merged.1.AreReduced target.known)
        (target.mergeBranch additions narrowing) :=
      .of_forall fun _ run => reduced.mergeBranch run
    exact merges.bind fun _ merged => merged

end Additions.AreReduced

end Steps

namespace SelectionSet

variable {project : Project} {workspace : Workspace} {set : SelectionSet}
  {strategy : MergingStrategy} {visible : VisibleSelections}

/-- If nothing can be left out of the conditions of direct fields, then nothing can be left out of
those of visible ones. -/
theorem isReduced_of_visible
    (directReduced : ∀ field ∈ set.directFields, field.IsReduced set.place.scope.knownConditions)
    (run : set.visible project.schema workspace.entities strategy = .ok visible) :
    ∀ field ∈ visible.fields, field.IsReduced set.place.scope.knownConditions := by
  have inTree : ∀ tree ∈ set.direct, ∀ field ∈ tree.fields,
      field.IsReduced set.place.scope.knownConditions := fun tree isTree field mem =>
    directReduced field (mem_directFields.mpr ⟨tree, isTree, mem⟩)
  have yields : Yields (fun _ => True) (fun visible : VisibleSelections =>
      ∀ field ∈ visible.fields, field.IsReduced set.place.scope.knownConditions)
      (set.visible project.schema workspace.entities strategy) := by
    refine (yields_visible_of_steps
      (fun merged => merged.1.AreReduced set.place.scope.knownConditions) (fun _ _ => trivial)
      .empty fun merged reduced sighting _ _ => ?_).mono (fun _ => id) ?_
    · exact Additions.AreReduced.yields_mergeSighting inTree reduced
    · rintro _ ⟨additions, contributors, rfl, reduced⟩ field mem
      rcases List.mem_append.mp mem with isDirect | isAdded
      · rcases List.mem_map.mp isDirect with ⟨direct, directMem, rfl⟩
        cases isWidened : additions.widened? direct.responseKey with
        | none => exact directReduced direct directMem
        | some field => exact reduced.widened field (List.mem_of_find?_eq_some isWidened)
      · exact reduced.fields field isAdded
  rw [run] at yields
  exact yields

/-- Nothing can be left out of the conditions of a set's fields: neither of those written at it, nor
of those that it shows under any strategy. -/
theorem Offered.areReduced (offered : set.Offered project) :
    (∀ field ∈ set.directFields, field.IsReduced set.place.scope.knownConditions)
    ∧ ∀ (workspace : Workspace) (strategy : MergingStrategy) (visible : VisibleSelections),
      set.visible project.schema workspace.entities strategy = .ok visible →
      ∀ field ∈ visible.fields, field.IsReduced set.place.scope.knownConditions := by
  rcases offered.exists_root with ⟨_, _, root, -, depiction, offeredBy⟩
  have directReduced : ∀ field ∈ set.directFields,
      field.IsReduced set.place.scope.knownConditions := by
    intro field mem
    rcases mem_directFields.mp mem with ⟨tree, isTree, inTree⟩
    have written := (offeredBy.isPlacedIn depiction).written tree isTree
    rcases (depiction.forall_writtenSets _ written).1 with ⟨_, _, depicts⟩
    exact depicts.isReduced field inTree
  exact ⟨directReduced, fun _ _ _ run => isReduced_of_visible directReduced run⟩

end SelectionSet

/-- A sample that tests two variables over and over. Behind the branch on the first one, a field is
selected under a test of the second one only. Below another field, a branch on the opposite of the
first follows. -/
def Disguises : Sample where
  schemaText :=
    "type Query \x7b hero: Hero id: ID \x7d type Hero \x7b name: String \x7d"
  sources :=
    [⟨"d.graphql",
      "query Q($a: Boolean!, $b: Boolean!) \x7b id @include(if: $a) @skip(if: $b) "
        ++ "... @include(if: $a) \x7b id @include(if: $b) hero \x7b ... @skip(if: $a) \x7b "
        ++ "name @include(if: $b) \x7d \x7d \x7d \x7d"⟩]
  isValid := by decide +kernel

/-- Behind the branch on the first variable, only the second one is left to test. -/
theorem SelectionSet.areReduced_disguises : ∃ (set : SelectionSet) (visible : VisibleSelections)
    (field : Field), set.Offered Disguises.project
    ∧ set.visible Disguises.project.schema Disguises.workspace.entities .all = .ok visible
    ∧ field ∈ visible.fields
    ∧ set.place.scope.knownConditions.map (·.render) = some "$a"
    ∧ field.summary.conditions.map (·.render) = some "$b || !$b"
    ∧ field.IsReduced set.place.scope.knownConditions := by
  have computes : (Disguises.workspace.operations.any fun operation =>
      operation.2.root.writtenSets.any fun member =>
        ((SelectionSet.mk member.1 (some member.2)).visible Disguises.project.schema
          Disguises.workspace.entities .all).toOption.any fun visible =>
            visible.fields.any fun field =>
              member.1.scope.knownConditions.map (·.render) == some "$a"
                && field.summary.conditions.map (·.render) == some "$b || !$b") = true := by
    rewrite [Disguises.workspace_eq, Disguises.project_eq]
    decide +kernel
  simp only [List.any_eq_true, Option.any_eq_true, Bool.and_eq_true, beq_iff_eq] at computes
  rcases computes with ⟨⟨key, shape⟩, isBuilt, member, mem, visible, isVisible, field, fieldMem,
    known, conditions⟩
  have offered := SelectionSet.Offered.operation Disguises.reachable isBuilt mem
  have run := Build.eq_ok_of_toOption isVisible
  exact ⟨_, visible, field, offered, run, fieldMem, known, conditions,
    offered.areReduced.2 _ _ _ run field fieldMem⟩

end ResponseShape
