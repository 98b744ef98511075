import ResponseShape.Proofs.Merging.Union

/-!
# Walks through visible selections

A walk starts at a root selection set with an object of its type. At each object it enters branches
whose keys the object meets until there are none left, and goes on to the objects of some field.
`Visits` says which sets a walk can come to, whichever branches it enters first.

Wherever a walk comes to, the objects on the way lie within the scopes of the place, and what is
direct there is written in the definition that the walk started from (`Visits.stands`).
-/

namespace ResponseShape

/-- Whether an object meets the key of none of the visible branches. -/
def VisibleSelections.isFinalFor (schema : Schema) (object : Name) (assignment : Assignment)
    (visible : VisibleSelections) : Bool :=
  visible.branches.all fun branch => !branch.key.holds schema object assignment

/-- The selection sets that a walk from a start can come to, with the way there and the object that
it stands at. -/
inductive Visits (project : Project) (workspace : Workspace) (assignment : Assignment)
    (start : SelectionSet) : List Execution.Step → Name → SelectionSet → Prop where
  | start {object : Name} (possible : project.schema.isPossible start.type object = true) :
      Visits project workspace assignment start [] object start
  | branch {way : List Execution.Step} {object : Name} {set : SelectionSet}
      {visible : VisibleSelections} {branch : Branch}
      (visits : Visits project workspace assignment start way object set)
      (run : set.visible project.schema workspace.entities .all = .ok visible)
      (mem : branch ∈ visible.branches)
      (enters : branch.key.holds project.schema object assignment = true) :
      Visits project workspace assignment start way object branch.selectionSet
  | field {way : List Execution.Step} {object next : Name} {set inner : SelectionSet}
      {visible : VisibleSelections} {field : Field}
      (visits : Visits project workspace assignment start way object set)
      (run : set.visible project.schema workspace.entities .all = .ok visible)
      (isFinal : visible.isFinalFor project.schema object assignment = true)
      (mem : field ∈ visible.fields) (isInner : field.selectionSet = some inner)
      (possible : project.schema.isPossible field.summary.type.innerName next = true) :
      Visits project workspace assignment start (way ++ [⟨object, field.responseKey⟩]) next inner

section Sets

variable {project : Project} {workspace : Workspace} {definition : DefinitionId} {type : Name}
  {selections : List Selection} {root : RootField} {set inner : SelectionSet}
  {strategy : MergingStrategy} {visible : VisibleSelections} {field : Field} {branch : Branch}

/-- Whether what is direct in a set is written in a definition. -/
def SelectionSet.IsWrittenIn (root : RootField) (set : SelectionSet) : Prop :=
  ∀ tree, set.direct = some tree → (set.place, tree) ∈ root.writtenSets

theorem SelectionSet.IsWrittenIn.isDepiction (isWritten : set.IsWrittenIn root)
    (depiction : root.IsDepiction project definition type selections) :
    set.IsDepiction project := by
  intro tree isTree
  rcases (depiction.forall_writtenSets _ (isWritten tree isTree)).1 with
    ⟨levels, written, depicts⟩
  exact ⟨levels, set.place, written, depicts⟩

/-- Whether a selection set is one on the objects of a field of another set. -/
structure SelectionSet.IsInner (schema : Schema) (root : RootField) (set : SelectionSet)
    (field : Field) (inner : SelectionSet) : Prop where
  enclosing : inner.place.enclosing = set.place.scopes
  scope : Scope.forType schema field.summary.type.innerName = .ok inner.place.scope
  location : inner.place.entity.location
    = set.place.entity.location.child field.responseKey field.summary.type.innerName
  written : inner.IsWrittenIn root

theorem SelectionSet.IsWrittenIn.isInner (isWritten : set.IsWrittenIn root)
    (depiction : root.IsDepiction project definition type selections)
    (mem : field ∈ set.directFields) (isInner : field.selectionSet = some inner) :
    set.IsInner project.schema root field inner := by
  rcases mem_directFields.mp mem with ⟨tree, isTree, fieldMem⟩
  have here := isWritten tree isTree
  rcases depiction.depicts with ⟨_, ofRoot⟩
  rcases (depiction.forall_writtenSets _ here).1 with ⟨levels, written, depicts⟩
  rcases depicts.of_field fieldMem isInner with ⟨isChild, below, isBelow, written, -⟩
  refine ⟨isChild.enclosing, isChild.scope, ?_, ?_⟩
  · exact depiction.located _ here field fieldMem inner isInner
  · intro other isOther
    rcases Option.some.inj (isBelow.symm.trans isOther) with rfl
    exact ofRoot.subset_writtenSets here _ written

theorem SelectionSet.IsWrittenIn.of_branch (isWritten : set.IsWrittenIn root)
    (depiction : root.IsDepiction project definition type selections)
    (mem : branch ∈ set.directBranches) :
    set.place.narrowed project.schema branch.key = .ok branch.selectionSet.place
      ∧ branch.selectionSet.IsWrittenIn root := by
  rcases mem_directBranches.mp mem with ⟨tree, isTree, branchMem⟩
  have here := isWritten tree isTree
  rcases depiction.depicts with ⟨_, ofRoot⟩
  rcases (depiction.forall_writtenSets _ here).1 with ⟨levels, written, depicts⟩
  rcases depicts.of_branch branchMem with ⟨narrowed, below, isBelow, written, -⟩
  refine ⟨narrowed, ?_⟩
  intro other isOther
  rcases Option.some.inj (isBelow.symm.trans isOther) with rfl
  exact ofRoot.subset_writtenSets here _ written

variable (sound : workspace.IsSound project)
  (depiction : root.IsDepiction project definition type selections)
  (isWritten : set.IsWrittenIn root)
  (run : set.visible project.schema workspace.entities strategy = .ok visible)

include sound depiction isWritten run

theorem VisibleSelections.isInner_of_mem (mem : field ∈ visible.fields)
    (isInner : field.selectionSet = some inner) : set.IsInner project.schema root field inner := by
  have orderly := (isWritten.isDepiction depiction).isOrderly
  rcases mem_fields orderly run mem with ⟨direct, directMem, widened⟩ | ⟨-, added⟩
  · have isUnder := widened.isUnder
    rw [isUnder] at isInner ⊢
    rcases isWritten.isInner depiction directMem isInner with
      ⟨enclosing, scope, location, written⟩
    exact ⟨enclosing, scope, location, written⟩
  · rcases added.adopted with ⟨source, -, adopts⟩
    have isKey := adopts.responseKey
    rcases adopts.selectionSet with ⟨-, none⟩ | ⟨_, entity, place, -, found, isBelow, isMerged⟩
    · rw [none] at isInner
      cases isInner
    · rw [isMerged, Option.some.injEq] at isInner
      rw [← isInner]
      simp only [SelectionSet.mergeTarget, Place.below] at isBelow found
      cases isScope : Scope.forType project.schema source.summary.type.innerName with
      | error error => simp [isScope, Except.map] at isBelow
      | ok scope =>
          simp only [isScope, Except.map, Except.ok.injEq] at isBelow
          subst isBelow
          have isType : field.summary.type = source.summary.type := by rw [adopts.summary]
          refine ⟨rfl, by rw [isType, isScope], ?_, fun _ isTree => by cases isTree⟩
          rw [isKey, isType]
          exact sound.entities.location_of_entity? found

omit sound in
theorem VisibleSelections.narrowed_of_mem (mem : branch ∈ visible.branches) :
    set.place.narrowed project.schema branch.key = .ok branch.selectionSet.place
      ∧ branch.selectionSet.IsWrittenIn root := by
  rcases SelectionSet.hasMerged_of_visible run with ⟨-, isDirect, merged⟩
  rw [branches, isDirect, List.mem_append] at mem
  rcases mem with ofDirect | isAdded
  · exact isWritten.of_branch depiction ofDirect
  · rcases merged.branches.places branch isAdded with ⟨none, narrowed⟩
    refine ⟨narrowed, fun tree isTree => ?_⟩
    rw [none] at isTree
    cases isTree

end Sets

/-- How a walk stands at a selection set: on objects within the scopes of the set's place. -/
structure Stands (project : Project) (assignment : Assignment) (root : RootField)
    (way : List Execution.Step) (object : Name) (set : SelectionSet) : Prop where
  written : set.IsWrittenIn root
  definition : set.place.entity.location.definition = root.place.entity.location.definition
  keys : set.place.entity.location.responseKeys = way.map (·.key)
  reachable : ∀ scope ∈ set.place.scopes, Scope.Reachable project.schema scope
  enclosing : List.Forall₂ (fun scope object =>
    scope.holds project.schema object assignment = true) set.place.enclosing (way.map (·.object))
  scope : set.place.scope.holds project.schema object assignment = true

section Walks

variable {project : Project} {workspace : Workspace} {definition : DefinitionId} {type : Name}
  {selections : List Selection} {root : RootField} {assignment : Assignment}
  {way : List Execution.Step} {object next : Name} {set inner : SelectionSet} {field : Field}
  {branch : Branch}

theorem Stands.reachable_scope (stands : Stands project assignment root way object set) :
    Scope.Reachable project.schema set.place.scope :=
  stands.reachable _ set.place.scope_mem_scopes

theorem RootField.IsDepiction.selectionSet_type
    (depiction : root.IsDepiction project definition type selections) :
    root.selectionSet.type = type := by
  rcases Scope.forType_eq_ok depiction.scope with ⟨supertypes, -, isScope⟩
  rw [SelectionSet.type, RootField.selectionSet, Place.type, isScope]

theorem stands_start (depiction : root.IsDepiction project definition type selections)
    (possible : project.schema.isPossible root.selectionSet.type object = true) :
    Stands project assignment root [] object root.selectionSet := by
  constructor
  · rintro tree ⟨⟩
    exact SelectionTree.self_mem_writtenSets _ _
  · rfl
  · simp [RootField.selectionSet, depiction.location, Location.root, Location.responseKeys]
  · intro scope mem
    rw [RootField.selectionSet, Place.scopes, depiction.enclosing, List.nil_append,
      List.mem_singleton] at mem
    rw [mem]
    exact .forType depiction.scope
  · rw [RootField.selectionSet, depiction.enclosing]
    exact .nil
  · rw [depiction.selectionSet_type] at possible
    exact (Scope.holds_of_forType depiction.scope).trans possible

theorem Stands.enters (lawful : project.schema.IsLawful)
    (stands : Stands project assignment root way object set)
    (narrowed : set.place.narrowed project.schema branch.key = .ok branch.selectionSet.place)
    (written : branch.selectionSet.IsWrittenIn root)
    (enters : branch.key.holds project.schema object assignment = true) :
    Stands project assignment root way object branch.selectionSet := by
  rcases Place.narrowed_eq_ok narrowed with ⟨-, sameEntity, sameEnclosing⟩
  rcases Place.scope_of_narrowed lawful stands.reachable_scope narrowed with ⟨reachable, holdsIff⟩
  constructor
  · exact written
  · rw [sameEntity]
    exact stands.definition
  · rw [sameEntity]
    exact stands.keys
  · intro scope mem
    rw [Place.scopes, sameEnclosing] at mem
    rcases List.mem_append.mp mem with outer | isScope
    · exact stands.reachable scope (List.mem_append_left _ outer)
    · rw [List.mem_singleton.mp isScope]
      exact reachable
  · rw [sameEnclosing]
    exact stands.enclosing
  · exact (holdsIff object assignment).mpr ⟨stands.scope, enters⟩

theorem Stands.goesOn (stands : Stands project assignment root way object set)
    (isInner : set.IsInner project.schema root field inner)
    (possible : project.schema.isPossible field.summary.type.innerName next = true) :
    Stands project assignment root (way ++ [⟨object, field.responseKey⟩]) next inner := by
  constructor
  · exact isInner.written
  · rw [isInner.location]
    exact stands.definition
  · rw [isInner.location, List.map_append, ← stands.keys]
    simp [Location.child, Location.joined, Location.responseKeys]
  · intro scope mem
    rw [Place.scopes, isInner.enclosing] at mem
    rcases List.mem_append.mp mem with outer | isScope
    · exact stands.reachable scope outer
    · rw [List.mem_singleton.mp isScope]
      exact .forType isInner.scope
  · rw [isInner.enclosing, Place.scopes, List.map_append]
    exact List.rel_append stands.enclosing (.cons stands.scope .nil)
  · exact (Scope.holds_of_forType isInner.scope).trans possible

/-- Wherever a walk comes to, it stands there. -/
theorem Visits.stands (lawful : project.schema.IsLawful) (sound : workspace.IsSound project)
    (depiction : root.IsDepiction project definition type selections)
    (visits : Visits project workspace assignment root.selectionSet way object set) :
    Stands project assignment root way object set := by
  induction visits with
  | start possible => exact stands_start depiction possible
  | branch _ run mem enters stands =>
      rcases VisibleSelections.narrowed_of_mem depiction stands.written run mem with
        ⟨narrowed, written⟩
      exact stands.enters lawful narrowed written enters
  | field _ run _ mem isInner possible stands =>
      exact stands.goesOn
        (VisibleSelections.isInner_of_mem sound depiction stands.written run mem isInner) possible

end Walks

section Final

variable {project : Project} {workspace : Workspace} {root : RootField} {assignment : Assignment}
  {way : List Execution.Step} {object : Name} {set : SelectionSet} {visible : VisibleSelections}
  {occurrence : Occurrence} {scope other : Scope}

/-- Towards a scope that holds an object, and that a scope with the object is not within, there is a
branch that the object enters. -/
theorem Scope.IsSound.exists_branchTowards? (sound : scope.IsSound project.schema)
    (within : scope.holds project.schema object assignment = true)
    (isOutside : scope.isWithin other = false)
    (otherHolds : other.holds project.schema object assignment = true) :
    ∃ key, scope.branchTowards? project.schema other = some key
      ∧ key.holds project.schema object assignment = true := by
  rw [isWithin, List.all_eq_false] at isOutside
  rcases isOutside with ⟨unknown, onPath, notImplied⟩
  cases isFirst : other.path.find? fun narrowing => !scope.implies narrowing with
  | none =>
      have implied := List.find?_eq_none.mp isFirst unknown onPath
      simp [notImplied] at implied
  | some narrowing =>
      have holds := List.all_eq_true.mp otherHolds narrowing (List.mem_of_find?_eq_some isFirst)
      have unimplied : scope.implies narrowing = false := by
        simpa using List.find?_some isFirst
      have admits := sound.admits_of_holds within holds
      have mayHave : narrowing.typeCondition.all (scope.mayHave project.schema) = true := by
        rw [Option.all_eq_true]
        intro type isType
        have possible := (Narrowing.holds_iff.mp holds).1
        rw [isType, Option.all_some] at possible
        simp [Scope.mayHave,
          Schema.typesOverlap_of_isPossible (sound.isPossible_type within) possible]
      cases isEffective : scope.effective? narrowing with
      | none =>
          rw [effective?_eq_none_iff.mp isEffective] at unimplied
          cases unimplied
      | some key =>
          refine ⟨key, ?_, (sound.holds_effective within isEffective).trans holds⟩
          simp [branchTowards?, isFirst, admits, mayHave, isEffective]

/-- Each narrowing that is merged into a set is the key of a visible branch. -/
theorem SelectionSet.exists_branch_of_seen {strategy : MergingStrategy} {key : Narrowing}
    (run : set.visible project.schema workspace.entities strategy = .ok visible)
    (isSeen : occurrence ∈ set.seen workspace.entities strategy)
    (towards : set.place.scope.branchTowards? project.schema occurrence.place.scope = some key) :
    ∃ branch ∈ visible.branches, (key == branch.key) = true := by
  rcases hasMerged_of_visible run with ⟨-, isDirect, merged⟩
  simp only [VisibleSelections.branches, List.mem_append, isDirect]
  have mem : key ∈ (set.seen workspace.entities strategy).filterMap fun occurrence =>
      set.place.scope.branchTowards? project.schema occurrence.place.scope :=
    List.mem_filterMap.mpr ⟨occurrence, isSeen, towards⟩
  cases isKnown : set.direct.bind (·.branch? key) with
  | some branch =>
      rcases Option.bind_eq_some_iff.mp isKnown with ⟨tree, isTree, found⟩
      refine ⟨branch, Or.inl ?_, ?_⟩
      · rw [isTree]
        exact List.mem_of_find?_eq_some found
      · have isKey : (branch.key == key) = true := by
          rw [SelectionTree.branch?] at found
          simpa using List.find?_some found
        rw [Narrowing.beq_comm]
        exact isKey
  | none =>
      have kept : key ∈ List.filter (fun key => (set.direct.bind (·.branch? key)).isNone) _ :=
        List.mem_filter.mpr ⟨mem, by rw [isKnown, Option.isNone_none]⟩
      rcases exists_beq_mem_distinct Narrowing.beq_refl kept with ⟨other, otherMem, same⟩
      have isAdded : other ∈ visible.additions.branches.map (·.key) := by
        rw [merged.branches.keys]
        exact otherMem
      rcases List.mem_map.mp isAdded with ⟨branch, branchMem, rfl⟩
      exact ⟨branch, Or.inr branchMem, same⟩

/-- Where a walk can enter no more branches, every other occurrence in a scope with the object is a
source. -/
theorem Stands.mem_sources (lawful : project.schema.IsLawful)
    (stands : Stands project assignment root way object set)
    (run : set.visible project.schema workspace.entities .all = .ok visible)
    (isFinal : visible.isFinalFor project.schema object assignment = true)
    (registered : occurrence ∈ workspace.entities.occurrences set.place.entity.location)
    (isOther : set.isItself occurrence = false)
    (enclosed : set.place.isEnclosedLike occurrence.place = true)
    (within : occurrence.place.scope.holds project.schema object assignment = true) :
    occurrence ∈ set.sources workspace.entities .all := by
  have enabled : (set.place.originOf occurrence).isEnabled .all = true := by
    cases set.place.originOf occurrence <;> (simp only [Origin.isEnabled, Origin.flag]; decide)
  have isSeen := SelectionSet.mem_seen.mpr ⟨registered, isOther, enclosed, enabled⟩
  refine List.mem_filter.mpr ⟨isSeen, ?_⟩
  cases isWithin : set.place.scope.isWithin occurrence.place.scope with
  | true => rfl
  | false =>
      have sound := Scope.isSound_of_reachable lawful stands.reachable_scope
      rcases sound.exists_branchTowards? stands.scope isWithin within with ⟨key, towards, holds⟩
      rcases SelectionSet.exists_branch_of_seen run isSeen towards with ⟨branch, mem, same⟩
      have refused := List.all_eq_true.mp isFinal branch mem
      rw [← Narrowing.holds_of_beq same, holds] at refused
      cases refused

end Final

/-- The operation of the sample, and what it selects on heroes. -/
theorem Heroes.exists_operation : ∃ document operation,
    Heroes.compilation.documents[0]? = some document
    ∧ operation ∈ document.document.operations ∧ operation.name = some "Q"
    ∧ (Execution.executed Heroes.compilation (fun _ => true) [⟨"Query", "hero"⟩] "Hero"
      operation.selections).map (·.responseKey) = ["name", "age", "id"]
    ∧ (Execution.executed Heroes.compilation (fun _ => false) [⟨"Query", "hero"⟩] "Hero"
      operation.selections).map (·.responseKey) = ["name", "id"] := by
  have computes : (Heroes.compilation.documents[0]?.any fun document =>
      document.document.operations.any fun operation => operation.name == some "Q"
        && (Execution.executed Heroes.compilation (fun _ => true) [⟨"Query", "hero"⟩] "Hero"
          operation.selections).map (·.responseKey) == ["name", "age", "id"]
        && (Execution.executed Heroes.compilation (fun _ => false) [⟨"Query", "hero"⟩] "Hero"
          operation.selections).map (·.responseKey) == ["name", "id"]) = true := by
    rewrite [Heroes.compilation_eq]
    decide +kernel
  simp only [Option.any_eq_true, List.any_eq_true, Bool.and_eq_true, beq_iff_eq] at computes
  rcases computes with ⟨document, isDocument, operation, isOperation, ⟨isNamed, all⟩, fewer⟩
  exact ⟨document, operation, isDocument, isOperation, isNamed, all, fewer⟩

/-- A walk through the operation of the sample to a hero, whose age is always visible. -/
theorem Heroes.exists_visits (assignment : Assignment) : ∃ shape set visible,
    (⟨0, some "Q"⟩, shape) ∈ Heroes.workspace.operations
    ∧ Visits Heroes.project Heroes.workspace assignment shape.root.selectionSet
      [⟨"Query", "hero"⟩] "Hero" set
    ∧ set.visible Heroes.project.schema Heroes.workspace.entities .all = .ok visible
    ∧ visible.isFinalFor Heroes.project.schema "Hero" assignment = true
    ∧ ∃ field ∈ visible.fields, field.responseKey = "age" ∧ field.summary.conditions = none := by
  have computes : (Heroes.workspace.operations.any fun entry => entry.1 == ⟨0, some "Q"⟩
      && Heroes.project.schema.isPossible entry.2.root.selectionSet.type "Query"
      && (entry.2.root.selectionSet.visible Heroes.project.schema Heroes.workspace.entities
        .all).toOption.any fun outer => outer.branches.isEmpty && outer.fields.any fun field =>
          field.responseKey == "hero"
          && Heroes.project.schema.isPossible field.summary.type.innerName "Hero"
          && field.selectionSet.any fun inner =>
            (inner.visible Heroes.project.schema Heroes.workspace.entities .all).toOption.any
              fun visible => visible.branches.isEmpty && visible.fields.any fun field =>
                field.responseKey == "age" && field.summary.conditions.isNone) = true := by
    rewrite [Heroes.workspace_eq, Heroes.project_eq]
    decide +kernel
  simp only [Option.any_eq_true, List.any_eq_true, Bool.and_eq_true, beq_iff_eq, List.isEmpty_iff,
    Option.isNone_iff_eq_none] at computes
  rcases computes with ⟨⟨_, shape⟩, isBuilt, ⟨rfl, ofRoot⟩, outer, isOuter, noBranches, field,
    fieldMem, ⟨isHero, ofField⟩, inner, isInner, visible, isVisible, noneInside, age⟩
  have isFinal {found : VisibleSelections} (none : found.branches = []) (object : Name) :
      found.isFinalFor Heroes.project.schema object assignment = true := by
    rw [VisibleSelections.isFinalFor, none, List.all_nil]
  have run := Build.eq_ok_of_toOption isVisible
  have visits := Visits.field (.start ofRoot) (Build.eq_ok_of_toOption isOuter)
    (isFinal noBranches "Query") fieldMem isInner ofField
  rw [isHero, List.nil_append] at visits
  exact ⟨shape, inner, visible, isBuilt, visits, run, isFinal noneInside "Hero", age⟩

end ResponseShape
