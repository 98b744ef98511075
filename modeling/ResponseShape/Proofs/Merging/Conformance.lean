import ResponseShape.Proofs.Merging.Narrower
import ResponseShape.Proofs.Workspace.Mounting

/-!
# Conformance to fragments

A set that shows a spread shows all that the fragment selects: what is visible at the fragment's
root is visible at the set and, along fields of one response key and type, what is visible below the
one is visible below the other (`SelectionSet.OfferedBy.conforms`). The invariant on the way is that
the set, as seen from the occurrence that has the spread, stands where the set of the fragment
stands (`SelectionSet.Follows`), so all that the latter is within is mounted around the former.

The types have to agree because an entity is known by them. They do agree where the field of the
fragment can be included at the set at all; where it cannot, the set may select data of a narrower
type under the same key (`SelectionSet.exists_not_conforming`).
-/

namespace ResponseShape

/-- The sets that two sets lead to along visible fields of the same response key and type. -/
inductive SelectionSet.LeadAlong (schema : Schema) (entities : EntityTable)
    (set part : SelectionSet) : SelectionSet → SelectionSet → Prop where
  | start : LeadAlong schema entities set part set part
  | field {outer outerPart inner innerPart : SelectionSet}
      {visible partVisible : VisibleSelections} {field partField : Field}
      (lead : LeadAlong schema entities set part outer outerPart)
      (run : outer.visible schema entities .all = .ok visible)
      (partRun : outerPart.visible schema entities .all = .ok partVisible)
      (mem : field ∈ visible.fields) (partMem : partField ∈ partVisible.fields)
      (sameKey : field.responseKey = partField.responseKey)
      (sameType : field.summary.type.innerName = partField.summary.type.innerName)
      (isInner : field.selectionSet = some inner)
      (isInnerPart : partField.selectionSet = some innerPart) :
      LeadAlong schema entities set part inner innerPart

/-- How a set and one of a fragment stand to each other, when the fragment is spread at a place: the
same steps lead to both, and each scope of the one is within that of the other. -/
structure SelectionSet.Follows (project : Project) (root partRoot : RootField) (place : Place)
    (set part : SelectionSet) : Prop where
  placed : set.IsPlacedIn project root
  partPlaced : part.IsPlacedIn project partRoot
  location : set.place.entity.location
    = place.entity.location.joined part.place.entity.location.steps
  scopes : ∃ rest, set.place.scopes = place.scopes ++ rest
    ∧ List.Forall₂ (fun scope inside => scope.isWithin inside = true) (place.scope :: rest)
      part.place.scopes

section Fragments

variable {project : Project} {workspace : Workspace} {definition : DefinitionId} {type : Name}
  {selections : List Selection} {root : RootField} {occurrences : List Occurrence}
  {shape : FragmentShape} {fragment : Fragment} {site : Occurrence} {spread : Spread}
  {place : Place} {set part inner innerPart : SelectionSet} {field partField : Field}

theorem SelectionSet.Follows.scope_isWithin
    (follows : set.Follows project root shape.root place part) :
    set.place.scope.isWithin part.place.scope = true := by
  rcases follows.scopes with ⟨rest, scopes, paired⟩
  have isLast : (place.scope :: rest).getLast? = some set.place.scope := by
    have last := congrArg List.getLast? scopes
    rw [Place.scopes, Place.scopes, List.append_assoc, List.singleton_append,
      List.getLast?_append_cons] at last
    simpa using last.symm
  rcases List.getLast?_eq_some_iff.mp isLast with ⟨before, split⟩
  rw [split, Place.scopes] at paired
  exact (forall₂_append_singleton_iff.mp paired).2

/-- What the set of a fragment is within is mounted around the set that follows it. -/
theorem SelectionSet.Follows.exists_around
    (follows : set.Follows project root shape.root place part)
    (mounts : workspace.Mounts project occurrences) (siteMem : site ∈ occurrences)
    (within : place.IsWithin site.place) (spreadMem : spread ∈ site.selections.spreads)
    (isShape : workspace.fragment? spread.name = some shape) {inside : Occurrence}
    (insideMem : inside ∈ shape.occurrences) (isAround : part.place.IsWithin inside.place) :
    ∃ outside ∈ occurrences, set.place.IsWithin outside.place
      ∧ outside.selections = inside.selections := by
  rcases follows.scopes with ⟨rest, scopes, paired⟩
  have reachable := follows.placed.reachable
  rw [scopes, Place.scopes, List.append_assoc, List.forall_mem_append, List.singleton_append]
    at reachable
  have further := Scope.Reachable.isWithin_trans_all reachable.2 follows.partPlaced.reachable paired
    (Place.isWithin_iff.mp isAround).2
  rw [inside.place.scopes_eq_cons] at further
  rcases further with _ | ⟨inRoot, inRest⟩
  rcases mounts site siteMem spread spreadMem with ⟨other, isOther, mounted⟩
  rcases Option.some.inj (isShape.symm.trans isOther) with rfl
  rcases mounted inside insideMem place.scope (reachable.2 _ List.mem_cons_self) within.scope
    inRoot with ⟨outside, outsideMem, scope, isMounted, inScope⟩
  refine ⟨outside, outsideMem, Place.isWithin_iff.mpr ⟨?_, ?_⟩, isMounted.selections⟩
  · rw [isMounted.location, follows.location, within.location, isAround.location]
  · rw [isMounted.scopes, scopes, Place.scopes, List.append_assoc, List.singleton_append]
    exact List.rel_append (Place.isEnclosedLike_iff.mp within.enclosing) (.cons inScope inRest)

/-- Sets on the objects of fields of one key and type follow each other. -/
theorem SelectionSet.Follows.goesOn
    (follows : set.Follows project root shape.root place part)
    (sameKey : field.responseKey = partField.responseKey)
    (sameType : field.summary.type.innerName = partField.summary.type.innerName)
    (isInner : set.IsInner project.schema root field inner)
    (isInnerPart : part.IsInner project.schema shape.root partField innerPart) :
    inner.Follows project root shape.root place innerPart := by
  have sameScope : inner.place.scope = innerPart.place.scope := by
    have isScope := isInner.scope
    rw [sameType, isInnerPart.scope] at isScope
    exact (Except.ok.inj isScope).symm
  refine ⟨follows.placed.of_isInner isInner, follows.partPlaced.of_isInner isInnerPart, ?_, ?_⟩
  · rw [isInner.location, isInnerPart.location, follows.location, sameKey, sameType]
    simp [Location.child, Location.joined]
  · rcases follows.scopes with ⟨rest, scopes, paired⟩
    refine ⟨rest ++ [inner.place.scope], ?_, ?_⟩
    · rw [Place.scopes, isInner.enclosing, scopes, List.append_assoc]
    · rw [Place.scopes, isInnerPart.enclosing, ← List.cons_append, ← sameScope]
      exact forall₂_append_singleton_iff.mpr
        ⟨paired, (Scope.Reachable.forType isInner.scope).isWithin_self⟩

/-- A set within the place of a spread follows the root of the fragment, if it knows the type of the
fragment. -/
theorem SelectionSet.IsPlacedIn.follows_root (placed : set.IsPlacedIn project root)
    (depiction : shape.root.IsDepiction project definition fragment.typeCondition
      fragment.selections)
    (knows : set.place.scope.knowsType fragment.typeCondition = true) :
    set.Follows project root shape.root set.place shape.root.selectionSet := by
  rcases Scope.forType_eq_ok depiction.scope with ⟨supertypes, -, isScope⟩
  have isRoot := (SelectionSet.OfferedBy.written
    (SelectionTree.self_mem_writtenSets shape.root.place shape.root.selections)).isPlacedIn
      depiction
  refine ⟨placed, isRoot, ?_, [], (List.append_nil _).symm, ?_⟩
  · simp [RootField.selectionSet, depiction.location, Location.root, Location.joined]
  · rw [RootField.selectionSet, Place.scopes, depiction.enclosing, List.nil_append]
    refine .cons ?_ .nil
    rw [isScope, Scope.isWithin, List.all_cons, List.all_nil, Bool.and_true]
    exact Scope.implies_iff.mpr ⟨by simpa [Narrowing.onType, Scope.knowsType] using knows,
      by simp [Narrowing.onType], by simp [Narrowing.onType]⟩

/-- Sets that a set within a spread and the fragment's root lead to follow each other. -/
theorem SelectionSet.LeadAlong.follows {entries : List Selection}
    (lead : LeadAlong project.schema workspace.entities set shape.root.selectionSet inner part)
    (sound : workspace.IsSound project)
    (depiction : root.IsDepiction project definition type selections)
    {partDefinition : DefinitionId}
    (partDepiction : shape.root.IsDepiction project partDefinition fragment.typeCondition entries)
    (start : set.Follows project root shape.root set.place shape.root.selectionSet) :
    inner.Follows project root shape.root set.place part := by
  induction lead with
  | start => exact start
  | field _ run partRun mem partMem sameKey sameType isInner isInnerPart follows =>
      exact follows.goesOn sameKey sameType
        (VisibleSelections.isInner_of_mem sound depiction follows.placed.written run mem isInner)
        (VisibleSelections.isInner_of_mem sound partDepiction follows.partPlaced.written partRun
          partMem isInnerPart)

/-- A set that shows a spread conforms to the fragment, if it knows the type of the fragment: it
shows all that the fragment's root shows, and so do the sets below it along fields of one response
key and type. The types agree for each field of the fragment that can be included there. -/
theorem SelectionSet.OfferedBy.conforms {visible : VisibleSelections}
    (reachable : Workspace.Reachable project workspace) (hasRoot : workspace.HasRoot root)
    (offered : set.OfferedBy project root)
    (run : set.visible project.schema workspace.entities .all = .ok visible)
    (mem : spread ∈ visible.spreads)
    (isFragment : project.compilation.spreadFragment? spread.name = some fragment)
    (knows : set.place.scope.knowsType fragment.typeCondition = true) :
    ∃ shape, workspace.fragment? spread.name = some shape
      ∧ ∀ inner part innerVisible partVisible,
        LeadAlong project.schema workspace.entities set shape.root.selectionSet inner part →
        inner.visible project.schema workspace.entities .all = .ok innerVisible →
        part.visible project.schema workspace.entities .all = .ok partVisible →
          innerVisible.Contains inner.place.scope.knownConditions partVisible
            ∧ ∀ field ∈ innerVisible.fields, ∀ partField ∈ partVisible.fields,
              field.responseKey = partField.responseKey → ∀ assignment,
                inner.place.scope.knownConditions.all (·.holds assignment) = true →
                partField.holds assignment = true →
                  field.summary.type = partField.summary.type := by
  have sound := Workspace.isSound_of_reachable reachable
  rcases sound.hasBuilt hasRoot with ⟨definition, type, selections, occurrences, hasBuilt⟩
  have depiction := hasBuilt.built.depiction
  have placed := offered.isPlacedIn depiction
  have mounts := sound.mounts hasBuilt.built
  have selects := (VisibleSelections.mem_spreads_iff run).mp ⟨spread, mem, rfl⟩
  rcases (placed.exists_occurrence sound hasBuilt).2 spread.name selects with
    ⟨site, siteMem, within, source, sourceMem, isNamed⟩
  rcases mounts site siteMem source sourceMem with ⟨shape, isShape, -⟩
  rcases sound.isBuilt_of_fragment? isShape with ⟨before, after, split, sameName, -⟩
  rcases sound.hasBuilt_of_fragment (split ▸ List.mem_append_right _ List.mem_cons_self) with
    ⟨known, isKnown, partBuilt⟩
  rw [sameName, isNamed, isFragment, Option.some.injEq] at isKnown
  subst isKnown
  have partDepiction := partBuilt.built.depiction
  refine ⟨shape, isNamed ▸ isShape, ?_⟩
  intro inner part innerVisible partVisible lead innerRun partRun
  have follows := lead.follows sound depiction partDepiction
    (placed.follows_root partDepiction knows)
  have selectsAll := follows.placed.selectsAllOf follows.partPlaced sound hasBuilt partBuilt
    follows.scope_isWithin
    fun inside insideMem isAround => follows.exists_around mounts siteMem within sourceMem isShape
      insideMem isAround
  have orderly := (follows.placed.written.isDepiction depiction).isOrderly
  have partOrderly := (follows.partPlaced.written.isDepiction partDepiction).isOrderly
  refine ⟨selectsAll.contains orderly partOrderly innerRun partRun, ?_⟩
  intro field fieldMem partField partMem sameKey assignment knownHolds holds
  exact selectsAll.type_eq orderly partOrderly innerRun partRun knownHolds fieldMem partMem sameKey
    holds

end Fragments

/-- The hero of the sample conforms to the fragment on it. -/
theorem SelectionSet.conforms_heroes : ∃ (shape : FragmentShape) (inner part : SelectionSet)
    (innerVisible partVisible : VisibleSelections),
    Heroes.workspace.fragment? "F" = some shape
    ∧ inner.visible Heroes.project.schema Heroes.workspace.entities .all = .ok innerVisible
    ∧ part.visible Heroes.project.schema Heroes.workspace.entities .all = .ok partVisible
    ∧ partVisible.fields.map (·.responseKey) = ["id"]
    ∧ innerVisible.Contains inner.place.scope.knownConditions partVisible := by
  have computes : (Heroes.workspace.operations.any fun operation =>
      (operation.2.root.selectionSet.visible Heroes.project.schema Heroes.workspace.entities
        .all).toOption.any fun visible => visible.spreads.any fun spread => spread.name == "F"
          && (Heroes.project.compilation.spreadFragment? spread.name).any fun fragment =>
            operation.2.root.selectionSet.place.scope.knowsType fragment.typeCondition
            && (Heroes.workspace.fragment? spread.name).any fun shape =>
              (shape.root.selectionSet.visible Heroes.project.schema Heroes.workspace.entities
                .all).toOption.any fun ofFragment =>
                  visible.fields.any fun field => ofFragment.fields.any fun partField =>
                    field.responseKey == partField.responseKey
                    && field.summary.type.innerName == partField.summary.type.innerName
                    && field.selectionSet.any fun inner => partField.selectionSet.any fun part =>
                      (inner.visible Heroes.project.schema Heroes.workspace.entities
                        .all).toOption.any fun _ =>
                          (part.visible Heroes.project.schema Heroes.workspace.entities
                            .all).toOption.any fun partVisible =>
                              partVisible.fields.map (·.responseKey) == ["id"]) = true := by
    rewrite [Heroes.workspace_eq, Heroes.project_eq]
    decide +kernel
  simp only [List.any_eq_true, Option.any_eq_true, Bool.and_eq_true, beq_iff_eq] at computes
  rcases computes with ⟨⟨key, operation⟩, isBuilt, visible, isVisible, spread, spreadMem, isNamed,
    fragment, isFragment, knows, shape, isShape, ofFragment, isOfFragment, field, mem, partField,
    partMem, ⟨sameKey, sameType⟩, inner, isInner, part, isPart, innerVisible, isInnerVisible,
    partVisible, isPartVisible, keys⟩
  have run := Build.eq_ok_of_toOption isVisible
  have offered : operation.root.selectionSet.OfferedBy Heroes.project operation.root :=
    .written (SelectionTree.self_mem_writtenSets operation.root.place operation.root.selections)
  rcases OfferedBy.conforms Heroes.reachable (Or.inl ⟨key, operation, isBuilt, rfl⟩) offered run
    spreadMem isFragment knows with ⟨known, isKnown, conforms⟩
  rcases Option.some.inj (isShape.symm.trans isKnown) with rfl
  have lead := LeadAlong.field .start run (Build.eq_ok_of_toOption isOfFragment) mem partMem sameKey
    sameType isInner isPart
  have innerRun := Build.eq_ok_of_toOption isInnerVisible
  have partRun := Build.eq_ok_of_toOption isPartVisible
  rw [isNamed] at isShape
  exact ⟨shape, inner, part, innerVisible, partVisible, isShape, innerRun, partRun, keys,
    (conforms inner part innerVisible partVisible lead innerRun partRun).1⟩

/-- A sample whose fragment selects a field where it cannot be included, under the key of a field
that is narrower there. -/
def Pets : Sample where
  schemaText :=
    "type Query \x7b pet: Pet \x7d interface Being \x7b id: ID name: String \x7d "
      ++ "type Person implements Being \x7b id: ID name: String \x7d "
      ++ "interface Pet \x7b owner: Being \x7d type Dog implements Pet \x7b owner: Person \x7d"
  sources :=
    [⟨"d.graphql",
      "query Q($a: Boolean!) \x7b pet \x7b ... on Dog @skip(if: $a) \x7b owner \x7b name \x7d "
        ++ "...F \x7d \x7d \x7d fragment F on Pet \x7b owner @include(if: $a) \x7b id \x7d \x7d"⟩]
  isValid := by decide +kernel

/-- A set below one that shows a spread need not show what the fragment selects under the same key,
if the types differ. -/
theorem SelectionSet.exists_not_conforming : ∃ (schemaText : String) (sources : List SourceText)
    (project : Project) (workspace : Workspace) (root : RootField) (set : SelectionSet)
    (visible : VisibleSelections) (spread : Spread) (fragment : Fragment) (shape : FragmentShape)
    (ofFragment : VisibleSelections) (field partField : Field) (inner part : SelectionSet)
    (innerVisible partVisible : VisibleSelections) (selected : Field),
    Compilation.validated? schemaText sources = some project.compilation
    ∧ Workspace.Reachable project workspace ∧ workspace.HasRoot root ∧ set.OfferedBy project root
    ∧ set.visible project.schema workspace.entities .all = .ok visible
    ∧ spread ∈ visible.spreads
    ∧ project.compilation.spreadFragment? spread.name = some fragment
    ∧ set.place.scope.knowsType fragment.typeCondition = true
    ∧ workspace.fragment? spread.name = some shape
    ∧ shape.root.selectionSet.visible project.schema workspace.entities .all = .ok ofFragment
    ∧ field ∈ visible.fields ∧ partField ∈ ofFragment.fields
    ∧ field.responseKey = partField.responseKey
    ∧ field.selectionSet = some inner ∧ partField.selectionSet = some part
    ∧ inner.visible project.schema workspace.entities .all = .ok innerVisible
    ∧ part.visible project.schema workspace.entities .all = .ok partVisible
    ∧ selected ∈ partVisible.fields ∧ selected.summary.conditions = none
    ∧ ∀ shown ∈ innerVisible.fields, shown.responseKey ≠ selected.responseKey := by
  have computes : (Pets.workspace.operations.any fun operation =>
      operation.2.root.writtenSets.any fun member =>
        ((SelectionSet.mk member.1 (some member.2)).visible Pets.project.schema
          Pets.workspace.entities .all).toOption.any fun visible =>
            visible.spreads.any fun spread =>
              (Pets.project.compilation.spreadFragment? spread.name).any fun fragment =>
                member.1.scope.knowsType fragment.typeCondition
                && (Pets.workspace.fragment? spread.name).any fun shape =>
                  (shape.root.selectionSet.visible Pets.project.schema Pets.workspace.entities
                    .all).toOption.any fun ofFragment =>
                      visible.fields.any fun field => ofFragment.fields.any fun partField =>
                        field.responseKey == partField.responseKey
                        && field.selectionSet.any fun inner =>
                          partField.selectionSet.any fun part =>
                            (inner.visible Pets.project.schema Pets.workspace.entities
                              .all).toOption.any fun innerVisible =>
                                (part.visible Pets.project.schema Pets.workspace.entities
                                  .all).toOption.any fun partVisible =>
                                    partVisible.fields.any fun selected =>
                                      selected.summary.conditions.isNone
                                      && innerVisible.fields.all fun shown =>
                                        shown.responseKey != selected.responseKey) = true := by
    rewrite [Pets.workspace_eq, Pets.project_eq]
    decide +kernel
  simp only [List.any_eq_true, Option.any_eq_true, Bool.and_eq_true, beq_iff_eq,
    Option.isNone_iff_eq_none, List.all_eq_true, bne_iff_ne] at computes
  rcases computes with ⟨⟨key, operation⟩, isBuilt, member, memberMem, visible, isVisible, spread,
    spreadMem, fragment, isFragment, knows, shape, isShape, ofFragment, isOfFragment, field, mem,
    partField, partMem, sameKey, inner, isInner, part, isPart, innerVisible, isInnerVisible,
    partVisible, isPartVisible, selected, selectedMem, always, missing⟩
  exact ⟨_, _, Pets.project, Pets.workspace, operation.root, _, visible, spread, fragment, shape,
    ofFragment, field, partField, inner, part, innerVisible, partVisible, selected,
    Pets.validated?_eq_some, Pets.reachable, Or.inl ⟨key, operation, isBuilt, rfl⟩,
    .written memberMem, Build.eq_ok_of_toOption isVisible, spreadMem, isFragment, knows, isShape,
    Build.eq_ok_of_toOption isOfFragment, mem, partMem, sameKey, isInner, isPart,
    Build.eq_ok_of_toOption isInnerVisible, Build.eq_ok_of_toOption isPartVisible, selectedMem,
    always, missing⟩

end ResponseShape
