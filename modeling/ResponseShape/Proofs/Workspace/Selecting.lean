import ResponseShape.Proofs.Definition.Distinctness
import ResponseShape.Proofs.Definition.SelectsFor
import ResponseShape.Proofs.Merging.Additions
import ResponseShape.Proofs.Workspace.Mounting

/-!
# Occurrences select what is written

For whoever stands within given scopes, the occurrences of a definition select the response keys
that its selections do, those in spread fragments included (`Workspace.IsSound.selectsFor_iff`).
From an occurrence back to the selections the argument goes up through the places that it is written
below; from the selections to an occurrence it goes down level by level. Either way what is spread
goes through the occurrences of the fragment, so the induction is along builds.
-/

namespace ResponseShape

/-- Whether an occurrence selects a response key for whoever stands within the given scopes. -/
structure Occurrence.Selects (key : Name) (assignment : Assignment) (scopes : List Scope)
    (steps : List FieldStep) (occurrence : Occurrence) : Prop where
  steps : occurrence.place.entity.location.steps = steps
  scopes : List.Forall₂ (fun scope inside => scope.isWithin inside = true) scopes
    occurrence.place.scopes
  field : ∃ field ∈ occurrence.selections.fields, field.responseKey = key
    ∧ field.holds assignment = true

/-- Whoever an occurrence selects for stands within the scope at the root of its definition. -/
theorem Occurrence.Selects.isWithin_rootScope {key : Name} {assignment : Assignment}
    {scope : Scope} {rest : List Scope} {steps : List FieldStep} {occurrence : Occurrence}
    (selects : occurrence.Selects key assignment (scope :: rest) steps) :
    scope.isWithin occurrence.place.rootScope = true := by
  have scopes := selects.scopes
  rw [occurrence.place.scopes_eq_cons] at scopes
  cases scopes with
  | cons isInside _ => exact isInside

/-- What is selected inside a fragment is selected where the fragment is mounted. -/
theorem Occurrence.Selects.mounted {key : Name} {assignment : Assignment} {before rest : List Scope}
    {scope result : Scope} {steps : List FieldStep} {site : Place} {inside outside : Occurrence}
    (selects : inside.Selects key assignment (scope :: rest) steps)
    (mounted : inside.IsMounted site result outside)
    (around : List.Forall₂ (fun scope inside => scope.isWithin inside = true) before site.enclosing)
    (within : scope.isWithin result = true) :
    outside.Selects key assignment (before ++ scope :: rest)
      (site.entity.location.steps ++ steps) := by
  have scopes := selects.scopes
  rw [inside.place.scopes_eq_cons] at scopes
  refine ⟨?_, ?_, ?_⟩
  · rw [mounted.location, ← selects.steps]
    rfl
  · rw [mounted.scopes]
    cases scopes with
    | cons _ below => exact List.rel_append around (.cons within below)
  · rw [mounted.selections]
    exact selects.field

/-- Whether what selections select at a place, for the last of the given scopes, is selected by the
selections of the whole definition, which is on a type. -/
def Place.LeadsFrom (compilation : Compilation) (key : Name) (assignment : Assignment)
    (scopes : List Scope) (type : Name) (rootSelections : List Selection) (place : Place)
    (selections : List Selection) : Prop :=
  ∀ before scope rest steps, scopes = before ++ scope :: rest →
    List.Forall₂ (fun scope inside => scope.isWithin inside = true) before place.enclosing →
    scope.isWithin place.scope = true →
    SelectsFor compilation key assignment place.scope.tests (scope :: rest) steps selections →
      (∃ first ∈ scopes.head?, first.implies (.onType type) = true)
        ∧ SelectsFor compilation key assignment ∅ scopes (place.entity.location.steps ++ steps)
          rootSelections

section Scopes

variable {schema : Schema} {scope narrower viewer : Scope} {narrowing : Narrowing} {type : Name}

theorem Scope.tests_forType (isRoot : Scope.forType schema type = .ok scope) : scope.tests = ∅ := by
  rcases Scope.forType_eq_ok isRoot with ⟨supertypes, -, rfl⟩
  ext test
  simp [Scope.tests]

theorem Scope.isWithin_forType (isRoot : Scope.forType schema type = .ok scope) :
    viewer.isWithin scope = true ↔ viewer.implies (.onType type) = true := by
  rcases Scope.forType_eq_ok isRoot with ⟨supertypes, -, rfl⟩
  simp [Scope.isWithin]

theorem Scope.tests_narrow (narrowed : scope.narrow schema narrowing = .ok narrower) :
    narrower.tests = scope.tests ∪ narrowing.tests := by
  rw [← Scope.tests_union_unknownPart]
  rcases Scope.narrow_cases narrowed with
    ⟨isNone, rfl⟩ | ⟨effective, supertypes, known, isEffective, -, conditions, rfl⟩
  · symm
    apply Set.union_eq_self_of_subset_right
    apply Scope.tests_subset_of_implies
    exact Scope.implies_unknownPart (Scope.effective?_eq_none_iff.mp isNone)
  · ext test
    rw [← (Scope.effective?_eq_some isEffective).1]
    exact Scope.exists_test_conditionsWith conditions

/-- What lies within a narrower scope lies within the wider one and implies the narrowing. -/
theorem Scope.of_isWithin_narrow (reachable : Scope.Reachable schema scope)
    (viewerReachable : Scope.Reachable schema viewer)
    (narrowed : scope.narrow schema narrowing = .ok narrower)
    (within : viewer.isWithin narrower = true) :
    viewer.isWithin scope = true ∧ viewer.implies narrowing = true := by
  have ofNarrower := Scope.Reachable.narrow reachable narrowed
  constructor
  · exact ofNarrower.isWithin_trans viewerReachable within
      (Scope.isWithin_of_extends ofNarrower (Scope.path_prefix_of_narrow narrowed))
  · exact (ofNarrower.isFullyKnownIn viewerReachable within).implies
      (Scope.implies_of_narrow reachable narrowed)

end Scopes

section Written

variable {project : Project} {key : Name} {assignment : Assignment} {scopes : List Scope}
  {type : Name} {definition : DefinitionId} {rootSelections selections : List Selection}
  {root : RootField} {place child site : Place} {levels : Nat} {gathered : Gathered}
  (reachable : ∀ scope ∈ scopes, Scope.Reachable project.schema scope)
  (known : ∀ scope ∈ scopes.getLast?, scope.knownConditions.all (·.holds assignment) = true)

include reachable known

/-- What is gathered at a place selects what the selections made there do. -/
theorem Place.selectsFor_iff {before rest : List Scope} {scope : Scope} {steps : List FieldStep}
    (placeReachable : Scope.Reachable project.schema place.scope)
    (split : scopes = before ++ scope :: rest) (within : scope.isWithin place.scope = true)
    (run : Gathered.gatherAll project.compilation project.config.recursionLimit place.scope levels
      .empty selections = .ok gathered) :
    SelectsFor project.compilation key assignment place.scope.tests (scope :: rest) steps selections
      ↔ gathered.Selects project.compilation key assignment place.scope scope rest steps := by
  subst split
  apply Gathered.selectsFor_gatherAll placeReachable (reachable scope (by simp)) within ?_ run
  rintro rfl
  exact Scope.holds_known_of_isWithin placeReachable within (known scope (by simp))

/-- What is gathered for a field leads to where the field leads from. -/
theorem Place.LeadsFrom.of_field {field : GatheredField}
    (placeReachable : Scope.Reachable project.schema place.scope)
    (leads : place.LeadsFrom project.compilation key assignment scopes type rootSelections
      selections)
    (run : Gathered.gatherAll project.compilation project.config.recursionLimit place.scope levels
      .empty selections = .ok gathered)
    (mem : field ∈ gathered.fields)
    (isComposite : project.schema.isComposite field.field.type.innerName = .ok true)
    (isChild : place.IsChild project.schema field.field.type.innerName child)
    (location : child.entity.location
      = place.entity.location.child field.responseKey field.field.type.innerName) :
    child.LeadsFrom project.compilation key assignment scopes type rootSelections
      field.selections := by
  intro before scope rest steps split enclosing within selects
  rw [Scope.tests_forType isChild.scope] at selects
  rw [isChild.enclosing, Place.scopes] at enclosing
  rcases exists_split_of_forall₂ enclosing with ⟨outer, _, rfl, outerWithin, lastWithin⟩
  rcases lastWithin with _ | ⟨viewerWithin, _ | _⟩
  rename_i viewer
  rw [List.append_assoc, List.singleton_append] at split
  have nested : field.Selects project.compilation key assignment (viewer :: scope :: rest)
      (⟨field.responseKey, field.field.type.innerName⟩ :: steps) :=
    .nested rfl rfl isComposite ((Scope.isWithin_forType isChild.scope).mp within) selects
  have below := (Place.selectsFor_iff reachable known placeReachable split viewerWithin run).mpr
    (Or.inl ⟨field, mem, nested⟩)
  have further := leads _ _ _ _ split outerWithin viewerWithin below
  rw [location]
  simpa [Location.child, Location.joined] using further

/-- What is gathered behind a branch leads to where the place that branches leads from. -/
theorem Place.LeadsFrom.of_branch {behind : Narrowing × List Selection}
    (placeReachable : Scope.Reachable project.schema place.scope)
    (leads : place.LeadsFrom project.compilation key assignment scopes type rootSelections
      selections)
    (run : Gathered.gatherAll project.compilation project.config.recursionLimit place.scope levels
      .empty selections = .ok gathered)
    (mem : behind ∈ gathered.branches)
    (narrowed : place.narrowed project.schema behind.1 = .ok child) :
    child.LeadsFrom project.compilation key assignment scopes type rootSelections behind.2 := by
  intro before scope rest steps split enclosing within selects
  rcases Place.narrowed_eq_ok narrowed with ⟨inScope, sameEntity, sameEnclosing⟩
  have scopeReachable := reachable scope (by simp [split])
  rcases Scope.of_isWithin_narrow placeReachable scopeReachable inScope within with
    ⟨outerWithin, implied⟩
  rw [Scope.tests_narrow inScope] at selects
  have here := (Place.selectsFor_iff reachable known placeReachable split outerWithin run).mpr
    (Or.inr (Or.inl ⟨behind, mem, implied, selects⟩))
  rw [sameEnclosing] at enclosing
  rw [sameEntity]
  exact leads before scope rest steps split enclosing outerWithin here

variable (key) in
/-- Whatever is written in a definition leads back to the selections of the definition. -/
theorem RootField.IsDepiction.forall_leadsFrom
    (depiction : root.IsDepiction project definition type rootSelections) :
    ∀ member ∈ root.writtenSets, ∃ levels selections,
      Depicts project levels member.1 selections member.2
        ∧ Scope.Reachable project.schema member.1.scope
        ∧ member.1.LeadsFrom project.compilation key assignment scopes type rootSelections
          selections := by
  rcases depiction.depicts with ⟨levels, depicts⟩
  have all := depicts.forall_writtenSets (motive := fun place selections tree =>
      tree.IsLocated place ∧ Scope.Reachable project.schema place.scope
        ∧ place.LeadsFrom project.compilation key assignment scopes type rootSelections
          selections) ?_ ?_ ?_
  · intro member mem
    rcases all member mem with ⟨levels, selections, depicts, -, rest⟩
    exact ⟨levels, selections, depicts, rest⟩
  · rintro levels place selections gathered fields branches spreads known summary child tree
      ⟨located, placeReachable, leads⟩ parts knownMem fieldMem ofField
    rcases located.of_field fieldMem with ⟨location, childLocated⟩
    cases ofField with
    | entity isComposite isChild _ =>
        exact ⟨childLocated, .forType isChild.scope,
          leads.of_field reachable ‹_› placeReachable parts.gathers knownMem isComposite isChild
            location⟩
  · rintro levels place selections gathered fields branches spreads behind key child tree
      ⟨located, placeReachable, leads⟩ parts behindMem branchMem ofBranch
    cases ofBranch with
    | kept narrowed _ _ =>
        exact ⟨located.of_branch branchMem,
          .narrow placeReachable (Place.narrowed_eq_ok narrowed).1,
          leads.of_branch reachable ‹_› placeReachable parts.gathers behindMem narrowed⟩
  · refine ⟨depiction.located, .forType depiction.scope, ?_⟩
    intro before scope rest steps split enclosing within selects
    rw [depiction.enclosing] at enclosing
    cases enclosing
    rw [Scope.tests_forType depiction.scope] at selects
    subst split
    refine ⟨⟨scope, rfl, (Scope.isWithin_forType depiction.scope).mp within⟩, ?_⟩
    rw [depiction.location]
    exact selects

end Written

/-- Whether the selections of a definition, which is on a type, select all that an occurrence
does. -/
def Occurrence.IsSelected (project : Project) (key : Name) (assignment : Assignment) (type : Name)
    (selections : List Selection) (occurrence : Occurrence) : Prop :=
  ∀ scopes steps, (∀ scope ∈ scopes, Scope.Reachable project.schema scope) →
    (∀ scope ∈ scopes.getLast?, scope.knownConditions.all (·.holds assignment) = true) →
    occurrence.Selects key assignment scopes steps →
      (∃ first ∈ scopes.head?, first.implies (.onType type) = true)
        ∧ SelectsFor project.compilation key assignment ∅ scopes steps selections

section Selected

variable {project : Project} {key : Name} {assignment : Assignment} {type : Name}
  {definition : DefinitionId} {selections : List Selection} {root : RootField}
  {member : Place × SelectionTree} (depiction : root.IsDepiction project definition type selections)
  (mem : member ∈ root.writtenSets)

include depiction mem

theorem RootField.IsDepiction.isSelected_written :
    (Occurrence.mk member.1 member.2 none).IsSelected project key assignment type selections := by
  intro scopes steps reachable known selects
  rcases depiction.forall_leadsFrom key reachable known member mem with
    ⟨levels, here, depicts, placeReachable, leads⟩
  rcases exists_split_of_forall₂ selects.scopes with ⟨before, _, split, outerWithin, lastWithin⟩
  rcases lastWithin with _ | ⟨within, _ | _⟩
  rename_i scope
  cases levels with
  | zero => cases depicts
  | succ levels =>
      rcases tree : member.2 with ⟨fields, branches, spreads⟩
      rw [tree] at depicts selects
      rcases depicts with ⟨gathered, parts⟩
      rcases selects.field with ⟨field, fieldMem, isKey, holds⟩
      rcases List.mem_map.mp fieldMem with ⟨treeField, treeFieldMem, rfl⟩
      rcases exists_mem_of_forall₂_right parts.fields treeFieldMem with
        ⟨gatheredField, gatheredMem, ofField⟩
      have ofGathered : gatheredField.Selects project.compilation key assignment [scope] [] := by
        cases ofField <;> exact .here isKey holds
      have selected := (Place.selectsFor_iff reachable known placeReachable split within
        parts.gathers).mpr (Or.inl ⟨gatheredField, gatheredMem, ofGathered⟩)
      have further := leads before scope [] [] split outerWithin within selected
      rw [← selects.steps]
      simpa using further

/-- What occurs in a spread fragment is selected where it is spread, if it is in the fragment. -/
theorem RootField.IsDepiction.isSelected_spread {spread : Spread} {inside outside : Occurrence}
    {fragment : Fragment} {path : List Narrowing} (spreadMem : spread ∈ member.2.spreads)
    (isFragment : project.compilation.spreadFragment? spread.name = some fragment)
    (rooted : inside.place.rootScope.path = .onType fragment.typeCondition :: path)
    (placement : inside.IsPlacement project.schema spread fragment.typeCondition outside)
    (selected : inside.IsSelected project key assignment fragment.typeCondition
      fragment.selections) :
    outside.IsSelected project key assignment type selections := by
  intro scopes steps reachable known selects
  rcases depiction.forall_leadsFrom key reachable known member mem with
    ⟨levels, here, depicts, placeReachable, leads⟩
  rcases placement.place with ⟨narrowed, spreads, -⟩
  have mounted := placement.isMounted spreads
  have isSite := depiction.place_of_spread mem spreadMem
  rw [isSite] at spreads mounted
  have ofScopes := selects.scopes
  rw [mounted.scopes] at ofScopes
  rcases exists_split_of_forall₂ ofScopes with ⟨before, _, split, outerWithin, innerWithin⟩
  rcases innerWithin with _ | ⟨viewerWithin, restWithin⟩
  rename_i viewer rest
  have viewerReachable := reachable viewer (by simp [split])
  rcases Scope.prefix_spreadInto? placeReachable spreads with ⟨narrowedReachable, further⟩
  have withinSite := narrowedReachable.isWithin_trans viewerReachable viewerWithin
    (Scope.isWithin_of_extends narrowedReachable further)
  have withinRoot := narrowedReachable.isWithin_trans viewerReachable viewerWithin
    (Scope.spreadInto?_isWithin placeReachable rooted spreads)
  have insideSelects : inside.Selects key assignment (viewer :: rest)
      inside.place.entity.location.steps := by
    refine ⟨rfl, ?_, ?_⟩
    · rw [inside.place.scopes_eq_cons]
      exact .cons withinRoot restWithin
    · rw [← placement.selections]
      exact selects.field
  have isEnd : scopes.getLast? = (viewer :: rest).getLast? := by
    rw [split, List.getLast?_append_of_ne_nil _ (List.cons_ne_nil viewer rest)]
  rcases selected (viewer :: rest) _ (fun scope mem => reachable scope (by simp [split, mem]))
    (isEnd ▸ known) insideSelects with ⟨⟨first, isFirst, onType⟩, inFragment⟩
  rcases Option.some.inj isFirst with rfl
  cases levels with
  | zero => cases depicts
  | succ levels =>
      rcases tree : member.2 with ⟨fields, branches, treeSpreads⟩
      rw [tree] at depicts spreadMem
      rcases depicts with ⟨gathered, parts⟩
      rw [SelectionTree.spreads, parts.spreads] at spreadMem
      rcases List.mem_map.mp spreadMem with ⟨name, nameMem, rfl⟩
      have atSite := (Place.selectsFor_iff reachable known placeReachable split withinSite
        parts.gathers).mpr
          (Or.inr (Or.inr ⟨name, nameMem, fragment, isFragment, onType, inFragment⟩))
      have further := leads before viewer rest _ split outerWithin withinSite atSite
      rw [← selects.steps, mounted.location]
      exact further

end Selected

/-- All that occurs in a definition is selected by its selections, if this is so in the fragments
that it spreads. -/
theorem RootField.IsBuilt.isSelected {project : Project} {shape? : Name → Option FragmentShape}
    {definition : DefinitionId} {type key : Name} {assignment : Assignment}
    {selections : List Selection} {root : RootField} {occurrences : List Occurrence}
    (selected : ∀ name shape, shape? name = some shape →
      shape.name = name ∧ shape.Has project fun _ type selections occurrences =>
        ∀ occurrence ∈ occurrences, occurrence.IsSelected project key assignment type selections)
    (built : root.IsBuilt project shape? definition type selections occurrences) :
    ∀ occurrence ∈ occurrences,
      occurrence.IsSelected project key assignment type selections := by
  intro occurrence mem
  rcases built.occurs.origin occurrence mem with ⟨member, memberMem, origin⟩
  rcases origin with rfl | ⟨spread, spreadMem, shape, fragment, isShape, isFragment, inside,
    insideMem, placement⟩
  · exact built.depiction.isSelected_written memberMem
  · rcases selected _ shape isShape with ⟨isNamed, other, isOther, rooted, insideSelected⟩
    rw [isNamed, isFragment, Option.some.injEq] at isOther
    subst isOther
    rcases rooted inside insideMem with ⟨rest, path⟩
    exact built.depiction.isSelected_spread memberMem spreadMem isFragment path placement
      (insideSelected inside insideMem)

/-- Whether some occurrence selects whatever the selections of a definition, which is on a type,
select. -/
def SelectsAll (project : Project) (key : Name) (assignment : Assignment) (type : Name)
    (selections : List Selection) (occurrences : List Occurrence) : Prop :=
  ∀ scopes steps, (∀ scope ∈ scopes, Scope.Reachable project.schema scope) →
    (∀ scope ∈ scopes.getLast?, scope.knownConditions.all (·.holds assignment) = true) →
    (∃ first ∈ scopes.head?, first.implies (.onType type) = true) →
    SelectsFor project.compilation key assignment ∅ scopes steps selections →
      ∃ occurrence ∈ occurrences, occurrence.Selects key assignment scopes steps

section Found

variable {project : Project} {key : Name} {assignment : Assignment}
  {scopes before rest : List Scope} {scope : Scope} {steps : List FieldStep}
  {selections : List Selection} {tree : SelectionTree} {place : Place} {levels : Nat}
  (reachable : ∀ scope ∈ scopes, Scope.Reachable project.schema scope)
  (known : ∀ scope ∈ scopes.getLast?, scope.knownConditions.all (·.holds assignment) = true)

include reachable known

/-- Selections whose tree is empty select nothing within their place. -/
theorem Depicts.not_selectsFor_of_isEmpty
    (depicts : Depicts project levels place selections tree) (empty : tree.isEmpty = true)
    (placeReachable : Scope.Reachable project.schema place.scope)
    (split : scopes = before ++ scope :: rest) (within : scope.isWithin place.scope = true) :
    ¬ SelectsFor project.compilation key assignment place.scope.tests (scope :: rest) steps
      selections := by
  induction levels generalizing place selections tree with
  | zero => cases depicts
  | succ levels ih =>
      rcases tree with ⟨fields, branches, spreads⟩
      rcases depicts with ⟨gathered, parts⟩
      simp only [SelectionTree.isEmpty, Bool.and_eq_true, List.isEmpty_iff] at empty
      rcases empty with ⟨⟨rfl, rfl⟩, rfl⟩
      intro selects
      rw [Place.selectsFor_iff reachable known placeReachable split within parts.gathers] at selects
      rcases selects with ⟨field, mem, -⟩ | ⟨behind, mem, implied, selects⟩ | ⟨name, mem, -⟩
      · rcases exists_mem_of_forall₂ parts.fields mem with ⟨_, none, -⟩
        cases none
      · rcases parts.exists_branch mem with ⟨outcome, ofBranch, keeps⟩
        cases ofBranch with
        | kept => cases keeps _ rfl
        | dropped narrowed innerDepicts innerEmpty =>
            have inScope := (Place.narrowed_eq_ok narrowed).1
            rw [← Scope.tests_narrow inScope] at selects
            exact ih innerDepicts innerEmpty (.narrow placeReachable inScope)
              (Scope.isWithin_narrow inScope within implied) selects
      · have none := parts.spreads
        rw [eq_comm, List.map_eq_nil_iff] at none
        rw [none] at mem
        cases mem

/-- What is selected in a fragment that is spread at a place is selected in an occurrence that is
mounted there. -/
theorem OccurrencesOf.exists_selects_of_spread {shape? : Name → Option FragmentShape}
    {members : List (Place × SelectionTree)} {occurrences : List Occurrence} {name : Name}
    {fragment : Fragment} (occurs : OccurrencesOf project shape? members occurrences)
    (complete : ∀ name shape, shape? name = some shape →
      shape.name = name ∧ shape.Has project fun _ => SelectsAll project key assignment)
    (written : (place, tree) ∈ members) (spreadMem : place.spread name ∈ tree.spreads)
    (isFragment : project.compilation.spreadFragment? name = some fragment)
    (onType : scope.implies (.onType fragment.typeCondition) = true)
    (placeReachable : Scope.Reachable project.schema place.scope)
    (split : scopes = before ++ scope :: rest)
    (around : List.Forall₂ (fun scope inside => scope.isWithin inside = true) before
      place.enclosing)
    (within : scope.isWithin place.scope = true)
    (selects : SelectsFor project.compilation key assignment ∅ (scope :: rest) steps
      fragment.selections) :
    ∃ occurrence ∈ occurrences,
      occurrence.Selects key assignment scopes (place.entity.location.steps ++ steps) := by
  rcases occurs.spreads _ written _ spreadMem with ⟨shape, other, isShape, isOther, -⟩
  rcases complete _ shape isShape with ⟨isNamed, definition, isDefinition, rooted, ofShape⟩
  rw [isNamed] at isDefinition
  rcases Option.some.inj (isDefinition.symm.trans isFragment) with rfl
  have isEnd : scopes.getLast? = (scope :: rest).getLast? := by
    rw [split, List.getLast?_append_of_ne_nil _ (List.cons_ne_nil scope rest)]
  rcases ofShape (scope :: rest) steps (fun scope mem => reachable scope (by simp [split, mem]))
    (isEnd ▸ known) ⟨scope, rfl, onType⟩ selects with ⟨inside, insideMem, insideSelects⟩
  rcases occurs.mounts_written written spreadMem isShape isFragment insideMem with
    ⟨narrowed, spreads, isMounted⟩
  rcases rooted inside insideMem with ⟨more, path⟩
  have isInside := insideSelects.isWithin_rootScope
  rcases Scope.isWithin_spreadInto? placeReachable path within isInside spreads with
    ⟨result, isResult, withinResult⟩
  rcases isMounted result isResult with ⟨outside, outsideMem, mounted⟩
  exact ⟨outside, outsideMem, split ▸ insideSelects.mounted mounted around withinResult⟩

/-- What the selections made at a place select is selected in an occurrence of what is written
there, or of what is spread there. -/
theorem Depicts.exists_selects {shape? : Name → Option FragmentShape}
    {members : List (Place × SelectionTree)} {occurrences : List Occurrence}
    (complete : ∀ name shape, shape? name = some shape →
      shape.name = name ∧ shape.Has project fun _ => SelectsAll project key assignment)
    (occurs : OccurrencesOf project shape? members occurrences)
    (depicts : Depicts project levels place selections tree) (located : tree.IsLocated place)
    (subset : ∀ member ∈ tree.writtenSets place, member ∈ members)
    (placeReachable : Scope.Reachable project.schema place.scope)
    (split : scopes = before ++ scope :: rest)
    (around : List.Forall₂ (fun scope inside => scope.isWithin inside = true) before
      place.enclosing)
    (within : scope.isWithin place.scope = true)
    (selects : SelectsFor project.compilation key assignment place.scope.tests (scope :: rest)
      steps selections) :
    ∃ occurrence ∈ occurrences,
      occurrence.Selects key assignment scopes (place.entity.location.steps ++ steps) := by
  -- The induction follows the selections down through fields and branches. Below a field one scope
  -- more stands around the place, behind a branch the place alone changes.
  induction levels generalizing place selections tree before scope rest steps with
  | zero => cases depicts
  | succ levels ih =>
      rcases tree with ⟨fields, branches, spreads⟩
      have here := depicts
      rcases depicts with ⟨gathered, parts⟩
      have written := subset _ (SelectionTree.self_mem_writtenSets _ _)
      rw [Place.selectsFor_iff reachable known placeReachable split within parts.gathers] at selects
      rcases selects with ⟨field, mem, selects⟩ | ⟨behind, mem, implied, selects⟩
        | ⟨name, mem, fragment, isFragment, onType, selects⟩
      · rcases exists_mem_of_forall₂ parts.fields mem with ⟨treeField, treeFieldMem, ofField⟩
        cases selects with
        | here isKey holds =>
            refine ⟨_, occurs.written _ written, ?_, ?_, ?_⟩
            · simp
            · rw [Place.scopes, split]
              exact forall₂_append_singleton_iff.mpr ⟨around, within⟩
            · refine ⟨treeField.toField, List.mem_map_of_mem treeFieldMem, ?_⟩
              cases ofField <;> exact ⟨isKey, holds⟩
        | @nested _ _ _ step _ isKey isType isComposite onType selects =>
            rcases step with ⟨stepKey, stepType⟩
            subst isKey isType
            cases ofField with
            | scalar isLeaf => cases isLeaf.symm.trans isComposite
            | entity _ isChild below =>
                rcases located.of_field treeFieldMem with ⟨location, childLocated⟩
                rw [← Scope.tests_forType isChild.scope] at selects
                rw [← Scope.isWithin_forType isChild.scope] at onType
                have found := ih below childLocated ?_ (.forType isChild.scope)
                  (split.trans (List.append_cons _ _ _)) ?_ onType selects
                · rw [location, Location.child, Location.joined, List.append_assoc] at found
                  exact found
                · intro member memberMem
                  exact subset member (SelectionTree.mem_writtenSets.mpr
                    (Or.inr (Or.inl ⟨_, _, _, treeFieldMem, memberMem⟩)))
                · rw [isChild.enclosing, Place.scopes]
                  exact forall₂_append_singleton_iff.mpr ⟨around, within⟩
      · rcases parts.exists_branch mem with ⟨outcome, ofBranch, keeps⟩
        cases ofBranch with
        | kept narrowed below _ =>
            rcases Place.narrowed_eq_ok narrowed with ⟨inScope, sameEntity, sameEnclosing⟩
            rw [← Scope.tests_narrow inScope] at selects
            rw [← sameEntity]
            apply ih below (located.of_branch (keeps _ rfl)) ?_ (.narrow placeReachable inScope)
              split (sameEnclosing ▸ around) (Scope.isWithin_narrow inScope within implied) selects
            intro member memberMem
            exact subset member (SelectionTree.mem_writtenSets.mpr
              (Or.inr (Or.inr ⟨_, _, _, keeps _ rfl, memberMem⟩)))
        -- Only a branch behind which nothing is selected is dropped.
        | dropped narrowed below empty =>
            have inScope := (Place.narrowed_eq_ok narrowed).1
            rw [← Scope.tests_narrow inScope] at selects
            exact absurd selects (below.not_selectsFor_of_isEmpty reachable known empty
              (.narrow placeReachable inScope) split
              (Scope.isWithin_narrow inScope within implied))
      · have spreadMem : place.spread name ∈ spreads := by
          rw [parts.spreads]
          exact List.mem_map_of_mem mem
        exact occurs.exists_selects_of_spread reachable known complete written spreadMem isFragment
          onType placeReachable split around within selects

end Found

/-- For whoever stands within given scopes, what occurs in a built definition selects the response
keys that the selections of the definition do. -/
theorem Workspace.IsSound.selectsFor_iff {project : Project} {workspace : Workspace}
    {definition : DefinitionId} {type key : Name} {assignment : Assignment}
    {selections : List Selection} {root : RootField} {occurrences : List Occurrence}
    {scopes : List Scope} {steps : List FieldStep} (sound : workspace.IsSound project)
    (built : root.IsBuilt project workspace.fragment? definition type selections occurrences)
    (reachable : ∀ scope ∈ scopes, Scope.Reachable project.schema scope)
    (known : ∀ scope ∈ scopes.getLast?, scope.knownConditions.all (·.holds assignment) = true) :
    (∃ occurrence ∈ occurrences, occurrence.Selects key assignment scopes steps)
      ↔ (∃ first ∈ scopes.head?, first.implies (.onType type) = true)
        ∧ SelectsFor project.compilation key assignment ∅ scopes steps selections := by
  constructor
  · rintro ⟨occurrence, mem, selects⟩
    have all := sound.of_isBuilt (motive := fun _ type selections occurrences =>
      ∀ occurrence ∈ occurrences, occurrence.IsSelected project key assignment type selections)
      ?_ built
    · exact all occurrence mem scopes steps reachable known selects
    · intro shape? definition type selections root occurrences selected built
      exact built.isSelected fun name shape found => (selected name shape found).2
  · rintro ⟨onType, selects⟩
    have all := sound.of_isBuilt (motive := fun _ => SelectsAll project key assignment) ?_ built
    · exact all scopes steps reachable known onType selects
    · intro shape? definition type selections root occurrences complete built scopes steps
        reachable known onType selects
      rcases onType with ⟨first, isFirst, onType⟩
      rcases List.head?_eq_some_iff.mp isFirst with ⟨rest, rfl⟩
      have depiction := built.depiction
      rcases depiction.depicts with ⟨levels, depicts⟩
      rw [← Scope.isWithin_forType depiction.scope] at onType
      rw [← Scope.tests_forType depiction.scope] at selects
      have found := depicts.exists_selects reachable known
        (fun name shape found => (complete name shape found).2) built.occurs depiction.located
        (fun _ mem => mem) (.forType depiction.scope) (List.nil_append _).symm ?_ onType selects
      · rw [depiction.location] at found
        exact found
      · rw [depiction.enclosing]
        exact .nil

end ResponseShape
