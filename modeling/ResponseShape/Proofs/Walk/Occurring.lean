import ResponseShape.Proofs.Walk.Standing

/-!
# What occurs stands where it occurs

The fields of a tree that is written in a definition stand at the place of the tree, below the
selections of the definition. So do the fields that a spread places, since what lies below the
selections of the fragment lies below those of the definition that spreads it, with the fields
around the spread before the others (`Workspace.IsSound.standsAt`).
-/

namespace ResponseShape

variable {project : Project} {typed : TypedSelections} {place : Place} {root : RootField}
  {definition : DefinitionId} {type : Name} {selections : List Selection} {tree : SelectionTree}

/-- Whether a field is one that stands at a place, whatever its conditions. -/
def Field.StandsAt (project : Project) (typed : TypedSelections) (place : Place) (field : Field) :
    Prop :=
  ∃ around selected, SelectedField.StandsAt project typed place around selected
    ∧ field.summary = .ofSelection selected.field field.summary.conditions

/-- What is gathered from selections that stand at a place stands there, too. -/
theorem Gathered.standsAt_of_gatherAll {limit levels : Nat} {gathered : Gathered}
    (lawful : project.schema.IsLawful) (reachable : Scope.Reachable project.schema place.scope)
    (stand : ∀ selection ∈ selections, selection.StandsAt project typed place)
    (gathers : gatherAll project.compilation limit place.scope levels .empty selections
      = .ok gathered) : gathered.StandsAt project typed place := by
  have yields := @yields_gatherAll _ _ _ _ lawful reachable limit levels _ standsAt_empty stand
  rwa [gathers] at yields

/-- The fields of a tree that depicts such selections stand there, and so does what its spreads
name. -/
theorem Depicts.standsAt {levels : Nat} (lawful : project.schema.IsLawful)
    (reachable : Scope.Reachable project.schema place.scope)
    (depicts : Depicts project levels place selections tree)
    (stand : ∀ selection ∈ selections, selection.StandsAt project typed place) :
    (∀ field ∈ tree.fields, field.StandsAt project typed place)
      ∧ ∀ spread ∈ tree.spreads, ∃ directives,
        (Selection.fragmentSpread spread.name directives).StandsAt project typed place := by
  cases levels with
  | zero => cases depicts
  | succ levels =>
      rcases tree with ⟨fields, branches, spreads⟩
      rcases depicts with ⟨gathered, parts⟩
      have gatheredStands := Gathered.standsAt_of_gatherAll lawful reachable stand parts.gathers
      constructor
      · intro field mem
        rcases List.mem_map.mp mem with ⟨treeField, treeFieldMem, rfl⟩
        rcases exists_mem_of_forall₂_right parts.fields treeFieldMem with
          ⟨known, knownMem, ofField⟩
        rcases gatheredStands.fields known knownMem with ⟨around, selected, stands, isField⟩
        refine ⟨around, selected, stands, ?_⟩
        rw [isField]
        cases ofField <;> rfl
      · intro spread mem
        rw [SelectionTree.spreads, parts.spreads] at mem
        rcases List.mem_map.mp mem with ⟨name, nameMem, rfl⟩
        exact gatheredStands.spreads name nameMem

/-- The selections that what is written in a definition depicts stand at their places. -/
theorem RootField.IsDepiction.forall_standsAt (lawful : project.schema.IsLawful)
    (depiction : root.IsDepiction project definition type selections) :
    ∀ member ∈ root.writtenSets, ∃ levels written,
      Depicts project levels member.1 written member.2
        ∧ Scope.Reachable project.schema member.1.scope
        ∧ member.1.enclosing.length = member.1.entity.location.steps.length
        ∧ ∀ selection ∈ written, selection.StandsAt project (type, selections) member.1 := by
  refine depiction.forall_written (motive := fun place written =>
    ∀ selection ∈ written, selection.StandsAt project (type, selections) place) ?_ ?_ ?_
  · intro levels place written gathered known child reachable stand gathers mem isChild location
    exact (Gathered.standsAt_of_gatherAll lawful reachable stand gathers).below_child mem isChild
      location
  · intro levels place written gathered behind child reachable stand gathers mem narrowed
    exact (Gathered.standsAt_of_gatherAll lawful reachable stand gathers).branches behind mem child
      narrowed
  · exact fun selection mem => .of_mem_root depiction.location depiction.scope mem

section Spreads

variable {before around : List SelectedField} {selected : SelectedField} {site inside : Place}
  {scope : Scope} {entity : Entity} {condition : Name} {rest : List Narrowing}

/-- What is placed at a spread lies below the fields around the spread and then those around it in
the fragment. -/
theorem Place.LiesUnder.placeAt (lawful : project.schema.IsLawful)
    (reachable : Scope.Reachable project.schema site.scope)
    (path : inside.rootScope.path = .onType condition :: rest)
    (spreads : site.scope.spreadInto? project.schema condition inside.rootScope = .ok (some scope))
    (length : site.enclosing.length = site.entity.location.steps.length)
    (location : entity.location = site.entity.location.joined inside.entity.location.steps)
    (siteLies : site.LiesUnder project.schema before type)
    (lies : inside.LiesUnder project.schema around selected.parentType) :
    (Build.placeAt site inside entity scope).LiesUnder project.schema (before ++ around)
      selected.parentType where
  keys := by
    rw [Build.entity_placeAt, location, Location.responseKeys, Location.joined, List.map_append,
      List.map_append, ← siteLies.keys, ← lies.keys]
    rfl
  types assignment way object isAt := by
    rcases isAt.split lawful reachable path spreads length location with
      ⟨outerWay, innerWay, first, objects, rfl, isObjects, outer, inner, -⟩
    have outerTypes := siteLies.types assignment outerWay first outer
    have innerTypes := lies.types assignment innerWay object inner
    rw [List.map_append, List.map_append, List.append_assoc, List.append_assoc]
    exact List.rel_append (forall₂_append_singleton_iff.mp outerTypes).1 innerTypes

end Spreads

/-- Everything that occurs in a built definition has fields that stand where it occurs, if this is
so for the fragments that it spreads. -/
theorem RootField.IsBuilt.standsAt {shape? : Name → Option FragmentShape}
    {occurrences : List Occurrence} {occurrence : Occurrence} (lawful : project.schema.IsLawful)
    (stand : ∀ name shape, shape? name = some shape →
      shape.name = name ∧ shape.Has project fun _ type selections occurrences =>
        ∀ occurrence ∈ occurrences, ∀ field ∈ occurrence.selections.fields,
          field.StandsAt project (type, selections) occurrence.place)
    (built : root.IsBuilt project shape? definition type selections occurrences)
    (mem : occurrence ∈ occurrences) : ∀ field ∈ occurrence.selections.fields,
      field.StandsAt project (type, selections) occurrence.place := by
  rcases built.occurs.origin occurrence mem with ⟨member, memberMem, origin⟩
  rcases built.depiction.forall_standsAt lawful member memberMem with
    ⟨levels, written, depicts, reachable, length, writtenStand⟩
  rcases depicts.standsAt lawful reachable writtenStand with ⟨fieldsStand, spreadsStand⟩
  rcases origin with rfl | ⟨spread, spreadMem, shape, fragment, isShape, isFragment, inside,
    insideMem, placement⟩
  · exact fieldsStand
  · rcases stand _ shape isShape with ⟨isNamed, known, isKnown, rooted, insideStands⟩
    rw [isNamed] at isKnown
    rcases Option.some.inj (isKnown.symm.trans isFragment) with rfl
    rcases rooted inside insideMem with ⟨rest, path⟩
    rcases placement.place with ⟨scope, spreads, isPlaced⟩
    have isSite : spread.place = member.1 := by rw [(depicts.of_mem_spreads spreadMem).1]; rfl
    have location := placement.location
    rw [isSite] at spreads isPlaced location
    intro field fieldMem
    rw [placement.selections] at fieldMem
    rcases insideStands inside insideMem field fieldMem with ⟨around, selected, stands, isField⟩
    rcases spreadsStand spread spreadMem with ⟨directives, before, siteType, siteLies, isBelow⟩
    refine ⟨before ++ around, selected, ⟨?_, ?_⟩, isField⟩
    · rw [isPlaced]
      exact siteLies.placeAt lawful reachable path spreads length location stands.lies
    · refine stands.below.within fun other makes => isBelow other ?_
      exact Selection.Makes.fragmentSpread_iff.mpr ⟨known, isKnown, makes⟩

/-- Everything that occurs in a definition built in a workspace has fields that stand where it
occurs. -/
theorem Workspace.IsSound.standsAt {workspace : Workspace} {occurrences : List Occurrence}
    {occurrence : Occurrence} (lawful : project.schema.IsLawful)
    (sound : workspace.IsSound project)
    (built : root.IsBuilt project workspace.fragment? definition type selections occurrences)
    (mem : occurrence ∈ occurrences) : ∀ field ∈ occurrence.selections.fields,
      field.StandsAt project (type, selections) occurrence.place := by
  have all := sound.of_isBuilt (motive := fun _ type selections occurrences =>
    ∀ occurrence ∈ occurrences, ∀ field ∈ occurrence.selections.fields,
      field.StandsAt project (type, selections) occurrence.place) ?_ built
  · exact all occurrence mem
  · intro shape? definition type selections root occurrences stand built occurrence mem
    exact built.standsAt lawful (fun name shape found => (stand name shape found).2) mem

end ResponseShape
