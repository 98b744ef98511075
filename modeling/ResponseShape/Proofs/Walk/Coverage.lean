import ResponseShape.Proofs.Definition.Distinctness
import ResponseShape.Proofs.Definition.Reading
import ResponseShape.Proofs.Merging.Additions
import ResponseShape.Proofs.Workspace.Reachable

/-!
# Coverage of what execution selects

Every field that execution selects is found in some occurrence: at the location where it is
selected, within scopes that hold the objects on the way there, and under conditions that hold.
`Covers` says so for as many levels of a response as one likes.

Selections are covered by the occurrences of the definition they are made in
(`Workspace.IsSound.coversAll`). Those of a fragment are covered where the fragment is spread
because the fragment's occurrences are placed there, so the induction is along the builds of a
workspace.
-/

namespace ResponseShape

/-- Whether a field that execution collects on an object is selected in an occurrence, which is at a
given location and within given scopes. -/
structure Occurrence.Offers (schema : Schema) (assignment : Assignment) (location : Location)
    (enclosing : List Scope) (object : Name) (collected : CollectedField)
    (occurrence : Occurrence) : Prop where
  location : occurrence.place.entity.location = location
  enclosing : occurrence.place.enclosing = enclosing
  scope : occurrence.place.scope.holds schema object assignment = true
  field : ∃ field ∈ occurrence.selections.fields, field.responseKey = collected.responseKey
    ∧ field.summary.type = collected.field.type ∧ field.holds assignment = true

/-- Whether occurrences offer all that execution collects for selections made on a type, so many
levels deep. -/
def Covers (project : Project) (assignment : Assignment) (occurrences : List Occurrence) :
    Nat → Location → List Scope → Name → List Selection → Prop
  | 0, _, _, _, _ => True
  | levels + 1, location, enclosing, type, selections =>
      ∀ object, project.schema.isPossible type object = true →
        ∀ collected ∈ Execution.collectFields project.compilation object assignment selections,
          ∃ occurrence ∈ occurrences,
            occurrence.Offers project.schema assignment location enclosing object collected
              ∧ Covers project assignment occurrences levels
                (location.child collected.responseKey collected.field.type.innerName)
                occurrence.place.scopes collected.field.type.innerName collected.selections

section Coverage

variable {project : Project} {assignment : Assignment} {occurrences found : List Occurrence}
  {levels : Nat} {location : Location} {enclosing : List Scope} {type : Name}
  {selections others : List Selection} {object : Name} {collected : CollectedField}

theorem Execution.mem_collectFields_mono
    (mem : collected ∈ collectFields project.compilation object assignment selections)
    (subset : ∀ selection ∈ selections, selection ∈ others) :
    collected ∈ collectFields project.compilation object assignment others := by
  rw [mem_collectFields_iff] at mem ⊢
  exact ⟨mem.1.mono subset, mem.2⟩

theorem Covers.mono
    (covers : Covers project assignment occurrences levels location enclosing type others)
    (subset : ∀ selection ∈ selections, selection ∈ others) :
    Covers project assignment occurrences levels location enclosing type selections := by
  cases levels with
  | zero => trivial
  | succ levels =>
      intro object possible collected mem
      exact covers object possible collected (Execution.mem_collectFields_mono mem subset)

/-- No value of a type that is not composite is an object, so nothing is collected on it. -/
theorem covers_of_leaf (isLeaf : project.schema.isComposite type = .ok false) :
    Covers project assignment occurrences levels location enclosing type selections := by
  cases levels with
  | zero => trivial
  | succ levels =>
      intro object possible
      rw [project.schema.not_isPossible_of_leaf isLeaf] at possible
      cases possible

section Spreads

variable {spread : Spread} {condition : Name}

/-- Whether all occurrences within a fragment, which is on the given type, occur where the fragment
is spread, if they can hold there. -/
def Spread.PlacesAll (project : Project) (spread : Spread) (condition : Name)
    (found occurrences : List Occurrence) : Prop :=
  ∀ inside ∈ found, ∃ narrowed,
    spread.place.scope.spreadInto? project.schema condition inside.place.rootScope = .ok narrowed
      ∧ (narrowed.isSome → ∃ outside ∈ occurrences,
        inside.IsPlacement project.schema spread condition outside)

/-- Whether an occurrence outside a fragment stands, at the scope in which its root is spread, where
another stands inside. -/
theorem Spread.PlacesAll.exists_outside {inside : Occurrence} {scope : Scope}
    (places : spread.PlacesAll project condition found occurrences) (mem : inside ∈ found)
    (spreads : spread.place.scope.spreadInto? project.schema condition inside.place.rootScope
      = .ok (some scope)) :
    ∃ outside ∈ occurrences, outside.place
        = Build.placeAt spread.place inside.place outside.place.entity scope
      ∧ outside.place.entity.location
        = spread.place.entity.location.joined inside.place.entity.location.steps
      ∧ outside.selections = inside.selections := by
  rcases places inside mem with ⟨narrowed, isNarrowed, ofNarrowed⟩
  rw [spreads] at isNarrowed
  rcases Except.ok.inj isNarrowed with rfl
  rcases ofNarrowed rfl with ⟨outside, outsideMem, placement⟩
  rcases placement.place with ⟨other, otherSpreads, isPlaced⟩
  rw [spreads, Except.ok.injEq, Option.some.injEq] at otherSpreads
  rcases otherSpreads with rfl
  exact ⟨outside, outsideMem, isPlaced, placement.location, placement.selections⟩

/-- What is covered below the root of a fragment is covered where the fragment is spread. -/
theorem Covers.placed {rootScope scope : Scope} {rest : List Scope}
    (covers : Covers project assignment found levels location (rootScope :: rest) type selections)
    (places : spread.PlacesAll project condition found occurrences)
    (spreads : spread.place.scope.spreadInto? project.schema condition rootScope
      = .ok (some scope)) :
    Covers project assignment occurrences levels
      (spread.place.entity.location.joined location.steps)
      (spread.place.enclosing ++ scope :: rest) type selections := by
  induction levels generalizing location rest type selections with
  | zero => trivial
  | succ levels ih =>
      intro object possible collected mem
      rcases covers object possible collected mem with ⟨inside, insideMem, offers, below⟩
      have isRoot : inside.place.rootScope = rootScope := by
        rw [Place.rootScope, offers.enclosing, List.headD_cons]
      rcases places.exists_outside insideMem (isRoot ▸ spreads) with
        ⟨outside, outsideMem, isPlaced, isLocated, sameSelections⟩
      simp only [Build.placeAt, offers.enclosing] at isPlaced
      refine ⟨outside, outsideMem, ⟨?_, ?_, ?_, ?_⟩, ?_⟩
      · rw [isLocated, offers.location]
      · rw [isPlaced]
      · rw [isPlaced]
        exact offers.scope
      · rw [sameSelections]
        exact offers.field
      · rw [Place.scopes, offers.enclosing, List.cons_append] at below
        have outer := ih below
        rw [Place.scopes, isPlaced, List.append_assoc, List.cons_append]
        simpa [Location.child, Location.joined, List.append_assoc] using outer

/-- What a spread fragment covers on an object within the scope of its place is covered there. -/
theorem exists_offers_of_spread (lawful : project.schema.IsLawful)
    (reachable : Scope.Reachable project.schema spread.place.scope)
    (places : spread.PlacesAll project condition found occurrences)
    (rooted : ∀ inside ∈ found, ∃ rest, inside.place.rootScope.path = .onType condition :: rest)
    (isStart : location.steps = [])
    (covers : Covers project assignment found (levels + 1) location [] condition selections)
    (within : spread.place.scope.holds project.schema object assignment = true)
    (possible : project.schema.isPossible condition object = true)
    (mem : collected ∈ Execution.collectFields project.compilation object assignment selections) :
    ∃ occurrence ∈ occurrences, occurrence.Offers project.schema assignment
        spread.place.entity.location spread.place.enclosing object collected
      ∧ Covers project assignment occurrences levels
        (spread.place.entity.location.child collected.responseKey
          collected.field.type.innerName)
        occurrence.place.scopes collected.field.type.innerName collected.selections := by
  rcases covers object possible collected mem with ⟨inside, insideMem, offers, below⟩
  have isRoot : inside.place.rootScope = inside.place.scope := by
    rw [Place.rootScope, offers.enclosing, List.headD_nil]
  rcases rooted inside insideMem with ⟨rest, path⟩
  rcases places inside insideMem with ⟨narrowed, spreads, -⟩
  rw [isRoot] at spreads path
  cases narrowed with
  | none =>
      have outside := Scope.not_holds_of_spreadInto?_eq_none reachable path spreads within
      rw [offers.scope] at outside
      cases outside
  | some scope =>
      rcases places.exists_outside insideMem (isRoot ▸ spreads) with
        ⟨outside, outsideMem, isPlaced, isLocated, sameSelections⟩
      simp only [Build.placeAt, offers.enclosing] at isPlaced
      refine ⟨outside, outsideMem, ⟨?_, ?_, ?_, ?_⟩, ?_⟩
      · rw [isLocated, offers.location, isStart]
        simp [Location.joined]
      · rw [isPlaced]
      · rw [isPlaced]
        exact (Scope.holds_spreadInto? lawful reachable path spreads).mpr ⟨within, offers.scope⟩
      · rw [sameSelections]
        exact offers.field
      · rw [Place.scopes, offers.enclosing, List.nil_append] at below
        have outer := below.placed places spreads
        rw [Place.scopes, isPlaced]
        simpa [Location.child, Location.joined, isStart] using outer

end Spreads

end Coverage

/-- Whether occurrences cover what is selected in the definition that they occur in. -/
def CoversAll (project : Project) (assignment : Assignment) (definition : DefinitionId)
    (type : Name) (selections : List Selection) (occurrences : List Occurrence) : Prop :=
  ∀ levels, Covers project assignment occurrences levels (.root definition) [] type selections

section Definitions

variable {project : Project} {assignment : Assignment} {shape? : Name → Option FragmentShape}
  {members : List (Place × SelectionTree)} {occurrences : List Occurrence} {levels nesting : Nat}
  {place : Place} {selections : List Selection} {tree : SelectionTree} {object : Name}
  {collected : CollectedField} (lawful : project.schema.IsLawful)
  (complete : ∀ name shape, shape? name = some shape →
    shape.name = name ∧ shape.Has project (CoversAll project assignment))
  (occurs : OccurrencesOf project shape? members occurrences)

include lawful complete occurs

/-- What execution collects on an object within a place is offered by the occurrences of what is
written there, if the selections on it are covered. -/
theorem Depicts.exists_offers
    (covers : ∀ {nesting child selections tree type},
      Depicts project nesting child selections tree → tree.IsLocated child →
        (∀ member ∈ tree.writtenSets child, member ∈ members) →
        Scope.forType project.schema type = .ok child.scope →
          Covers project assignment occurrences levels child.entity.location child.enclosing type
            selections)
    (depicts : Depicts project nesting place selections tree) (located : tree.IsLocated place)
    (subset : ∀ member ∈ tree.writtenSets place, member ∈ members)
    (reachable : Scope.Reachable project.schema place.scope)
    (within : place.scope.holds project.schema object assignment = true)
    (mem : collected ∈ Execution.collectFields project.compilation object assignment selections) :
    ∃ occurrence ∈ occurrences, occurrence.Offers project.schema assignment
        place.entity.location place.enclosing object collected
      ∧ Covers project assignment occurrences levels
        (place.entity.location.child collected.responseKey collected.field.type.innerName)
        occurrence.place.scopes collected.field.type.innerName collected.selections := by
  -- The induction is through branches only. Below a field there are other objects, on which what
  -- is selected is covered by assumption.
  induction nesting generalizing place selections tree with
  | zero => cases depicts
  | succ nesting ih =>
      rcases tree with ⟨fields, branches, spreads⟩
      rcases depicts with ⟨gathered, parts⟩
      rcases Execution.mem_collectFields_iff.mp mem with ⟨reached, included⟩
      have written := subset _ (SelectionTree.self_mem_writtenSets _ _)
      rcases parts.finds lawful reachable within reached included with
        ⟨known, field, fieldMem, ofField, sameKey, sameType, holds, all⟩
          | ⟨key, child, tree, inner, branchMem, narrowed, depicts, holds, innerReached⟩
          | ⟨name, fragment, spreadMem, found, possible, innerReached⟩
      · refine ⟨⟨place, .mk fields branches spreads, none⟩, occurs.written _ written,
          ⟨rfl, rfl, within, field.toField, List.mem_map_of_mem fieldMem, ?_⟩, ?_⟩
        · cases ofField <;> exact ⟨sameKey, sameType, holds⟩
        · rw [← sameKey, ← sameType]
          cases ofField with
          | scalar isLeaf => exact covers_of_leaf isLeaf
          | entity _ isChild depicts =>
              rcases located.of_field fieldMem with ⟨location, childLocated⟩
              have ofChild := covers depicts childLocated ?_ isChild.scope
              · rw [location, isChild.enclosing] at ofChild
                exact ofChild.mono all
              · intro member memberMem
                exact subset member (SelectionTree.mem_writtenSets.mpr
                  (Or.inr (Or.inl ⟨_, _, _, fieldMem, memberMem⟩)))
      · rcases Place.scope_of_narrowed lawful reachable narrowed with ⟨childReachable, holdsIff⟩
        rcases Place.narrowed_eq_ok narrowed with ⟨-, sameEntity, sameEnclosing⟩
        rw [← sameEntity, ← sameEnclosing]
        apply ih depicts (located.of_branch branchMem) ?_ childReachable
        · exact (holdsIff object assignment).mpr ⟨within, holds⟩
        · exact Execution.mem_collectFields_iff.mpr ⟨innerReached, included⟩
        · intro member memberMem
          exact subset member (SelectionTree.mem_writtenSets.mpr
            (Or.inr (Or.inr ⟨_, _, _, branchMem, memberMem⟩)))
      · rcases occurs.spreads _ written _ spreadMem with ⟨shape, other, isShape, isOther, places⟩
        rcases complete _ shape isShape with ⟨isNamed, definition, isDefinition, rooted, ofShape⟩
        rw [isNamed] at isDefinition
        rcases Option.some.inj (isDefinition.symm.trans isOther) with rfl
        rcases Option.some.inj (isDefinition.symm.trans found) with rfl
        exact exists_offers_of_spread lawful reachable places rooted rfl (ofShape (levels + 1))
          within possible (Execution.mem_collectFields_iff.mpr ⟨innerReached, included⟩)

/-- What is selected on a field's objects is covered by the occurrences of what is written there. -/
theorem Depicts.covers {type : Name} (depicts : Depicts project nesting place selections tree)
    (located : tree.IsLocated place)
    (subset : ∀ member ∈ tree.writtenSets place, member ∈ members)
    (isRoot : Scope.forType project.schema type = .ok place.scope) :
    Covers project assignment occurrences levels place.entity.location place.enclosing type
      selections := by
  induction levels generalizing nesting place selections tree type with
  | zero => trivial
  | succ levels ih =>
      intro object possible collected mem
      refine depicts.exists_offers lawful complete occurs ih located subset (.forType isRoot) ?_ mem
      exact (Scope.holds_of_forType isRoot).trans possible

end Definitions

/-- What is selected in a built definition is covered by its occurrences. -/
theorem Workspace.IsSound.coversAll {project : Project} {workspace : Workspace}
    {definition : DefinitionId} {type : Name} {selections : List Selection} {root : RootField}
    {occurrences : List Occurrence} (lawful : project.schema.IsLawful)
    (sound : workspace.IsSound project)
    (built : root.IsBuilt project workspace.fragment? definition type selections occurrences)
    (assignment : Assignment) :
    CoversAll project assignment definition type selections occurrences := by
  refine sound.of_isBuilt ?_ built
  intro shape? definition type selections root occurrences complete built levels
  have depiction := built.depiction
  rcases depiction.depicts with ⟨nesting, depicts⟩
  rw [← depiction.location, ← depiction.enclosing]
  exact depicts.covers lawful (fun name shape found => (complete name shape found).2) built.occurs
    depiction.located (fun _ mem => mem) depiction.scope

end ResponseShape
