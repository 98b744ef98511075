import Mathlib.Data.Finset.Union
import ResponseShape.Proofs.Definition.Placing
import ResponseShape.Proofs.Definition.Taking
import ResponseShape.Proofs.Scope.Restrictions
import ResponseShape.Proofs.Workspace.Settling

/-!
# What a definition restricts

The restrictions of selections are those that their inline fragments and spreads ask for, and those
that the selections of the fragments ask for that they reach (`Compilation.restrictions`). The
scopes of all that is written in a definition are made of them
(`RootField.IsDepiction.isMadeOf`), and a spread that places what occurs in a fragment adds no
others (`Scope.IsMadeOf.spreadInto?`).
-/

namespace ResponseShape

/-- What a fragment or a spread asks for, nothing if its directives skip it statically. -/
def Narrowing.restrictionsOfDirectives (typeCondition : Option Name) (directives : List Directive) :
    List Restriction :=
  match Narrowing.ofDirectives typeCondition directives with
  | .ok (some narrowing) => narrowing.restrictions
  | _ => []

mutual

/-- What is asked for in a selection, at any depth. Of a fragment that is spread only the type
condition counts, besides the directives of the spread. -/
def Selection.restrictions (compilation : Compilation) : Selection → List Restriction
  | .field _ selections => restrictionsOfAll compilation selections
  | .inlineFragment typeCondition directives selections =>
      Narrowing.restrictionsOfDirectives typeCondition directives
        ++ restrictionsOfAll compilation selections
  | .fragmentSpread name directives =>
      match compilation.spreadFragment? name with
      | some fragment => Narrowing.restrictionsOfDirectives (some fragment.typeCondition) directives
      | none => []

/-- What is asked for in selections, at any depth. -/
def Selection.restrictionsOfAll (compilation : Compilation) : List Selection → List Restriction
  | [] => []
  | selection :: rest => restrictions compilation selection ++ restrictionsOfAll compilation rest

end

namespace Compilation

/-- What is asked for in the fragment of a name. -/
def restrictionsOfFragment (compilation : Compilation) (name : Name) : List Restriction :=
  match compilation.spreadFragment? name with
  | some fragment => Selection.restrictionsOfAll compilation fragment.selections
  | none => []

/-- What is asked for in selections and in all fragments that they reach. -/
noncomputable def restrictions (compilation : Compilation) (selections : List Selection) :
    Finset Restriction :=
  (Selection.restrictionsOfAll compilation selections).toFinset
    ∪ (compilation.reached selections).biUnion
      fun name => (compilation.restrictionsOfFragment name).toFinset

end Compilation

/-- Whether all that is asked for in a selection, and in the fragments that it reaches, is among
given restrictions. -/
structure Selection.StaysWithin (compilation : Compilation) (restrictions : Finset Restriction)
    (selection : Selection) : Prop where
  own : ∀ restriction ∈ selection.restrictions compilation, restriction ∈ restrictions
  fragments : ∀ name ∈ selection.spreads, ∀ fragment,
    compilation.spreadFragment? name = some fragment →
      compilation.restrictions fragment.selections ⊆ restrictions

section Selections

variable {compilation : Compilation} {selection inner : Selection}
  {selections : List Selection} {restriction : Restriction} {restrictions : Finset Restriction}

theorem Selection.mem_restrictionsOfAll (mem : selection ∈ selections)
    (asked : restriction ∈ selection.restrictions compilation) :
    restriction ∈ Selection.restrictionsOfAll compilation selections := by
  induction selections with
  | nil => cases mem
  | cons first rest ih =>
      rw [restrictionsOfAll, List.mem_append]
      rcases List.mem_cons.mp mem with rfl | later
      · exact Or.inl asked
      · exact Or.inr (ih later)

/-- What a selection asks of the scope around it counts among its restrictions. -/
theorem Selection.Asks.mem_restrictions {narrowing : Narrowing}
    (asks : selection.Asks compilation (some narrowing))
    (mem : restriction ∈ narrowing.restrictions) :
    restriction ∈ selection.restrictions compilation := by
  cases asks with
  | inlineFragment evaluated =>
      rw [restrictions, Narrowing.restrictionsOfDirectives, evaluated]
      exact List.mem_append_left _ mem
  | fragmentSpread found evaluated =>
      rw [restrictions, found]
      simp only [Narrowing.restrictionsOfDirectives, evaluated]
      exact mem

namespace Compilation

theorem mem_restrictions : restriction ∈ compilation.restrictions selections ↔
    restriction ∈ Selection.restrictionsOfAll compilation selections
      ∨ ∃ name fragment, compilation.Spreads name selections
        ∧ compilation.spreadFragment? name = some fragment
        ∧ restriction ∈ Selection.restrictionsOfAll compilation fragment.selections := by
  simp only [restrictions, Finset.mem_union, List.mem_toFinset, Finset.mem_biUnion]
  refine or_congr_right ⟨?_, ?_⟩
  · rintro ⟨name, isReached, mem⟩
    simp only [restrictionsOfFragment] at mem
    split at mem
    next fragment found => exact ⟨name, fragment, (mem_reached.mp isReached).2, found, mem⟩
    next => cases mem
  · rintro ⟨name, fragment, spreads, found, mem⟩
    refine ⟨name, mem_reached.mpr ⟨mem_names_of_spreadFragment? found, spreads⟩, ?_⟩
    rw [restrictionsOfFragment, found]
    exact mem

/-- The restrictions of a fragment are among those of the selections that spread it. -/
theorem restrictions_subset {name : Name} {fragment : Fragment}
    (isSpread : name ∈ Selection.spreadsOfAll selections)
    (found : compilation.spreadFragment? name = some fragment) :
    compilation.restrictions fragment.selections ⊆ compilation.restrictions selections := by
  intro restriction mem
  rcases mem_restrictions.mp mem with own | ⟨other, inner, spreads, isInner, inInner⟩
  · exact mem_restrictions.mpr (Or.inr ⟨name, fragment, .written isSpread, found, own⟩)
  · exact mem_restrictions.mpr
      (Or.inr ⟨other, inner, .fragment isSpread found spreads, isInner, inInner⟩)

theorem staysWithin_restrictions (mem : selection ∈ selections) :
    selection.StaysWithin compilation (compilation.restrictions selections) where
  own _ asked := mem_restrictions.mpr (Or.inl (Selection.mem_restrictionsOfAll mem asked))
  fragments _ isSpread _ found :=
    restrictions_subset (Selection.mem_spreadsOfAll mem isSpread) found

end Compilation

namespace Selection.StaysWithin

/-- What stays within restrictions does so in all its parts. -/
theorem of_mem (within : selection.StaysWithin compilation restrictions)
    (mem : inner ∈ selections)
    (own : ∀ restriction ∈ restrictionsOfAll compilation selections,
      restriction ∈ selection.restrictions compilation)
    (spreads : selection.spreads = spreadsOfAll selections) :
    inner.StaysWithin compilation restrictions where
  own restriction asked :=
    within.own restriction (own restriction (mem_restrictionsOfAll mem asked))
  fragments name isSpread :=
    within.fragments name (spreads ▸ Selection.mem_spreadsOfAll mem isSpread)

theorem of_field {field : FieldSelection}
    (within : Selection.StaysWithin compilation restrictions (.field field selections)) :
    ∀ inner ∈ selections, inner.StaysWithin compilation restrictions :=
  fun _ mem => within.of_mem mem (fun _ asked => by rwa [Selection.restrictions]) rfl

theorem of_inlineFragment {typeCondition : Option Name} {directives : List Directive}
    (within : Selection.StaysWithin compilation restrictions
      (.inlineFragment typeCondition directives selections)) :
    ∀ inner ∈ selections, inner.StaysWithin compilation restrictions :=
  fun _ mem => within.of_mem mem
    (fun _ asked => by rw [Selection.restrictions]; exact List.mem_append_right _ asked) rfl

end Selection.StaysWithin

/-- What is gathered from selections within restrictions stays within them, and asks for nothing
else. -/
theorem Gathered.staysWithin_gatherAll {limit remaining : Nat} {scope : Scope}
    {gathered : Gathered}
    (all : ∀ selection ∈ selections, selection.StaysWithin compilation restrictions)
    (run : gatherAll compilation limit scope remaining .empty selections = .ok gathered) :
    (∀ field ∈ gathered.fields, ∀ selection ∈ field.selections,
        selection.StaysWithin compilation restrictions)
      ∧ (∀ branch ∈ gathered.branches,
        (∀ restriction ∈ branch.1.restrictions, restriction ∈ restrictions)
          ∧ ∀ selection ∈ branch.2, selection.StaysWithin compilation restrictions)
      ∧ ∀ name ∈ gathered.spreads, ∀ fragment, compilation.spreadFragment? name = some fragment →
        .type fragment.typeCondition ∈ restrictions
          ∧ compilation.restrictions fragment.selections ⊆ restrictions := by
  have taken := isTakenFrom_gatherAll (fun _ _ within => within.of_field)
    (fun _ _ _ within => within.of_inlineFragment) all run
  refine ⟨taken.fields, fun branch mem => ⟨?_, taken.branches branch mem⟩, ?_⟩
  · rcases taken.keys branch mem with ⟨selection, narrowing, within, asks, isKey⟩
    intro restriction isPart
    rw [(Scope.effective?_eq_some isKey).1] at isPart
    exact within.own _ (asks.mem_restrictions (Scope.mem_restrictions_of_unknownPart isPart))
  · intro name mem fragment found
    rcases taken.spreads name mem with ⟨directives, narrowing, within, asks⟩
    refine ⟨within.own _ (asks.mem_restrictions ?_),
      within.fragments name (List.mem_singleton_self _) fragment found⟩
    cases asks with
    | fragmentSpread alsoFound evaluated =>
        rcases Option.some.inj (found.symm.trans alsoFound) with rfl
        exact Narrowing.mem_restrictions.mpr
          (Or.inl ⟨_, Narrowing.typeCondition_of_ofDirectives evaluated, rfl⟩)

end Selections

section Scopes

variable {schema : Schema} {scope inside narrower : Scope} {restrictions : Finset Restriction}

theorem Scope.IsMadeOf.narrowAll {narrowings : List Narrowing}
    (madeOf : scope.IsMadeOf restrictions)
    (narrowed : scope.narrowAll schema narrowings = .ok narrower)
    (parts : ∀ narrowing ∈ narrowings, ∀ restriction ∈ narrowing.restrictions,
      restriction ∈ restrictions) : narrower.IsMadeOf restrictions := by
  induction narrowings generalizing scope with
  | nil =>
      rcases Except.ok.inj narrowed with rfl
      exact madeOf
  | cons narrowing rest ih =>
      rw [List.forall_mem_cons] at parts
      rcases narrowAll_cons_eq_ok narrowed with ⟨next, once, further⟩
      exact ih (madeOf.narrow once parts.1) further parts.2

/-- Where a fragment is spread, its type condition and what its own scopes are made of join the
path. -/
theorem Scope.IsMadeOf.spreadInto? {type : Name} (madeOf : scope.IsMadeOf restrictions)
    (insideMadeOf : inside.IsMadeOf restrictions) (ofType : .type type ∈ restrictions)
    (spread : scope.spreadInto? schema type inside = .ok (some narrower)) :
    narrower.IsMadeOf restrictions := by
  rcases insideMadeOf with ⟨first, rest, path, ofRest⟩
  refine madeOf.narrowAll (narrowAll_of_spreadInto? spread) ?_
  rw [applied, path, List.tail_cons]
  refine List.forall_mem_cons.mpr ⟨fun restriction mem => ?_, ofRest⟩
  rcases Narrowing.mem_restrictions.mp mem with ⟨_, ⟨⟩, rfl⟩ | ⟨_, ⟨⟩, -⟩ | ⟨_, ⟨⟩, -⟩
  exact ofType

end Scopes

/-- The scopes of all that is written in a definition are made of what the definition asks for, as
are the fragments spread there and their type conditions. -/
theorem RootField.IsDepiction.isMadeOf {project : Project} {definition : DefinitionId}
    {type : Name} {selections : List Selection} {root : RootField}
    (depiction : root.IsDepiction project definition type selections) :
    ∀ member ∈ root.writtenSets,
      (∀ scope ∈ member.1.scopes, scope.IsMadeOf (project.compilation.restrictions selections))
        ∧ ∀ spread ∈ member.2.spreads, ∀ fragment,
          project.compilation.spreadFragment? spread.name = some fragment →
            .type fragment.typeCondition ∈ project.compilation.restrictions selections
              ∧ project.compilation.restrictions fragment.selections
                ⊆ project.compilation.restrictions selections := by
  rcases depiction.depicts with ⟨levels, depicts⟩
  -- Beside the scopes, the selections written there stay within what the definition asks for.
  have all := depicts.forall_writtenSets (motive := fun place written _ =>
    (∀ scope ∈ place.scopes, scope.IsMadeOf (project.compilation.restrictions selections))
      ∧ ∀ selection ∈ written, selection.StaysWithin project.compilation
        (project.compilation.restrictions selections)) ?_ ?_ ?_
  · intro member mem
    rcases all member mem with ⟨levels, written, depicts, madeOf, within⟩
    refine ⟨madeOf, fun spread spreadMem fragment found => ?_⟩
    cases levels with
    | zero => cases depicts
    | succ levels =>
        rcases member with ⟨place, fields, branches, spreads⟩
        rcases depicts with ⟨gathered, parts⟩
        rw [SelectionTree.spreads, parts.spreads] at spreadMem
        rcases List.mem_map.mp spreadMem with ⟨name, nameMem, rfl⟩
        exact (Gathered.staysWithin_gatherAll within parts.gathers).2.2 name nameMem fragment found
  · rintro levels place written gathered fields branches spreads known summary child tree
      ⟨madeOf, within⟩ parts knownMem _ ofField
    refine ⟨?_, (Gathered.staysWithin_gatherAll within parts.gathers).1 known knownMem⟩
    cases ofField with
    | entity _ isChild _ =>
        rw [Place.scopes, isChild.enclosing, List.forall_mem_append, List.forall_mem_singleton]
        exact ⟨madeOf, .of_forType isChild.scope⟩
  · rintro levels place written gathered fields branches spreads behind key child tree
      ⟨madeOf, within⟩ parts behindMem _ ofBranch
    rcases (Gathered.staysWithin_gatherAll within parts.gathers).2.1 behind behindMem with
      ⟨ofKey, ofInner⟩
    refine ⟨?_, ofInner⟩
    cases ofBranch with
    | kept narrowed _ _ =>
        rcases Place.narrowed_eq_ok narrowed with ⟨inScope, -, sameEnclosing⟩
        rw [Place.scopes, List.forall_mem_append, List.forall_mem_singleton] at madeOf
        rw [Place.scopes, sameEnclosing, List.forall_mem_append, List.forall_mem_singleton]
        exact ⟨madeOf.1, madeOf.2.narrow inScope ofKey⟩
  · refine ⟨?_, fun selection => Compilation.staysWithin_restrictions⟩
    rw [Place.scopes, depiction.enclosing, List.nil_append, List.forall_mem_singleton]
    exact .of_forType depiction.scope

section Occurrences

variable {project : Project} {workspace : Workspace} {shape? : Name → Option FragmentShape}
  {definition : DefinitionId} {type : Name} {selections : List Selection} {root : RootField}
  {occurrences : List Occurrence}

/-- The scopes of all that occurs in a definition are made of what the definition asks for, if those
of the fragments built before it are. -/
theorem RootField.IsBuilt.isMadeOf
    (built : root.IsBuilt project shape? definition type selections occurrences)
    (fragments : ∀ name shape fragment, shape? name = some shape →
      project.compilation.spreadFragment? name = some fragment →
        ∀ inside ∈ shape.occurrences, ∀ scope ∈ inside.place.scopes,
          scope.IsMadeOf (project.compilation.restrictions fragment.selections)) :
    ∀ occurrence ∈ occurrences, ∀ scope ∈ occurrence.place.scopes,
      scope.IsMadeOf (project.compilation.restrictions selections) := by
  intro occurrence mem
  rcases built.occurs.origin occurrence mem with
    ⟨member, memberMem, rfl | ⟨spread, spreadMem, shape, fragment, isShape, isFragment, inside,
      insideMem, placement⟩⟩
  · exact (built.depiction.isMadeOf member memberMem).1
  · rcases built.depiction.isMadeOf member memberMem with ⟨madeOf, ofSpreads⟩
    rcases ofSpreads spread spreadMem fragment isFragment with ⟨ofType, subset⟩
    have insideMadeOf (scope : Scope) (scopeMem : scope ∈ inside.place.scopes) :=
      (fragments _ shape fragment isShape isFragment inside insideMem scope scopeMem).mono subset
    rcases placement.place with ⟨scope, spreadInto, isPlace⟩
    rw [built.depiction.place_of_spread memberMem spreadMem] at spreadInto isPlace
    rw [Place.scopes, List.forall_mem_append, List.forall_mem_singleton] at madeOf
    rw [inside.place.scopes_eq_cons, List.forall_mem_cons] at insideMadeOf
    rw [isPlace, Build.scopes_placeAt, List.forall_mem_append, List.forall_mem_cons]
    exact ⟨madeOf.1, madeOf.2.spreadInto? insideMadeOf.1 ofType spreadInto, insideMadeOf.2⟩

/-- The scopes of all that occurs in a built definition are made of what the definition asks
for. -/
theorem Workspace.IsSound.isMadeOf (sound : workspace.IsSound project)
    (built : root.IsBuilt project workspace.fragment? definition type selections occurrences) :
    ∀ occurrence ∈ occurrences, ∀ scope ∈ occurrence.place.scopes,
      scope.IsMadeOf (project.compilation.restrictions selections) := by
  refine sound.of_isBuilt (motive := fun _ _ selections occurrences =>
    ∀ occurrence ∈ occurrences, ∀ scope ∈ occurrence.place.scopes,
      scope.IsMadeOf (project.compilation.restrictions selections)) ?_ built
  intro shape? definition type selections root occurrences fragments built
  refine built.isMadeOf fun name shape fragment isShape isFragment => ?_
  rcases fragments name shape isShape with ⟨-, rfl, other, isOther, -, ofShape⟩
  rcases Option.some.inj (isFragment.symm.trans isOther) with rfl
  exact ofShape

end Occurrences

end ResponseShape
