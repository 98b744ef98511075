import ResponseShape.Definition.Placement
import ResponseShape.Proofs.Definition.Construction
import ResponseShape.Proofs.Scope.Meet

/-!
# Where fragments occur

Spreading a fragment applies the scope of its root on top of the scope of the place: within the
result lie the objects that lie within both (`Scope.holds_spreadInto?`), and if there is no result
no object does.

`OccurrencesOf` says which occurrences a list of written selection sets has: the sets themselves,
and, at each of their spreads, those of the fragment that can hold there. It is what placing finds
(`Build.ensures_occurrences`).
-/

namespace ResponseShape

section Scopes

variable {schema : Schema} {object : Name} {assignment : Assignment} {scope narrower inside : Scope}
  {narrowing : Narrowing} {narrowings : List Narrowing} {type : Name}

/-- Whether every test that is known in a scope is known in another. -/
def Scope.IsKnownIn (scope other : Scope) : Prop :=
  ∀ test, (∃ group ∈ scope.knownConditions, test ∈ group.tests) →
    ∃ group ∈ other.knownConditions, test ∈ group.tests

/-- Asking each time whether a scope admits the next narrowing leads where the narrowings lead. -/
theorem Build.narrowAll_of_narrowAll? {result : Scope}
    (narrowed : Build.narrowAll? schema scope narrowings = .ok (some result)) :
    scope.narrowAll schema narrowings = .ok result := by
  induction narrowings generalizing scope with
  | nil =>
      rcases Option.some.inj (Except.ok.inj narrowed) with rfl
      rfl
  | cons narrowing rest ih =>
      simp only [Build.narrowAll?] at narrowed
      split at narrowed
      next =>
        rw [Scope.narrowAll_cons]
        cases once : scope.narrow schema narrowing with
        | error error => simp [once, bind, Except.bind] at narrowed
        | ok next =>
            simp only [once, bind, Except.bind] at narrowed
            exact ih narrowed
      next => cases Except.ok.inj narrowed

/-- What a scope refuses to be narrowed by fails wherever the scope's conditions hold. -/
theorem Build.exists_fails_of_narrowAll?_eq_none (reachable : Scope.Reachable schema scope)
    (refused : Build.narrowAll? schema scope narrowings = .ok none)
    (permits : scope.permits assignment = true) :
    ∃ narrowing ∈ narrowings, narrowing.conditions.all (·.holds assignment) = false := by
  induction narrowings generalizing scope with
  | nil => cases Except.ok.inj refused
  | cons narrowing rest ih =>
      cases holds : narrowing.conditions.all (·.holds assignment) with
      | false => exact ⟨narrowing, List.mem_cons_self, holds⟩
      | true =>
          have admits := reachable.admits_of_permits permits holds
          simp only [Build.narrowAll?, admits, if_true] at refused
          cases once : scope.narrow schema narrowing with
          | error error => simp [once, bind, Except.bind] at refused
          | ok next =>
              simp only [once, bind, Except.bind] at refused
              have nextPermits : next.permits assignment = true := by
                rw [reachable.permits_narrow once, permits, holds, Bool.and_self]
              rcases ih (.narrow reachable once) refused nextPermits with ⟨failing, mem, fails⟩
              exact ⟨failing, List.mem_cons_of_mem _ mem, fails⟩

namespace Scope

/-- The scope of a fragment's root where the fragment, which is on the given type, is spread. Absent
if it cannot hold there. -/
def spreadInto? (schema : Schema) (scope : Scope) (type : Name) (inside : Scope) :
    Except BuildError (Option Scope) := do
  Build.narrowAll? schema (← scope.narrow schema (.onType type)) inside.applied

theorem holds_onType :
    (Narrowing.onType type).holds schema object assignment = schema.isPossible type object := by
  simp [Narrowing.holds, Narrowing.onType]

/-- Spreading a fragment narrows the scope by all that is on the path of the fragment's root. -/
theorem narrowAll_of_spreadInto? {result : Scope}
    (spread : scope.spreadInto? schema type inside = .ok (some result)) :
    scope.narrowAll schema (.onType type :: inside.applied) = .ok result := by
  simp only [spreadInto?] at spread
  rw [narrowAll_cons]
  cases once : scope.narrow schema (.onType type) with
  | error error => simp [once, bind, Except.bind] at spread
  | ok next =>
      simp only [once, bind, Except.bind] at spread
      exact Build.narrowAll_of_narrowAll? spread

/-- Within the scope of a spread fragment lie the objects within both scopes. -/
theorem holds_spreadInto? {result : Scope} {rest : List Narrowing} (lawful : schema.IsLawful)
    (reachable : Reachable schema scope) (path : inside.path = .onType type :: rest)
    (spread : scope.spreadInto? schema type inside = .ok (some result)) :
    result.holds schema object assignment = true ↔
      scope.holds schema object assignment = true
        ∧ inside.holds schema object assignment = true := by
  rw [reachable.holds_narrowAll lawful (narrowAll_of_spreadInto? spread)]
  simp [Scope.holds, applied, path]

/-- Where a fragment cannot be spread, no assignment lets both its scope and the one around hold. -/
theorem permits_eq_false_of_spreadInto?_eq_none {rest : List Narrowing}
    (reachable : Reachable schema scope) (path : inside.path = .onType type :: rest)
    (spread : scope.spreadInto? schema type inside = .ok none)
    (outer : scope.permits assignment = true) : inside.permits assignment = false := by
  simp only [spreadInto?] at spread
  cases once : scope.narrow schema (.onType type) with
  | error error => simp [once, bind, Except.bind] at spread
  | ok next =>
      simp only [once, bind, Except.bind, applied, path, List.tail_cons] at spread
      have nextPermits : next.permits assignment = true := by
        rw [reachable.permits_narrow once, outer]
        rfl
      rcases Build.exists_fails_of_narrowAll?_eq_none (.narrow reachable once) spread nextPermits
        with ⟨failing, mem, fails⟩
      rw [permits, List.all_eq_false]
      exact ⟨failing, path ▸ List.mem_cons_of_mem _ mem, by simp [fails]⟩

/-- No object lies within both scopes if a fragment cannot hold where it is spread. -/
theorem not_holds_of_spreadInto?_eq_none {rest : List Narrowing}
    (reachable : Reachable schema scope) (path : inside.path = .onType type :: rest)
    (spread : scope.spreadInto? schema type inside = .ok none)
    (within : scope.holds schema object assignment = true) :
    inside.holds schema object assignment = false := by
  have refused := permits_eq_false_of_spreadInto?_eq_none reachable path spread
    (permits_of_holds within)
  cases insideWithin : inside.holds schema object assignment with
  | false => rfl
  | true =>
      rw [permits_of_holds insideWithin] at refused
      cases refused

/-- The scope of a spread fragment lies further on the path of the place. -/
theorem prefix_spreadInto? {result : Scope} (reachable : Reachable schema scope)
    (spread : scope.spreadInto? schema type inside = .ok (some result)) :
    Reachable schema result ∧ scope.path <+: result.path :=
  have narrowed := narrowAll_of_spreadInto? spread
  ⟨reachable.of_narrowAll narrowed, path_prefix_of_narrowAll narrowed⟩

/-- Where a fragment is spread lies within the scope inside it. -/
theorem spreadInto?_isWithin {result : Scope} {rest : List Narrowing}
    (reachable : Reachable schema scope) (path : inside.path = .onType type :: rest)
    (spread : scope.spreadInto? schema type inside = .ok (some result)) :
    result.isWithin inside = true := by
  have meet := reachable.isMeet_narrowAll (narrowAll_of_spreadInto? spread)
  rw [isWithin, path, List.all_eq_true]
  rw [applied, path, List.tail_cons] at meet
  exact meet.implies

/-- What is known at a fragment's root is known where the fragment is spread. -/
theorem isKnownIn_spreadInto? {result : Scope} {rest : List Narrowing}
    (reachable : Reachable schema scope) (insideReachable : Reachable schema inside)
    (path : inside.path = .onType type :: rest)
    (spread : scope.spreadInto? schema type inside = .ok (some result)) :
    inside.IsKnownIn result :=
  (insideReachable.isFullyKnownIn (prefix_spreadInto? reachable spread).1
    (spreadInto?_isWithin reachable path spread)).tests

end Scope

end Scopes

/-- The outermost scope within a definition, which its root field opened. -/
def Place.rootScope (place : Place) : Scope := place.enclosing.headD place.scope

theorem Place.rootScope_of_enclosing {place child : Place}
    (enclosing : child.enclosing = place.scopes) : child.rootScope = place.rootScope := by
  simp only [Place.rootScope, enclosing, Place.scopes]
  cases place.enclosing <;> rfl

theorem Place.scope_mem_scopes (place : Place) : place.scope ∈ place.scopes :=
  List.mem_append_right _ (List.mem_singleton_self _)

theorem Place.scopes_eq_cons (place : Place) :
    place.scopes = place.rootScope :: place.scopes.tail := by
  simp only [scopes, rootScope]
  cases place.enclosing <;> rfl

@[simp]
theorem Build.entity_placeAt (site inside : Place) (entity : Entity) (scope : Scope) :
    (placeAt site inside entity scope).entity = entity := by
  simp only [placeAt]
  cases inside.enclosing <;> rfl

theorem Build.scopes_placeAt (site inside : Place) (entity : Entity) (scope : Scope) :
    (placeAt site inside entity scope).scopes = site.enclosing ++ scope :: inside.scopes.tail := by
  simp only [placeAt, Place.scopes]
  cases inside.enclosing <;> simp

theorem Build.rootScope_placeAt (site inside : Place) (entity : Entity) (scope : Scope) :
    (Build.placeAt site inside entity scope).rootScope = site.enclosing.headD scope := by
  simp only [Build.placeAt]
  split
  next => rfl
  next => cases site.enclosing <;> simp [Place.rootScope]

/-- Whether an occurrence outside a fragment, which is on the given type, is one of the fragment's
that occurs where the fragment is spread. -/
structure Occurrence.IsPlacement (schema : Schema) (spread : Spread) (type : Name)
    (inside outside : Occurrence) : Prop where
  place : ∃ scope, spread.place.scope.spreadInto? schema type inside.place.rootScope
      = .ok (some scope)
    ∧ outside.place = Build.placeAt spread.place inside.place outside.place.entity scope
  location : outside.place.entity.location
    = spread.place.entity.location.joined inside.place.entity.location.steps
  selections : outside.selections = inside.selections
  fragment : outside.fragment = some (inside.fragment.getD spread.name)

/-- Whether everything that occurs in a spread fragment occurs where it is spread, if it can hold
there. The fragments built so far are given. -/
def Spread.Occurs (project : Project) (shape? : Name → Option FragmentShape) (spread : Spread)
    (occurrences : List Occurrence) : Prop :=
  ∃ shape fragment, shape? spread.name = some shape
    ∧ project.compilation.spreadFragment? spread.name = some fragment
    ∧ ∀ inside ∈ shape.occurrences, ∃ narrowed,
      spread.place.scope.spreadInto? project.schema fragment.typeCondition inside.place.rootScope
          = .ok narrowed
        ∧ (narrowed.isSome → ∃ outside ∈ occurrences,
          inside.IsPlacement project.schema spread fragment.typeCondition outside)

/-- Whether an occurrence is one that a spread places, given the fragments built so far. -/
def Spread.Places (project : Project) (shape? : Name → Option FragmentShape) (spread : Spread)
    (occurrence : Occurrence) : Prop :=
  ∃ shape fragment, shape? spread.name = some shape
    ∧ project.compilation.spreadFragment? spread.name = some fragment
    ∧ ∃ inside ∈ shape.occurrences,
      inside.IsPlacement project.schema spread fragment.typeCondition occurrence

/-- Whether occurrences are those of written selection sets, given the fragments built so far. -/
structure OccurrencesOf (project : Project) (shape? : Name → Option FragmentShape)
    (members : List (Place × SelectionTree)) (occurrences : List Occurrence) : Prop where
  written : ∀ member ∈ members, ⟨member.1, member.2, none⟩ ∈ occurrences
  spreads : ∀ member ∈ members, ∀ spread ∈ member.2.spreads,
    spread.Occurs project shape? occurrences
  origin : ∀ occurrence ∈ occurrences, ∃ member ∈ members,
    occurrence = ⟨member.1, member.2, none⟩
      ∨ ∃ spread ∈ member.2.spreads, spread.Places project shape? occurrence

/-- Whether all fragments spread in written selection sets are defined and built. -/
def AreResolved (project : Project) (shape? : Name → Option FragmentShape)
    (members : List (Place × SelectionTree)) : Prop :=
  ∀ member ∈ members, ∀ spread ∈ member.2.spreads,
    (∃ shape, shape? spread.name = some shape)
      ∧ ∃ fragment, project.compilation.spreadFragment? spread.name = some fragment

section Occurrences

variable {project : Project} {shape? other? : Name → Option FragmentShape}
  {members others : List (Place × SelectionTree)} {found more : List Occurrence} {spread : Spread}
  {occurrence : Occurrence}

theorem Spread.Occurs.mono (occurs : spread.Occurs project shape? found)
    (grows : ∀ name shape, shape? name = some shape → other? name = some shape)
    (subset : ∀ occurrence ∈ found, occurrence ∈ more) : spread.Occurs project other? more := by
  rcases occurs with ⟨shape, fragment, isShape, isFragment, all⟩
  refine ⟨shape, fragment, grows _ _ isShape, isFragment, ?_⟩
  intro inside insideMem
  rcases all inside insideMem with ⟨narrowed, spreads, places⟩
  refine ⟨narrowed, spreads, ?_⟩
  intro isSome
  rcases places isSome with ⟨outside, mem, placement⟩
  exact ⟨outside, subset outside mem, placement⟩

theorem Spread.Places.mono (places : spread.Places project shape? occurrence)
    (grows : ∀ name shape, shape? name = some shape → other? name = some shape) :
    spread.Places project other? occurrence := by
  rcases places with ⟨shape, fragment, isShape, rest⟩
  exact ⟨shape, fragment, grows _ _ isShape, rest⟩

theorem AreResolved.mono (resolved : AreResolved project shape? members)
    (grows : ∀ name shape, shape? name = some shape → other? name = some shape) :
    AreResolved project other? members := by
  intro member mem spread spreadMem
  rcases resolved member mem spread spreadMem with ⟨⟨shape, isShape⟩, isDefined⟩
  exact ⟨⟨shape, grows _ _ isShape⟩, isDefined⟩

theorem AreResolved.subset (resolved : AreResolved project shape? members)
    (subset : ∀ member ∈ others, member ∈ members) : AreResolved project shape? others :=
  fun member mem => resolved member (subset member mem)

namespace OccurrencesOf

theorem mono (occurrences : OccurrencesOf project shape? members found)
    (grows : ∀ name shape, shape? name = some shape → other? name = some shape) :
    OccurrencesOf project other? members found where
  written := occurrences.written
  spreads member mem spread spreadMem :=
    (occurrences.spreads member mem spread spreadMem).mono grows fun _ same => same
  origin occurrence mem := by
    rcases occurrences.origin occurrence mem with ⟨member, memberMem, origin⟩
    refine ⟨member, memberMem, origin.imp_right ?_⟩
    rintro ⟨spread, spreadMem, places⟩
    exact ⟨spread, spreadMem, places.mono grows⟩

theorem nil : OccurrencesOf project shape? [] [] := by
  constructor <;> simp

theorem append (first : OccurrencesOf project shape? members found)
    (second : OccurrencesOf project shape? others more) :
    OccurrencesOf project shape? (members ++ others) (found ++ more) where
  written member mem := List.mem_append.mpr
    ((List.mem_append.mp mem).imp (first.written member) (second.written member))
  spreads member mem spread spreadMem := by
    rcases List.mem_append.mp mem with inFirst | inSecond
    · exact (first.spreads member inFirst spread spreadMem).mono (fun _ _ same => same)
        fun _ => List.mem_append_left _
    · exact (second.spreads member inSecond spread spreadMem).mono (fun _ _ same => same)
        fun _ => List.mem_append_right _
  origin occurrence mem := by
    rcases List.mem_append.mp mem with inFirst | inSecond
    · rcases first.origin occurrence inFirst with ⟨member, memberMem, origin⟩
      exact ⟨member, List.mem_append_left _ memberMem, origin⟩
    · rcases second.origin occurrence inSecond with ⟨member, memberMem, origin⟩
      exact ⟨member, List.mem_append_right _ memberMem, origin⟩

/-- The occurrences of one selection set, from those that each of its spreads places. -/
theorem single {place : Place} {tree : SelectionTree} {placed : List (List Occurrence)}
    (ofSpreads : List.Forall₂ (fun spread (here : List Occurrence) =>
      spread.Occurs project shape? here
        ∧ ∀ occurrence ∈ here, spread.Places project shape? occurrence) tree.spreads placed) :
    OccurrencesOf project shape? [(place, tree)] (⟨place, tree, none⟩ :: placed.flatten) where
  written member mem := by
    rw [List.mem_singleton.mp mem]
    exact List.mem_cons_self
  spreads member mem spread spreadMem := by
    rw [List.mem_singleton.mp mem] at spreadMem
    rcases exists_mem_of_forall₂ ofSpreads spreadMem with ⟨here, hereMem, occurs, -⟩
    refine occurs.mono (fun _ _ same => same) ?_
    intro occurrence occurrenceMem
    exact List.mem_cons_of_mem _ (List.mem_flatten.mpr ⟨here, hereMem, occurrenceMem⟩)
  origin occurrence mem := by
    refine ⟨(place, tree), List.mem_singleton_self _, ?_⟩
    rcases List.mem_cons.mp mem with same | isPlaced
    · exact Or.inl same
    · rcases List.mem_flatten.mp isPlaced with ⟨here, hereMem, occurrenceMem⟩
      rcases exists_mem_of_forall₂_right ofSpreads hereMem with ⟨spread, spreadMem, -, all⟩
      exact Or.inr ⟨spread, spreadMem, all occurrence occurrenceMem⟩

theorem perm (occurrences : OccurrencesOf project shape? members found)
    (sameMembers : members.Perm others) (sameFound : found.Perm more) :
    OccurrencesOf project shape? others more where
  written member mem :=
    sameFound.mem_iff.mp (occurrences.written member (sameMembers.mem_iff.mpr mem))
  spreads member mem spread spreadMem :=
    (occurrences.spreads member (sameMembers.mem_iff.mpr mem) spread spreadMem).mono
      (fun _ _ same => same) fun _ => sameFound.mem_iff.mp
  origin occurrence mem := by
    rcases occurrences.origin occurrence (sameFound.mem_iff.mpr mem) with
      ⟨member, memberMem, origin⟩
    exact ⟨member, sameMembers.mem_iff.mp memberMem, origin⟩

end OccurrencesOf

end Occurrences

namespace Build

/-- Whether entities are allocated where they are asked for under a law, and built fragments stay
as they are. -/
structure LocatesEntities (law : Law) : Prop where
  entityAt : ∀ location typePath, Ensures law (fun _ => True) (entityAt location typePath)
    fun entity _ => entity.location = location
  keepsFragments : ∀ {first second}, law.grows first second → ∀ name shape,
    first.fragment? name = some shape → second.fragment? name = some shape

variable {project : Project} {law : Law}

section Placing

variable {site : Place} {spread : Spread} {fragment : Fragment} {spreadScope : Scope}

theorem ensures_placeOccurrence {inside : Occurrence}
    (locates : LocatesEntities law)
    (narrowed : spread.place.scope.narrow project.schema (.onType fragment.typeCondition)
      = .ok spreadScope) :
    Ensures law (fun _ => True)
      (placeOccurrence project.schema spread.place spreadScope spread.name inside)
      fun outcome _ => ∃ narrowed,
        spread.place.scope.spreadInto? project.schema fragment.typeCondition inside.place.rootScope
            = .ok narrowed
          ∧ (narrowed.isSome → outcome.isSome)
          ∧ ∀ outside ∈ outcome,
            inside.IsPlacement project.schema spread fragment.typeCondition outside := by
  simp only [placeOccurrence]
  apply Ensures.bind (.ofExcept _)
  intro outcome
  apply Ensures.given
  intro narrowedAll
  have spreads : spread.place.scope.spreadInto? project.schema fragment.typeCondition
      inside.place.rootScope = .ok outcome := by
    simp only [Scope.spreadInto?, narrowed]
    exact narrowedAll
  cases outcome with
  | none =>
      apply Ensures.pure
      intro workspace _
      exact ⟨none, spreads, by simp, by simp⟩
  | some scope =>
      apply Ensures.bind (locates.entityAt _ _)
      intro entity
      apply Ensures.given
      intro isLocated
      apply Ensures.pure
      intro workspace _
      refine ⟨some scope, spreads, by simp, ?_⟩
      rintro outside same
      rcases Option.some.inj same with rfl
      have ofPlace : (placeAt spread.place inside.place entity scope).entity = entity := by
        simp only [placeAt]
        split <;> rfl
      refine ⟨⟨scope, spreads, ?_⟩, ?_, rfl, rfl⟩
      · simp only [ofPlace]
      · simp only [ofPlace]
        exact isLocated

/-- What placing the occurrences of a spread fragment finds, if the fragment is built. -/
theorem ensures_placeSpread
    (locates : LocatesEntities law)
    (isDefined : ∃ fragment, project.compilation.spreadFragment? spread.name = some fragment) :
    Ensures law (fun workspace => ∃ shape, workspace.fragment? spread.name = some shape)
      (placeSpread project spread)
      fun placed workspace => spread.Occurs project workspace.fragment? placed
        ∧ ∀ occurrence ∈ placed, spread.Places project workspace.fragment? occurrence := by
  rcases isDefined with ⟨fragment, isFragment⟩
  have isSpread := isFragment
  rcases Compilation.exists_fragment?_of_spreadFragment? isFragment with ⟨document, found⟩
  simp only [placeSpread, found]
  apply Ensures.forSome
  intro shape
  have keeps (first second : Workspace) (growth : law.grows first second) :
      first.fragment? spread.name = some shape → second.fragment? spread.name = some shape :=
    locates.keepsFragments growth spread.name shape
  apply Ensures.bind ((Ensures.ofExcept _).frame keeps)
  intro spreadScope
  apply Ensures.assuming
  intro narrowed
  -- The workspace is read once, when the fragment is still the one that was built before.
  apply Ensures.bind .get
  intro now
  apply Ensures.strengthen (?_ : Ensures law (fun workspace =>
    now.fragmentOccurrences spread.name = shape.occurrences
      ∧ workspace.fragment? spread.name = some shape) _ _) ?_
  · apply Ensures.assuming
    intro same
    rw [same]
    apply Ensures.bind ((Ensures.mapM (fun inside _ =>
      (ensures_placeOccurrence locates narrowed).anywhere) (fun _ _ _ _ _ same => same)
        keeps).frame keeps)
    intro outcomes
    apply Ensures.pure
    rintro workspace ⟨all, isBuilt⟩
    constructor
    · refine ⟨shape, _, isBuilt, isSpread, ?_⟩
      intro inside mem
      rcases exists_mem_of_forall₂ all mem with
        ⟨outcome, outcomeMem, narrowed, spreads, isSome, placements⟩
      refine ⟨narrowed, spreads, ?_⟩
      intro canHold
      rcases Option.isSome_iff_exists.mp (isSome canHold) with ⟨outside, rfl⟩
      exact ⟨outside, List.mem_filterMap.mpr ⟨_, outcomeMem, rfl⟩, placements outside rfl⟩
    · intro outside mem
      rcases List.mem_filterMap.mp mem with ⟨outcome, outcomeMem, isOutside⟩
      rcases exists_mem_of_forall₂_right all outcomeMem with
        ⟨inside, insideMem, narrowed, spreads, isSome, placements⟩
      exact ⟨shape, _, isBuilt, isSpread, inside, insideMem, placements outside isOutside⟩
  · rintro workspace ⟨rfl, isBuilt⟩
    simp [Workspace.fragmentOccurrences, isBuilt]

end Placing

section Occurrences

/-- The occurrences of two lists of written selection sets, found one after the other. -/
theorem ensures_append {members others : List (Place × SelectionTree)}
    {first second : Build (List Occurrence)}
    (locates : LocatesEntities law)
    (ofFirst : Ensures law (fun workspace => AreResolved project workspace.fragment? members) first
      fun found workspace => OccurrencesOf project workspace.fragment? members found)
    (ofSecond : Ensures law (fun workspace => AreResolved project workspace.fragment? others) second
      fun found workspace => OccurrencesOf project workspace.fragment? others found) :
    Ensures law (fun workspace => AreResolved project workspace.fragment? (members ++ others))
      (do let found ← first; return found ++ (← second))
      fun found workspace =>
        OccurrencesOf project workspace.fragment? (members ++ others) found := by
  apply Ensures.bind ((ofFirst.strengthen ?_).frame ?_)
  · intro found
    apply Ensures.bind ((ofSecond.strengthen fun workspace
      (start : OccurrencesOf project workspace.fragment? members found
        ∧ AreResolved project workspace.fragment? (members ++ others)) =>
          start.2.subset fun _ => List.mem_append_right _).frame ?_)
    · intro more
      apply Ensures.pure
      rintro workspace ⟨second, first, -⟩
      exact first.append second
    · rintro before after growth ⟨ofMembers, resolved⟩
      have kept := locates.keepsFragments growth
      exact ⟨ofMembers.mono kept, resolved.mono kept⟩
  · exact fun workspace resolved => resolved.subset fun _ => List.mem_append_left _
  · exact fun before after growth resolved => resolved.mono (locates.keepsFragments growth)

/-- The occurrences of a selection set and of what is below its fields and behind its branches. -/
theorem ensures_occurrences_mk {place : Place} {fields : List TreeField}
    {branches : List TreeBranch} {spreads : List Spread} (locates : LocatesEntities law)
    (ofFields : Ensures law
      (fun workspace => AreResolved project workspace.fragment?
        (SelectionTree.writtenSetsOfFields fields))
      (occurrencesOfFields project fields)
      fun found workspace => OccurrencesOf project workspace.fragment?
        (SelectionTree.writtenSetsOfFields fields) found)
    (ofBranches : Ensures law
      (fun workspace => AreResolved project workspace.fragment?
        (SelectionTree.writtenSetsOfBranches branches))
      (occurrencesOfBranches project branches)
      fun found workspace => OccurrencesOf project workspace.fragment?
        (SelectionTree.writtenSetsOfBranches branches) found) :
    Ensures law
      (fun workspace => AreResolved project workspace.fragment?
        ((SelectionTree.mk fields branches spreads).writtenSets place))
      (occurrences project place (.mk fields branches spreads))
      fun found workspace => OccurrencesOf project workspace.fragment?
        ((SelectionTree.mk fields branches spreads).writtenSets place) found := by
  simp only [occurrences, SelectionTree.writtenSets]
  -- Whether spreads are defined is no matter of the workspace, and so is known for all steps.
  apply Ensures.strengthen (?_ : Ensures law (fun workspace =>
    (∀ spread ∈ spreads, ∃ fragment,
        project.compilation.spreadFragment? spread.name = some fragment)
      ∧ AreResolved project workspace.fragment? ((place, .mk fields branches spreads)
        :: (SelectionTree.writtenSetsOfFields fields
          ++ SelectionTree.writtenSetsOfBranches branches))) _ _) ?_
  · apply Ensures.assuming
    intro areDefined
    apply Ensures.bind ((ofFields.strengthen ?fieldsResolved).frame ?keepResolved)
    intro foundInFields
    apply Ensures.bind ((ofBranches.strengthen ?branchesResolved).frame ?keepFields)
    intro foundInBranches
    apply Ensures.bind ((Ensures.mapM (fun spread mem =>
      (ensures_placeSpread locates (areDefined spread mem)).strengthen
        fun _ start => (start.2.2 _ List.mem_cons_self spread mem).1) ?keepSpread
          ?keepBranches).frame ?keepBranches)
    intro placed
    apply Ensures.pure
    · rintro workspace ⟨ofSpreads, inBranches, inFields, -⟩
      have single := @OccurrencesOf.single project workspace.fragment? place
        (.mk fields branches spreads) placed ofSpreads
      refine (single.append (inFields.append inBranches)).perm (.refl _) ?_
      exact (List.perm_append_comm).cons _
    case fieldsResolved =>
      intro workspace resolved
      exact resolved.subset fun _ mem => List.mem_cons_of_mem _ (List.mem_append_left _ mem)
    case keepResolved =>
      exact fun first second growth resolved => resolved.mono (locates.keepsFragments growth)
    case branchesResolved =>
      rintro workspace ⟨-, resolved⟩
      exact resolved.subset fun _ mem => List.mem_cons_of_mem _ (List.mem_append_right _ mem)
    case keepFields =>
      rintro first second growth ⟨inFields, resolved⟩
      have grows := locates.keepsFragments growth
      exact ⟨inFields.mono grows, resolved.mono grows⟩
    case keepSpread =>
      rintro spread found first second growth ⟨occurs, places⟩
      have grows := locates.keepsFragments growth
      exact ⟨occurs.mono grows fun _ same => same,
        fun occurrence mem => (places occurrence mem).mono grows⟩
    case keepBranches =>
      rintro first second growth ⟨inBranches, inFields, resolved⟩
      have grows := locates.keepsFragments growth
      exact ⟨inBranches.mono grows, inFields.mono grows, resolved.mono grows⟩
  · intro workspace resolved
    exact ⟨fun spread mem => (resolved _ List.mem_cons_self spread mem).2, resolved⟩

mutual

/-- The occurrences of a built tree, if the fragments spread in it are built. -/
theorem ensures_occurrences (locates : LocatesEntities law) (place : Place) :
    (tree : SelectionTree) →
    Ensures law
      (fun workspace => AreResolved project workspace.fragment? (tree.writtenSets place))
      (occurrences project place tree)
      fun found workspace =>
        OccurrencesOf project workspace.fragment? (tree.writtenSets place) found
  | .mk fields branches _ =>
      ensures_occurrences_mk locates (ensures_occurrencesOfFields locates fields)
        (ensures_occurrencesOfBranches locates branches)

theorem ensures_occurrencesOfFields (locates : LocatesEntities law) : (fields : List TreeField) →
    Ensures law
      (fun workspace => AreResolved project workspace.fragment?
        (SelectionTree.writtenSetsOfFields fields))
      (occurrencesOfFields project fields)
      fun found workspace => OccurrencesOf project workspace.fragment?
        (SelectionTree.writtenSetsOfFields fields) found
  | [] => by
      simp only [occurrencesOfFields, SelectionTree.writtenSetsOfFields]
      exact Ensures.pure fun _ _ => .nil
  | .scalar _ :: rest => by
      simp only [occurrencesOfFields, SelectionTree.writtenSetsOfFields]
      exact ensures_occurrencesOfFields locates rest
  | .entity _ place tree :: rest => by
      simp only [occurrencesOfFields, SelectionTree.writtenSetsOfFields]
      exact ensures_append locates (ensures_occurrences locates place tree)
        (ensures_occurrencesOfFields locates rest)

theorem ensures_occurrencesOfBranches (locates : LocatesEntities law) :
    (branches : List TreeBranch) →
    Ensures law
      (fun workspace => AreResolved project workspace.fragment?
        (SelectionTree.writtenSetsOfBranches branches))
      (occurrencesOfBranches project branches)
      fun found workspace => OccurrencesOf project workspace.fragment?
        (SelectionTree.writtenSetsOfBranches branches) found
  | [] => by
      simp only [occurrencesOfBranches, SelectionTree.writtenSetsOfBranches]
      exact Ensures.pure fun _ _ => .nil
  | .mk _ place tree :: rest => by
      simp only [occurrencesOfBranches, SelectionTree.writtenSetsOfBranches]
      exact ensures_append locates (ensures_occurrences locates place tree)
        (ensures_occurrencesOfBranches locates rest)

end

end Occurrences

end Build

end ResponseShape
