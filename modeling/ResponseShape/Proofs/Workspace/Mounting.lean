import ResponseShape.Proofs.Scope.Within
import ResponseShape.Proofs.Workspace.Built

/-!
# Where fragments are mounted

A fragment that some occurrence of a definition spreads occurs there as a whole: whatever stands in
a scope within both the occurrence and something inside the fragment finds the latter in the
definition, below the occurrence (`Workspace.IsSound.mounts`). The spread may be written in a
fragment that the definition spreads in turn, through however many fragments; then the outer
fragment, which the inner one is mounted in, is mounted itself.
-/

namespace ResponseShape

section Scopes

variable {schema : Schema} {scope other inside result : Scope} {narrowings : List Narrowing}
  {narrowed : Option Scope} {type : Name} {rest : List Narrowing}

/-- Narrowings that some scope implies are not refused by the scopes that it is within. -/
theorem Build.isWithin_narrowAll? (reachable : Scope.Reachable schema scope)
    (isWithin : other.isWithin scope = true)
    (implied : ∀ narrowing ∈ narrowings, other.implies narrowing = true)
    (run : Build.narrowAll? schema scope narrowings = .ok narrowed) :
    ∃ result, narrowed = some result ∧ other.isWithin result = true := by
  induction narrowings generalizing scope with
  | nil => exact ⟨scope, (Except.ok.inj run).symm, isWithin⟩
  | cons narrowing rest ih =>
      rw [List.forall_mem_cons] at implied
      have admits := Scope.admits_of_implies reachable isWithin implied.1
      simp only [Build.narrowAll?, admits, if_true] at run
      cases once : scope.narrow schema narrowing with
      | error error => simp [once, bind, Except.bind] at run
      | ok next =>
          simp only [once, bind, Except.bind] at run
          exact ih (.narrow reachable once) (Scope.isWithin_narrow once isWithin implied.1)
            implied.2 run

namespace Scope

/-- What lies within a scope and within one inside a fragment lies where the fragment is spread. -/
theorem isWithin_spreadInto? (reachable : Reachable schema scope)
    (path : inside.path = .onType type :: rest) (isWithin : other.isWithin scope = true)
    (isInside : other.isWithin inside = true)
    (run : scope.spreadInto? schema type inside = .ok narrowed) :
    ∃ result, narrowed = some result ∧ other.isWithin result = true := by
  rw [Scope.isWithin, path, List.all_cons, Bool.and_eq_true, List.all_eq_true] at isInside
  simp only [spreadInto?] at run
  cases once : scope.narrow schema (.onType type) with
  | error error => simp [once, bind, Except.bind] at run
  | ok next =>
      simp only [once, bind, Except.bind, applied, path, List.tail_cons] at run
      exact Build.isWithin_narrowAll? (.narrow reachable once)
        (isWithin_narrow once isWithin isInside.1) isInside.2 run

end Scope

end Scopes

/-- Whether an occurrence is one inside a fragment, as it occurs where the fragment is spread at a
site. At the fragment's root its scope is the given one. -/
structure Occurrence.IsMounted (site : Place) (scope : Scope) (inside outside : Occurrence) :
    Prop where
  location : outside.place.entity.location
    = site.entity.location.joined inside.place.entity.location.steps
  scopes : outside.place.scopes = site.enclosing ++ scope :: inside.place.scopes.tail
  selections : outside.selections = inside.selections

/-- Whether whatever is spread among some occurrences is mounted there, for all that can see it. -/
def Workspace.Mounts (project : Project) (workspace : Workspace) (occurrences : List Occurrence) :
    Prop :=
  ∀ site ∈ occurrences, ∀ spread ∈ site.selections.spreads, ∃ shape,
    workspace.fragment? spread.name = some shape ∧ ∀ inside ∈ shape.occurrences, ∀ viewer,
      Scope.Reachable project.schema viewer → viewer.isWithin site.place.scope = true →
      viewer.isWithin inside.place.rootScope = true → ∃ outside ∈ occurrences, ∃ scope,
        inside.IsMounted site.place scope outside ∧ viewer.isWithin scope = true

section Mounting

variable {project : Project} {workspace : Workspace} {shape? : Name → Option FragmentShape}
  {definition : DefinitionId} {type : Name} {selections : List Selection} {root : RootField}
  {occurrences : List Occurrence} {shape : FragmentShape} {fragment : Fragment}
  {member : Place × SelectionTree} {spread : Spread} {inside seat : Occurrence} {scope : Scope}

theorem Occurrence.IsPlacement.isMounted {schema : Schema} {outside : Occurrence}
    (placement : inside.IsPlacement schema spread type outside)
    (spreads : spread.place.scope.spreadInto? schema type inside.place.rootScope
      = .ok (some scope)) : inside.IsMounted spread.place scope outside := by
  rcases placement.place with ⟨known, isKnown, isPlaced⟩
  rcases Option.some.inj (Except.ok.inj (isKnown.symm.trans spreads)) with rfl
  exact ⟨placement.location, by rw [isPlaced, Build.scopes_placeAt], placement.selections⟩

/-- What occurs in a fragment that is written in a definition occurs there, if it can hold. -/
theorem OccurrencesOf.mounts_written {members : List (Place × SelectionTree)}
    (occurs : OccurrencesOf project shape? members occurrences) (memberMem : member ∈ members)
    (spreadMem : spread ∈ member.2.spreads) (isShape : shape? spread.name = some shape)
    (isFragment : project.compilation.spreadFragment? spread.name = some fragment)
    (insideMem : inside ∈ shape.occurrences) :
    ∃ narrowed, spread.place.scope.spreadInto? project.schema fragment.typeCondition
        inside.place.rootScope = .ok narrowed
      ∧ ∀ scope, narrowed = some scope → ∃ outside ∈ occurrences,
        inside.IsMounted spread.place scope outside := by
  rcases occurs.spreads member memberMem spread spreadMem with
    ⟨other, condition, isOther, isCondition, ofSpread⟩
  rcases Option.some.inj (isShape.symm.trans isOther) with rfl
  rcases Option.some.inj (isFragment.symm.trans isCondition) with rfl
  rcases ofSpread inside insideMem with ⟨narrowed, spreads, isPlaced⟩
  refine ⟨narrowed, spreads, ?_⟩
  rintro scope rfl
  rcases isPlaced rfl with ⟨outside, outsideMem, placement⟩
  exact ⟨outside, outsideMem, placement.isMounted spreads⟩

/-- A seat at a fragment's root takes up the scope where the fragment is spread, one below it keeps
its own. -/
theorem Occurrence.IsMounted.cases_enclosing {site : Place} {outside : Occurrence}
    (mounted : seat.IsMounted site scope outside) :
    (seat.place.enclosing = [] ∧ outside.place.enclosing = site.enclosing
        ∧ outside.place.scope = scope)
      ∨ ∃ nested, seat.place.enclosing = seat.place.rootScope :: nested
        ∧ outside.place.enclosing = site.enclosing ++ scope :: nested
        ∧ outside.place.scope = seat.place.scope := by
  have scopes := mounted.scopes
  rw [Place.scopes, Place.scopes] at scopes
  cases isEnclosing : seat.place.enclosing with
  | nil =>
      rw [isEnclosing, List.nil_append, List.tail_cons] at scopes
      rcases List.append_inj' scopes rfl with ⟨enclosing, last⟩
      exact Or.inl ⟨rfl, enclosing, List.singleton_inj.mp last⟩
  | cons first nested =>
      rw [isEnclosing, List.cons_append, List.tail_cons, ← List.cons_append, ← List.append_assoc]
        at scopes
      rcases List.append_inj' scopes rfl with ⟨enclosing, last⟩
      refine Or.inr ⟨nested, ?_, enclosing, List.singleton_inj.mp last⟩
      rw [Place.rootScope, isEnclosing, List.headD_cons]

theorem Occurrence.IsMounted.joined_location {site : Place} {middle outside seated : Occurrence}
    {inner outer : Scope} (mounted : middle.IsMounted site outer outside)
    (isSeated : seat.IsMounted site scope seated)
    (middleMounted : inside.IsMounted seat.place inner middle) :
    outside.place.entity.location
      = seated.place.entity.location.joined inside.place.entity.location.steps := by
  rw [mounted.location, middleMounted.location, isSeated.location]
  simp [Location.joined]

/-- What is mounted at the root of a fragment occurs where the fragment is spread, for whoever can
see both. -/
theorem OccurrencesOf.exists_mounted_of_root {members : List (Place × SelectionTree)}
    {seated middle : Occurrence} {inner viewer : Scope}
    (occurs : OccurrencesOf project shape? members occurrences) (memberMem : member ∈ members)
    (spreadMem : spread ∈ member.2.spreads) (isShape : shape? spread.name = some shape)
    (isFragment : project.compilation.spreadFragment? spread.name = some fragment)
    (reachable : Scope.Reachable project.schema spread.place.scope)
    (isWithin : viewer.isWithin spread.place.scope = true)
    (isSeated : seat.IsMounted spread.place scope seated) (isRoot : seat.place.enclosing = [])
    (enclosing : seated.place.enclosing = spread.place.enclosing)
    (middleMem : middle ∈ shape.occurrences)
    (rooted : ∃ rest, middle.place.rootScope.path = .onType fragment.typeCondition :: rest)
    (middleMounted : inside.IsMounted seat.place inner middle)
    (withinInner : viewer.isWithin inner = true) :
    ∃ outside ∈ occurrences, ∃ result,
      inside.IsMounted seated.place result outside ∧ viewer.isWithin result = true := by
  rcases occurs.mounts_written memberMem spreadMem isShape isFragment middleMem with
    ⟨narrowed, spreads, isMounted⟩
  rcases rooted with ⟨_, path⟩
  have scopes := middleMounted.scopes
  rw [isRoot, List.nil_append, Place.scopes_eq_cons, List.cons.injEq] at scopes
  rcases Scope.isWithin_spreadInto? reachable path isWithin (scopes.1 ▸ withinInner) spreads with
    ⟨result, isResult, withinResult⟩
  rcases isMounted result isResult with ⟨outside, outsideMem, mounted⟩
  refine ⟨outside, outsideMem, result, ⟨?_, ?_, ?_⟩, withinResult⟩
  · exact mounted.joined_location isSeated middleMounted
  · rw [mounted.scopes, scopes.2, enclosing]
  · rw [mounted.selections, middleMounted.selections]

/-- What is mounted below the root of a fragment occurs where the fragment is spread. -/
theorem OccurrencesOf.exists_mounted_of_nested {members : List (Place × SelectionTree)}
    {seated middle : Occurrence} {inner : Scope} {nested : List Scope}
    (occurs : OccurrencesOf project shape? members occurrences) (memberMem : member ∈ members)
    (spreadMem : spread ∈ member.2.spreads) (isShape : shape? spread.name = some shape)
    (isFragment : project.compilation.spreadFragment? spread.name = some fragment)
    (spreads : spread.place.scope.spreadInto? project.schema fragment.typeCondition
      seat.place.rootScope = .ok (some scope))
    (isSeated : seat.IsMounted spread.place scope seated)
    (isNested : seat.place.enclosing = seat.place.rootScope :: nested)
    (enclosing : seated.place.enclosing = spread.place.enclosing ++ scope :: nested)
    (middleMem : middle ∈ shape.occurrences)
    (middleMounted : inside.IsMounted seat.place inner middle) :
    ∃ outside ∈ occurrences, inside.IsMounted seated.place inner outside := by
  rcases occurs.mounts_written memberMem spreadMem isShape isFragment middleMem with
    ⟨narrowed, middleSpreads, isMounted⟩
  have scopes := middleMounted.scopes
  rw [isNested, Place.scopes_eq_cons, List.cons_append, List.cons.injEq] at scopes
  rw [scopes.1, spreads, Except.ok.injEq] at middleSpreads
  rcases isMounted scope middleSpreads.symm with ⟨outside, outsideMem, mounted⟩
  refine ⟨outside, outsideMem, ?_, ?_, ?_⟩
  · exact mounted.joined_location isSeated middleMounted
  · rw [mounted.scopes, scopes.2, enclosing, List.append_assoc, List.cons_append]
  · rw [mounted.selections, middleMounted.selections]

/-- Whatever is spread in a definition is mounted, if this is so in the fragments that it
spreads. -/
theorem RootField.IsBuilt.mounts
    (mounts : ∀ name shape, shape? name = some shape → workspace.fragment? name = some shape
      ∧ shape.name = name ∧ shape.Has project fun _ _ _ occurrences =>
        workspace.Mounts project occurrences)
    (built : root.IsBuilt project shape? definition type selections occurrences) :
    workspace.Mounts project occurrences := by
  intro site siteMem spread spreadMem
  have occurs := built.occurs
  rcases occurs.origin site siteMem with ⟨member, memberMem, origin⟩
  have reachable := (built.depiction.forall_writtenSets member memberMem).2.1
  rcases origin with rfl | ⟨outer, outerMem, shape, fragment, isShape, isFragment, seat, seatMem,
    placement⟩
  · have isSite := built.depiction.place_of_spread memberMem spreadMem
    rcases occurs.spreads member memberMem spread spreadMem with
      ⟨shape, fragment, isShape, isFragment, -⟩
    rcases mounts _ shape isShape with ⟨isKnown, isNamed, known, isDefined, rooted, -⟩
    rw [isNamed, isFragment, Option.some.injEq] at isDefined
    subst isDefined
    refine ⟨shape, isKnown, ?_⟩
    intro inside insideMem viewer _ isWithin isInside
    rcases occurs.mounts_written memberMem spreadMem isShape isFragment insideMem with
      ⟨narrowed, spreads, isMounted⟩
    rw [isSite] at spreads isMounted
    rcases rooted inside insideMem with ⟨rest, path⟩
    rcases Scope.isWithin_spreadInto? reachable path isWithin isInside spreads with
      ⟨scope, isScope, withinScope⟩
    rcases isMounted scope isScope with ⟨outside, outsideMem, mounted⟩
    exact ⟨outside, outsideMem, scope, mounted, withinScope⟩
  · -- The site stands inside an outer fragment, in a seat where the spread is mounted already.
    have isSite := built.depiction.place_of_spread memberMem outerMem
    rw [← isSite] at reachable
    rcases mounts _ shape isShape with ⟨-, isNamed, known, isDefined, rooted, inOuter⟩
    rw [isNamed, isFragment, Option.some.injEq] at isDefined
    subst isDefined
    rcases rooted seat seatMem with ⟨rest, path⟩
    rcases placement.place with ⟨scope, spreads, -⟩
    have seated := placement.isMounted spreads
    rw [seated.selections] at spreadMem
    rcases inOuter seat seatMem spread spreadMem with ⟨inner, isInner, ofInner⟩
    refine ⟨inner, isInner, ?_⟩
    intro inside insideMem viewer viewerReachable isWithin isInside
    -- What is mounted at the seat is in the outer fragment, and so occurs where this one is spread.
    have ofSeat (withinSeat : viewer.isWithin seat.place.scope = true) :=
      ofInner inside insideMem viewer viewerReachable withinSeat isInside
    rcases seated.cases_enclosing with
      ⟨isRoot, enclosing, isScope⟩ | ⟨nested, isNested, enclosing, isScope⟩
    · rw [isScope] at isWithin
      rcases Scope.prefix_spreadInto? reachable spreads with ⟨scopeReachable, further⟩
      have inRoot := scopeReachable.isWithin_trans viewerReachable isWithin
        (Scope.spreadInto?_isWithin reachable path spreads)
      rw [Place.rootScope, isRoot, List.headD_nil] at inRoot
      have inMember := scopeReachable.isWithin_trans viewerReachable isWithin
        (Scope.isWithin_of_extends scopeReachable further)
      rcases ofSeat inRoot with ⟨middle, middleMem, inner, middleMounted, withinInner⟩
      exact occurs.exists_mounted_of_root memberMem outerMem isShape isFragment reachable inMember
        seated isRoot enclosing middleMem (rooted middle middleMem) middleMounted withinInner
    · rw [isScope] at isWithin
      rcases ofSeat isWithin with ⟨middle, middleMem, inner, middleMounted, withinInner⟩
      rcases occurs.exists_mounted_of_nested memberMem outerMem isShape isFragment spreads seated
        isNested enclosing middleMem middleMounted with ⟨outside, outsideMem, mounted⟩
      exact ⟨outside, outsideMem, inner, mounted, withinInner⟩

/-- Whatever is spread in a definition that is built in a workspace is mounted there. -/
theorem Workspace.IsSound.mounts (sound : workspace.IsSound project)
    (built : root.IsBuilt project workspace.fragment? definition type selections occurrences) :
    workspace.Mounts project occurrences :=
  sound.of_isBuilt (motive := fun _ _ _ occurrences => workspace.Mounts project occurrences)
    (fun mounts built => built.mounts mounts) built

end Mounting

end ResponseShape
