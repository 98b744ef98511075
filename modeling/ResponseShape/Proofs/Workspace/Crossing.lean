import ResponseShape.Proofs.Definition.Distinctness
import ResponseShape.Proofs.Scope.Decisions
import ResponseShape.Proofs.Workspace.Boundaries
import ResponseShape.Proofs.Workspace.Mounting

/-!
# Crossing defer boundaries

What a definition lists of its fragments' boundaries, and what of the fragments occurs in it, is
found in two ways: all boundaries are copied, but an occurrence is left out where its conditions
contradict those around the spread. So each boundary that an operation lists is either crossed, by
something that is registered for the operation, or it comes from a spread where nothing that crosses
it can ever hold (`Workspace.Reachable.crosses_or_cutsOff`). The latter does happen
(`Workspace.exists_not_crosses`).
-/

namespace ResponseShape

/-- Whether a place lies behind a boundary, where the path of the boundary leads. -/
structure Place.Crosses (place : Place) (boundary : DeferBoundary) : Prop where
  keys : place.entity.location.responseKeys = boundary.path
  defer : ∃ narrowing ∈ place.scope.path,
    narrowing.defer = some ⟨boundary.label, boundary.variableName⟩

/-- Whether something that is registered for a definition crosses a boundary. -/
def Workspace.Crosses (workspace : Workspace) (definition : DefinitionId)
    (boundary : DeferBoundary) : Prop :=
  ∃ occurrence : Occurrence, occurrence.place.entity.location.definition = definition
    ∧ occurrence ∈ workspace.entities.occurrences occurrence.place.entity.location
    ∧ occurrence.place.Crosses boundary

/-- Whether a definition cuts off a boundary that it lists. It comes from a fragment: nothing there
that crosses it can hold where the fragment is spread, or the fragment cuts it off itself. -/
inductive Workspace.CutsOff (workspace : Workspace) : RootField → DeferBoundary → Prop where
  | here {root : RootField} {member : Place × SelectionTree} {spread : Spread}
      {shape : FragmentShape} {boundary : DeferBoundary}
      (memberMem : member ∈ root.writtenSets) (spreadMem : spread ∈ member.2.spreads)
      (isShape : workspace.fragment? spread.name = some shape)
      (listed : boundary ∈ shape.mentions.boundaries)
      (crossed : ∃ inside ∈ shape.occurrences, inside.place.Crosses boundary)
      (refused : ∀ inside ∈ shape.occurrences, inside.place.Crosses boundary →
        ¬∃ assignment, member.1.scope.permits assignment = true
          ∧ inside.place.rootScope.permits assignment = true) :
      CutsOff workspace root (boundary.rebased member.1.entity.location.responseKeys)
  | inner {root : RootField} {member : Place × SelectionTree} {spread : Spread}
      {shape : FragmentShape} {boundary : DeferBoundary}
      (memberMem : member ∈ root.writtenSets) (spreadMem : spread ∈ member.2.spreads)
      (isShape : workspace.fragment? spread.name = some shape)
      (listed : boundary ∈ shape.mentions.boundaries)
      (cutOff : CutsOff workspace shape.root boundary) :
      CutsOff workspace root (boundary.rebased member.1.entity.location.responseKeys)

/-- Whether each of some boundaries of a definition is crossed by one of its occurrences, or cut
off. -/
def Workspace.Accounts (workspace : Workspace) (root : RootField) (occurrences : List Occurrence)
    (boundaries : List DeferBoundary) : Prop :=
  ∀ boundary ∈ boundaries, (∃ occurrence ∈ occurrences, occurrence.place.Crosses boundary)
    ∨ workspace.CutsOff root boundary

/-- A branch that is kept crosses the boundary that it sets. -/
theorem TreeBranch.crosses_of_boundary? {schema : Schema} {place child : Place} {key : Narrowing}
    {tree : SelectionTree} {boundary : DeferBoundary}
    (effective : place.scope.effective? key = some key)
    (narrowed : place.narrowed schema key = .ok child)
    (isSet : (TreeBranch.mk key child tree).boundary? place.entity.location.responseKeys
      = some boundary) : child.Crosses boundary := by
  rcases Place.narrowed_eq_ok narrowed with ⟨inner, sameEntity, -⟩
  rcases Option.map_eq_some_iff.mp isSet with ⟨defer, isDefer, rfl⟩
  refine ⟨by rw [sameEntity], key, ?_, isDefer⟩
  rw [Scope.path_narrow_effective effective inner]
  exact List.mem_append_right _ (List.mem_singleton_self _)

/-- A boundary on a walk of a tree is crossed by something written in the tree, or it is one of a
fragment that is spread there. -/
theorem Depicts.crosses_or_spreads {project : Project} {own : Name → Option (List DeferBoundary)}
    {levels : Nat} {place : Place} {selections : List Selection} {tree : SelectionTree}
    {found : List DeferBoundary} {boundary : DeferBoundary}
    (depicts : Depicts project levels place selections tree) (located : tree.IsLocated place)
    (walk : tree.boundaries? own place.entity.location.responseKeys = some found)
    (mem : boundary ∈ found) :
    ∃ member ∈ tree.writtenSets place, member.1.Crosses boundary
      ∨ ∃ spread ∈ member.2.spreads, ∃ boundaries, own spread.name = some boundaries
        ∧ ∃ inner ∈ boundaries,
          inner.rebased member.1.entity.location.responseKeys = boundary := by
  induction levels generalizing place selections tree found with
  | zero => cases depicts
  | succ levels ih =>
      rcases tree with ⟨fields, branches, spreads⟩
      rcases depicts with ⟨gathered, parts⟩
      rcases SelectionTree.cases_of_mem_boundaries? walk mem with
        ⟨summary, child, tree, fieldMem, below, isBelow, inBelow⟩
        | ⟨key, child, tree, branchMem, crossing⟩ | ⟨spread, spreadMem, isSpread⟩
      · rcases parts.stays located fieldMem with ⟨⟨_, childDepicts⟩, childLocated, -⟩
        have keys : child.entity.location.responseKeys
            = place.entity.location.responseKeys ++ [summary.responseKey] := by
          simp [(located.of_field fieldMem).1, Location.child, Location.joined,
            Location.responseKeys]
        rw [← keys] at isBelow
        rcases ih childDepicts childLocated isBelow inBelow with ⟨member, memberMem, crosses⟩
        exact ⟨member, SelectionTree.mem_writtenSets.mpr
          (Or.inr (Or.inl ⟨_, _, _, fieldMem, memberMem⟩)), crosses⟩
      · rcases parts.exists_gathered_branch branchMem with ⟨behind, behindMem, ofBranch⟩
        have effective := (Gathered.isOrderly_gatherAll parts.gathers).effective _ behindMem
        have written {member : Place × SelectionTree} (below : member ∈ tree.writtenSets child) :
            member ∈ SelectionTree.writtenSets place (.mk fields branches spreads) :=
          SelectionTree.mem_writtenSets.mpr (Or.inr (Or.inr ⟨_, _, _, branchMem, below⟩))
        cases ofBranch with
        | kept narrowed childDepicts _ =>
            rcases crossing with isSet | ⟨deeper, isDeeper, inDeeper⟩
            · exact ⟨(child, tree), written (SelectionTree.self_mem_writtenSets _ _),
                Or.inl (TreeBranch.crosses_of_boundary? effective narrowed isSet)⟩
            · rw [← (Place.narrowed_eq_ok narrowed).2.1] at isDeeper
              rcases ih childDepicts (located.of_branch branchMem) isDeeper inDeeper with
                ⟨member, memberMem, crosses⟩
              exact ⟨member, written memberMem, crosses⟩
      · exact ⟨_, SelectionTree.self_mem_writtenSets _ _, Or.inr ⟨spread, spreadMem, isSpread⟩⟩

/-- What crosses a boundary inside a fragment crosses it where the fragment is mounted. -/
theorem Occurrence.IsMounted.crosses {schema : Schema} {site : Place} {scope : Scope}
    {inside outside : Occurrence} {type : Name} {rest : List Narrowing} {boundary : DeferBoundary}
    (mounted : inside.IsMounted site scope outside)
    (reachable : Scope.Reachable schema site.scope)
    (path : inside.place.rootScope.path = .onType type :: rest)
    (spread : site.scope.spreadInto? schema type inside.place.rootScope = .ok (some scope))
    (crosses : inside.place.Crosses boundary) :
    outside.place.Crosses (boundary.rebased site.entity.location.responseKeys) := by
  rcases crosses with ⟨keys, narrowing, onPath, isDefer⟩
  constructor
  · simp only [mounted.location, Location.joined, Location.responseKeys, List.map_append,
      DeferBoundary.rebased, ← keys]
  · rcases mounted.cases_enclosing with ⟨isRoot, -, isScope⟩ | ⟨_, -, -, isScope⟩
    · -- The scope at the fragment's root is taken up by the one around, which knows the boundary.
      have within := Scope.spreadInto?_isWithin reachable path spread
      rw [Place.rootScope, isRoot, List.headD_nil] at within
      have implied := List.all_eq_true.mp within narrowing onPath
      have follows := (Scope.prefix_spreadInto? reachable spread).1.followsFromPath
      rw [isScope]
      exact follows.mem_knownDefers.mp ((Scope.implies_iff.mp implied).2.2 _ isDefer)
    · rw [isScope]
      exact ⟨narrowing, onPath, isDefer⟩

section Definitions

variable {project : Project} {workspace : Workspace} {definition : DefinitionId} {type : Name}
  {selections : List Selection} {root : RootField} {occurrences : List Occurrence}
  {own : Name → Option (List DeferBoundary)} {boundary : DeferBoundary}

/-- Each boundary on a walk of a definition is crossed there or cut off, if so it is in the
fragments. -/
theorem RootField.IsBuilt.accounts (sound : workspace.IsSound project)
    (built : root.IsBuilt project workspace.fragment? definition type selections occurrences)
    (ofFragments : ∀ name boundaries, own name = some boundaries →
      ∃ shape, workspace.fragment? name = some shape ∧ shape.mentions.boundaries = boundaries
        ∧ workspace.Accounts shape.root shape.occurrences boundaries)
    {found : List DeferBoundary} (walk : root.selections.boundaries? own [] = some found) :
    workspace.Accounts root occurrences found := by
  intro boundary mem
  have depiction := built.depiction
  rcases depiction.depicts with ⟨levels, depicts⟩
  have start : root.place.entity.location.responseKeys = [] := by rw [depiction.location]; rfl
  rw [← start] at walk
  rcases depicts.crosses_or_spreads depiction.located walk mem with
    ⟨member, memberMem, crosses | ⟨spread, spreadMem, boundaries, isOwn, inner, listed, rfl⟩⟩
  · exact Or.inl ⟨_, built.occurs.written member memberMem, crosses⟩
  rcases ofFragments _ _ isOwn with ⟨shape, isShape, rfl, ofShape⟩
  rcases ofShape inner listed with crossed | cutOff
  · by_cases placed : ∃ outside ∈ occurrences,
        outside.place.Crosses (inner.rebased member.1.entity.location.responseKeys)
    · exact Or.inl placed
    · refine Or.inr (.here memberMem spreadMem isShape listed crossed ?_)
      rintro inside insideMem crosses ⟨assignment, outer, permits⟩
      apply placed
      have isNamed : shape.name = spread.name := by simpa using List.find?_some isShape
      rcases sound.hasBuilt_of_fragment (List.mem_of_find?_eq_some isShape) with
        ⟨fragment, isFragment, hasBuilt⟩
      rcases (hasBuilt.built.rooted inside insideMem).type with ⟨rest, path⟩
      have reachable := (depiction.forall_writtenSets member memberMem).2.1
      rcases built.occurs.mounts_written memberMem spreadMem isShape (isNamed ▸ isFragment)
        insideMem with ⟨narrowed, spreads, isMounted⟩
      rw [depiction.place_of_spread memberMem spreadMem] at spreads isMounted
      cases narrowed with
      | none =>
          rw [Scope.permits_eq_false_of_spreadInto?_eq_none reachable path spreads outer] at permits
          cases permits
      | some scope =>
          rcases isMounted scope rfl with ⟨outside, outsideMem, mounted⟩
          exact ⟨outside, outsideMem, mounted.crosses reachable path spreads crosses⟩
  · exact Or.inr (.inner memberMem spreadMem isShape listed cutOff)

namespace Workspace

/-- So it is in all fragments, by induction along their builds. -/
theorem IsSound.accounts_fragment (sound : workspace.IsSound project)
    (lists : workspace.IsListed project) : ∀ shape ∈ workspace.fragments,
      workspace.Accounts shape.root shape.occurrences shape.mentions.boundaries := by
  refine sound.forall_fragments
    (motive := fun shape => workspace.Accounts shape.root shape.occurrences _) ?_
  intro before shape after split _ earlier
  have isFragment : shape ∈ workspace.fragments := by simp [split]
  rcases sound.hasBuilt_of_fragment isFragment with ⟨_, -, hasBuilt⟩
  refine hasBuilt.built.accounts sound ?_ (lists.fragments before shape after split).lists
  intro name boundaries isOwn
  rcases Option.map_eq_some_iff.mp isOwn with ⟨other, isOther, rfl⟩
  exact ⟨other, fragment?_of_before split isOther, rfl,
    earlier other (List.mem_of_find?_eq_some isOther)⟩

/-- Each boundary that an operation lists is crossed by something that is registered for it, or it
comes from a spread of a fragment of which nothing that crosses the boundary can hold there. -/
theorem Reachable.crosses_or_cutsOff {key : OperationKey} {shape : OperationShape}
    (reachable : Workspace.Reachable project workspace)
    (isBuilt : (key, shape) ∈ workspace.operations)
    (listed : boundary ∈ shape.mentions.boundaries) :
    workspace.Crosses shape.root.place.entity.location.definition boundary
      ∨ workspace.CutsOff shape.root boundary := by
  have sound := isSound_of_reachable reachable
  have lists := isListed_of_reachable reachable
  rcases sound.hasBuilt_of_operation isBuilt with ⟨definition, _, _, occurrences, hasBuilt⟩
  refine (hasBuilt.built.accounts sound ?_ (lists.operations key shape isBuilt) boundary
    listed).imp_left ?_
  · intro name boundaries isOwn
    rcases Option.map_eq_some_iff.mp isOwn with ⟨other, isOther, rfl⟩
    exact ⟨other, isOther, rfl,
      sound.accounts_fragment lists other (List.mem_of_find?_eq_some isOther)⟩
  · rintro ⟨occurrence, occurrenceMem, crosses⟩
    refine ⟨occurrence, ?_, hasBuilt.registered occurrence occurrenceMem, crosses⟩
    rw [(hasBuilt.built.rooted occurrence occurrenceMem).definition,
      hasBuilt.built.depiction.location]
    rfl

end Workspace

end Definitions

/-- A sample that spreads a fragment where the one boundary in it can never be crossed: where a
variable is false, and the fragment defers what it selects if the variable is true. -/
def Vetoes : Sample where
  schemaText :=
    "directive @defer(label: String, if: Boolean! = true) on FRAGMENT_SPREAD | INLINE_FRAGMENT "
      ++ "type Query \x7b id: ID \x7d"
  sources :=
    [⟨"d.graphql",
      "query Q($a: Boolean!) \x7b ...F @skip(if: $a) \x7d "
        ++ "fragment F on Query \x7b ... @include(if: $a) @defer(label: \"x\") \x7b id \x7d \x7d"⟩]
  isValid := by decide +kernel

/-- The operation lists a boundary at its root, and nothing at its root lies behind one. -/
theorem Vetoes.exists_uncrossed : ∃ key shape boundary,
    (key, shape) ∈ Vetoes.workspace.operations
    ∧ boundary ∈ shape.mentions.boundaries
    ∧ ¬Vetoes.workspace.Crosses shape.root.place.entity.location.definition boundary := by
  have computes : (Vetoes.workspace.operations.any fun operation =>
      operation.2.mentions.boundaries.any fun boundary => boundary.path.isEmpty
        && (Vetoes.workspace.entities.occurrences
          (.root operation.2.root.place.entity.location.definition)).all fun occurrence =>
            occurrence.place.scope.path.all (·.defer.isNone)) = true := by
    rewrite [Vetoes.workspace_eq, Vetoes.project_eq]
    decide +kernel
  simp only [List.any_eq_true, List.all_eq_true, Bool.and_eq_true, List.isEmpty_iff,
    Option.isNone_iff_eq_none] at computes
  rcases computes with ⟨⟨key, shape⟩, isBuilt, boundary, listed, atRoot, undeferred⟩
  refine ⟨key, shape, boundary, isBuilt, listed, ?_⟩
  rintro ⟨occurrence, isDefinition, registered, keys, narrowing, onPath, isDefer⟩
  have steps : occurrence.place.entity.location.steps = [] :=
    List.map_eq_nil_iff.mp (keys.trans atRoot)
  have location : occurrence.place.entity.location
      = .root shape.root.place.entity.location.definition := by
    rw [← isDefinition, Location.root, ← steps]
  rw [location] at registered
  rw [undeferred occurrence registered narrowing onPath] at isDefer
  cases isDefer

/-- The boundary in that fragment is cut off. -/
theorem Workspace.Reachable.cutsOff_vetoes : ∃ key shape boundary,
    (key, shape) ∈ Vetoes.workspace.operations ∧ boundary ∈ shape.mentions.boundaries
    ∧ Vetoes.workspace.CutsOff shape.root boundary := by
  rcases Vetoes.exists_uncrossed with ⟨key, shape, boundary, isBuilt, listed, uncrossed⟩
  exact ⟨key, shape, boundary, isBuilt, listed,
    (Workspace.Reachable.crosses_or_cutsOff Vetoes.reachable isBuilt listed).resolve_left uncrossed⟩

/-- A boundary that an operation lists may be crossed by nothing that is registered for it. -/
theorem Workspace.exists_not_crosses : ∃ (schemaText : String) (sources : List SourceText)
    (project : Project) (workspace : Workspace) (key : OperationKey) (shape : OperationShape)
    (boundary : DeferBoundary),
    Compilation.validated? schemaText sources = some project.compilation
    ∧ Workspace.Reachable project workspace ∧ (key, shape) ∈ workspace.operations
    ∧ boundary ∈ shape.mentions.boundaries
    ∧ ¬workspace.Crosses shape.root.place.entity.location.definition boundary := by
  rcases Vetoes.exists_uncrossed with ⟨key, shape, boundary, isBuilt, listed, uncrossed⟩
  exact ⟨_, _, Vetoes.project, Vetoes.workspace, key, shape, boundary, Vetoes.validated?_eq_some,
    Vetoes.reachable, isBuilt, listed, uncrossed⟩

end ResponseShape
