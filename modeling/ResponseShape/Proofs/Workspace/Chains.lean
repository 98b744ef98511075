import ResponseShape.Proofs.Workspace.Integrity
import ResponseShape.Proofs.Workspace.Restrictions

/-!
# Chains of selection sets end

What is visible at a set has sets of its own, behind fields and branches, which can be asked in
turn. Such a chain ends (`Session.bounded_of_chain`): each step through a field goes one step on to
an entity of the definition that the chain started in, and each step through a branch puts one
narrowing more on the path of the scope, which is made of what the definition and its fragments ask
for (`SelectionSet.StaysIn`).
-/

namespace ResponseShape

/-- What a step from one selection set to the next goes through. -/
inductive Move where
  | field
  | branch
deriving DecidableEq

/-- The sets that a chain comes to from a start, by steps through what is visible under some
strategy. -/
inductive SelectionSet.Chain (project : Project) (workspace : Workspace) (start : SelectionSet) :
    List Move → SelectionSet → Prop where
  | start : Chain project workspace start [] start
  | field {moves : List Move} {set inner : SelectionSet} {strategy : MergingStrategy}
      {visible : VisibleSelections} {field : Field}
      (chain : Chain project workspace start moves set)
      (run : set.visible project.schema workspace.entities strategy = .ok visible)
      (mem : field ∈ visible.fields) (isInner : field.selectionSet = some inner) :
      Chain project workspace start (moves ++ [.field]) inner
  | branch {moves : List Move} {set : SelectionSet} {strategy : MergingStrategy}
      {visible : VisibleSelections} {branch : Branch}
      (chain : Chain project workspace start moves set)
      (run : set.visible project.schema workspace.entities strategy = .ok visible)
      (mem : branch ∈ visible.branches) :
      Chain project workspace start (moves ++ [.branch]) branch.selectionSet

/-- How a set stands in a workspace and in a definition: its places are there, and the path of its
scope is made of given restrictions. -/
structure SelectionSet.StaysIn (project : Project) (workspace : Workspace) (root : RootField)
    (restrictions : Finset Restriction) (set : SelectionSet) : Prop where
  places : ∀ place ∈ set.places, workspace.HasPlace project place
  placed : set.IsPlacedIn project root
  madeOf : set.place.scope.IsMadeOf restrictions

/-- How far the moves of a chain have led: each step through a field to an entity further away, and
each step through a branch further on the path of the scope. -/
structure SelectionSet.Counts (bound : Nat) (moves : List Move) (set : SelectionSet) : Prop where
  fields : moves.count .field ≤ set.place.entity.location.steps.length
  branches : ∀ latest, latest <:+ moves → .field ∉ latest →
    latest.length < set.place.scope.path.length
  all : moves.length < moves.count .field * (bound + 1) + set.place.scope.path.length

section Towards

variable {project : Project} {schema : Schema} {place other : Place} {scope inside : Scope}
  {type : Name} {key : Narrowing} {restrictions : Finset Restriction}

/-- The scopes of two aligned places of an entity start alike. -/
theorem Place.IsAligned.exists_startsOn (aligned : place.IsAligned project)
    (otherAligned : other.IsAligned project)
    (same : other.entity.location = place.entity.location) :
    ∃ type, place.scope.StartsOn type ∧ other.scope.StartsOn type := by
  have sameTypes : other.entity.typePath = place.entity.typePath := by
    rw [otherAligned.entity_eq, same, ← aligned.entity_eq]
  have scopes := aligned.scopes
  have otherScopes := otherAligned.scopes
  rw [sameTypes] at otherScopes
  rcases List.eq_nil_or_concat place.entity.typePath with none | ⟨before, type, typePath⟩
  · rcases aligned.types with ⟨_, -, typePath⟩
    rw [none] at typePath
    cases typePath
  · rw [typePath, Place.scopes, List.concat_eq_append, forall₂_append_singleton_iff]
      at scopes otherScopes
    exact ⟨type, scopes.2, otherScopes.2⟩

/-- A scope branches towards another that starts alike by what the other is made of. -/
theorem Scope.IsMadeOf.of_branchTowards? (madeOf : inside.IsMadeOf restrictions)
    (reachable : Scope.Reachable schema scope) (starts : scope.StartsOn type)
    (insideStarts : inside.StartsOn type)
    (towards : scope.branchTowards? schema inside = some key) :
    ∀ restriction ∈ key.restrictions, restriction ∈ restrictions := by
  rcases Scope.exists_mem_path_of_branchTowards? towards with ⟨narrowing, mem, isUnknown, rfl⟩
  rcases starts with ⟨further, path⟩
  rcases insideStarts with ⟨_, startPath⟩
  rcases madeOf with ⟨first, rest, insidePath, ofRest⟩
  rw [insidePath, List.cons.injEq] at startPath
  rw [insidePath, startPath.1, List.mem_cons] at mem
  rcases mem with rfl | isFurther
  · have implied := Scope.implies_of_mem_path reachable (path ▸ List.mem_cons_self)
    rw [isUnknown] at implied
    cases implied
  · exact fun restriction isPart =>
      ofRest narrowing isFurther restriction (Scope.mem_restrictions_of_unknownPart isPart)

end Towards

namespace SelectionSet

variable {project : Project} {workspace : Workspace} {definition : DefinitionId} {type : Name}
  {selections : List Selection} {root : RootField} {occurrences : List Occurrence}
  {set inner : SelectionSet} {strategy : MergingStrategy} {visible : VisibleSelections}
  {field : Field} {branch : Branch} {restrictions : Finset Restriction}

theorem StaysIn.length_path_le (stays : set.StaysIn project workspace root restrictions) :
    set.place.scope.path.length ≤ restrictions.card + 1 :=
  stays.placed.reachable_scope.length_path_le stays.madeOf

section Stays

variable (aligned : workspace.IsAligned project)
  (hasBuilt : workspace.HasBuilt project definition type selections root occurrences)

include aligned hasBuilt

theorem staysIn_of_written (hasRoot : workspace.HasRoot root) {member : Place × SelectionTree}
    (mem : member ∈ root.writtenSets) :
    StaysIn project workspace root (project.compilation.restrictions selections)
      ⟨member.1, some member.2⟩ := by
  have depiction := hasBuilt.built.depiction
  refine ⟨aligned.hasPlace_of_written hasRoot mem, (OfferedBy.written mem).isPlacedIn depiction, ?_⟩
  exact (depiction.isMadeOf member mem).1 _ member.1.scope_mem_scopes

namespace StaysIn

variable (stays : set.StaysIn project workspace root (project.compilation.restrictions selections))
  (run : set.visible project.schema workspace.entities strategy = .ok visible)

include stays run

omit hasBuilt in
theorem hasPlace_of_visible : ∀ place ∈ visible.places, workspace.HasPlace project place := by
  have yields := yields_hasPlaces aligned stays.places strategy
  rwa [run] at yields

theorem isInner (mem : field ∈ visible.fields) (isInner : field.selectionSet = some inner) :
    set.IsInner project.schema root field inner :=
  VisibleSelections.isInner_of_mem aligned.sound hasBuilt.built.depiction stays.placed.written run
    mem isInner

theorem of_field (mem : field ∈ visible.fields) (isInner : field.selectionSet = some inner) :
    inner.StaysIn project workspace root (project.compilation.restrictions selections) := by
  have leads := stays.isInner aligned hasBuilt run mem isInner
  refine ⟨fun place placeMem => ?_, stays.placed.of_isInner leads, .of_forType leads.scope⟩
  exact stays.hasPlace_of_visible aligned run place
    (VisibleSelections.mem_places_of_field mem isInner placeMem)

/-- Added branches lead towards what is registered, and so by what the definition asks for. -/
theorem restrictions_of_added (mem : branch ∈ visible.additions.branches) :
    ∀ restriction ∈ branch.key.restrictions,
      restriction ∈ project.compilation.restrictions selections := by
  rcases VisibleSelections.exists_towards run mem with ⟨occurrence, isSeen, towards⟩
  have registered := (mem_seen.mp isSeen).1
  have isDefined : set.place.entity.location.definition = definition := by
    rw [stays.placed.definition, hasBuilt.built.depiction.location]
    rfl
  rcases hasBuilt.alike _ isDefined occurrence registered with ⟨twin, twinMem, like⟩
  have madeOf := aligned.sound.isMadeOf hasBuilt.built twin twinMem _ twin.place.scope_mem_scopes
  rw [like.place.scope] at madeOf
  have occurs := aligned.registered _ occurrence registered _ (SelectionTree.self_mem_places _ _)
  rcases (stays.places _ set.self_mem_places).aligned.exists_startsOn occurs
    (aligned.sound.registered _ _ registered).2 with ⟨type, starts, occurrenceStarts⟩
  exact madeOf.of_branchTowards? stays.placed.reachable_scope starts occurrenceStarts towards

theorem of_branch (mem : branch ∈ visible.branches) : branch.selectionSet.StaysIn project workspace
    root (project.compilation.restrictions selections) := by
  have depiction := hasBuilt.built.depiction
  rcases VisibleSelections.narrowed_of_mem depiction stays.placed.written run mem with
    ⟨narrowed, written⟩
  refine ⟨fun place placeMem => ?_, stays.placed.of_narrowed narrowed written, ?_⟩
  · exact stays.hasPlace_of_visible aligned run place
      (VisibleSelections.mem_places_of_branch mem placeMem)
  · rcases List.mem_append.mp mem with ofDirect | isAdded
    · rw [(hasMerged_of_visible run).2.1] at ofDirect
      rcases mem_directBranches.mp ofDirect with ⟨tree, isTree, branchMem⟩
      rcases (depiction.forall_writtenSets _ (stays.placed.written tree isTree)).1 with
        ⟨_, _, depicts⟩
      rcases (depicts.of_branch branchMem).2 with ⟨below, isBelow, -⟩
      exact (depiction.isMadeOf _ (written below isBelow)).1 _
        branch.selectionSet.place.scope_mem_scopes
    · exact stays.madeOf.narrow (Place.narrowed_eq_ok narrowed).1
        (stays.restrictions_of_added aligned hasBuilt run isAdded)

end StaysIn

end Stays

namespace Counts

variable {bound : Nat} {moves : List Move} {key : Narrowing}

theorem of_start (nonempty : set.place.scope.path ≠ []) : set.Counts bound [] where
  fields := Nat.zero_le _
  branches latest isLatest _ := by
    rw [List.suffix_nil.mp isLatest]
    exact List.length_pos_iff.mpr nonempty
  all := by simpa using List.length_pos_iff.mpr nonempty

/-- Behind a field the path starts anew. -/
theorem of_field (counts : set.Counts bound moves)
    (short : set.place.scope.path.length ≤ bound + 1)
    (isInner : set.IsInner project.schema root field inner) :
    inner.Counts bound (moves ++ [.field]) where
  fields := by
    have further := counts.fields
    simp only [isInner.location, Location.child, Location.joined, List.length_append,
      List.count_append, List.count_singleton_self, List.length_singleton]
    omega
  branches latest isLatest noField := by
    rcases List.suffix_concat_iff.mp isLatest with rfl | ⟨before, rfl, -⟩
    · exact List.length_pos_iff.mpr (Scope.Reachable.forType isInner.scope).path_ne_nil
    · simp at noField
  -- the field is counted with the longest path that it can have left behind
  all := by
    have before := counts.all
    have nonempty := List.length_pos_iff.mpr (Scope.Reachable.forType isInner.scope).path_ne_nil
    rw [List.length_append, List.count_append, List.count_singleton_self, List.length_singleton,
      Nat.add_mul, Nat.one_mul]
    omega

/-- Behind a branch the path has one narrowing more. -/
theorem of_branch (counts : set.Counts bound moves)
    (location : inner.place.entity.location = set.place.entity.location)
    (path : inner.place.scope.path = set.place.scope.path ++ [key]) :
    inner.Counts bound (moves ++ [.branch]) where
  fields := by
    have noField : [Move.branch].count .field = 0 := rfl
    rw [location, List.count_append, noField, Nat.add_zero]
    exact counts.fields
  branches latest isLatest noField := by
    rw [path, List.length_append, List.length_singleton]
    rcases List.suffix_concat_iff.mp isLatest with rfl | ⟨before, rfl, isBefore⟩
    · exact Nat.succ_pos _
    · rw [List.length_append, List.length_singleton]
      refine Nat.succ_lt_succ (counts.branches before isBefore fun mem => ?_)
      exact noField (List.mem_append_left _ mem)
  all := by
    have before := counts.all
    have noField : [Move.branch].count .field = 0 := rfl
    rw [path, List.count_append, noField, Nat.add_zero, List.length_append, List.length_append,
      List.length_singleton, List.length_singleton]
    omega

end Counts

/-- Wherever a chain comes to, the set stays in the definition, and the moves are counted. -/
theorem Chain.staysIn {start : SelectionSet} {moves : List Move}
    (aligned : workspace.IsAligned project)
    (hasBuilt : workspace.HasBuilt project definition type selections root occurrences)
    (stays : start.StaysIn project workspace root (project.compilation.restrictions selections))
    (chain : start.Chain project workspace moves set) :
    set.StaysIn project workspace root (project.compilation.restrictions selections)
      ∧ set.Counts (project.compilation.restrictions selections).card moves := by
  induction chain with
  | start => exact ⟨stays, .of_start stays.placed.reachable_scope.path_ne_nil⟩
  | field _ run mem isInner ih =>
      rcases ih with ⟨stays, counts⟩
      refine ⟨stays.of_field aligned hasBuilt run mem isInner, ?_⟩
      exact counts.of_field stays.length_path_le (stays.isInner aligned hasBuilt run mem isInner)
  | branch _ run mem ih =>
      rcases ih with ⟨stays, counts⟩
      have depiction := hasBuilt.built.depiction
      have written := stays.placed.written
      refine ⟨stays.of_branch aligned hasBuilt run mem, ?_⟩
      have narrowed := (VisibleSelections.narrowed_of_mem depiction written run mem).1
      have path := (VisibleSelections.leadsFrom_of_mem depiction written run mem).path
      rw [(hasMerged_of_visible run).1] at path
      exact counts.of_branch (congrArg _ (Place.narrowed_eq_ok narrowed).2.1) path

theorem Chain.of_prefix {start : SelectionSet} {moves before : List Move}
    (chain : start.Chain project workspace moves set) (isBefore : before <+: moves) :
    ∃ earlier, start.Chain project workspace before earlier := by
  induction chain with
  | start =>
      rw [List.prefix_nil.mp isBefore]
      exact ⟨start, .start⟩
  | field chain run mem isInner ih =>
      rcases List.prefix_concat_iff.mp isBefore with rfl | isEarlier
      · exact ⟨_, chain.field run mem isInner⟩
      · exact ih isEarlier
  | branch chain run mem ih =>
      rcases List.prefix_concat_iff.mp isBefore with rfl | isEarlier
      · exact ⟨_, chain.branch run mem⟩
      · exact ih isEarlier

end SelectionSet

/-- Every chain that starts at a set of a built definition ends. Of its steps no more go through
fields than it takes to the furthest entity of the definition, and between two of these no more go
through branches than there are types, variables and defer boundaries that the definition and the
fragments it reaches ask for. -/
theorem Session.bounded_of_chain {project : Project} {session : Session} {root : RootField}
    (arises : session.Arises project) (offers : session.workspace.Offers root) :
    ∃ typed furthest, project.compilation.Defines root.definition typed
      ∧ root.IsDepiction project root.definition typed.1 typed.2
      ∧ furthest.definition = root.definition
      ∧ session.workspace.entities.IsFurthest furthest
      ∧ ∀ member ∈ root.writtenSets, ∀ moves set,
        (SelectionSet.mk member.1 (some member.2)).Chain project session.workspace moves set →
          moves.count .field ≤ furthest.steps.length
          ∧ (∀ between, between <:+: moves → .field ∉ between →
            between.length ≤ (project.compilation.restrictions typed.2).card)
          ∧ moves.length < (furthest.steps.length + 1)
            * ((project.compilation.restrictions typed.2).card + 1) := by
  rcases arises.exists_logs with ⟨log, logs⟩
  have aligned := logs.isLogged.aligned
  rcases aligned.sound.exists_defines offers.hasRoot with
    ⟨definition, typed, occurrences, defines, hasBuilt⟩
  rcases hasBuilt.built.depiction.definition_eq with rfl
  have rootEntity := aligned.entity?_of_hasRoot offers.hasRoot _
    (SelectionTree.self_mem_places root.place root.selections)
  rcases EntityTable.exists_isFurthest (Option.isSome_of_eq_some rootEntity) with
    ⟨furthest, isHere, isFurthest⟩
  refine ⟨typed, furthest, defines, hasBuilt.built.depiction, isHere, isFurthest, ?_⟩
  intro member mem moves set chain
  have start := SelectionSet.staysIn_of_written aligned hasBuilt offers.hasRoot mem
  rcases chain.staysIn aligned hasBuilt start with ⟨stays, counts⟩
  have fields : moves.count .field ≤ furthest.steps.length := by
    refine counts.fields.trans (isFurthest.longest _ ?_ ?_)
    · rw [stays.placed.definition, isHere]
    · rw [(stays.places _ set.self_mem_places).entity, Option.isSome_some]
  refine ⟨fields, ?_, ?_⟩
  -- where the moves in question end, the chain has come to a set, and they are the latest there
  · rintro between ⟨before, after, split⟩ noField
    rcases chain.of_prefix ⟨after, split⟩ with ⟨earlier, earlierChain⟩
    rcases earlierChain.staysIn aligned hasBuilt start with ⟨stays, counts⟩
    have fewer := counts.branches between ⟨before, rfl⟩ noField
    exact Nat.le_of_lt_succ (fewer.trans_le stays.length_path_le)
  · have all := counts.all.trans_le (Nat.add_le_add_left stays.length_path_le _)
    rw [← Nat.succ_mul] at all
    exact all.trans_le (Nat.mul_le_mul_right _ (Nat.succ_le_succ fields))

/-- Behind the condition, a chain goes on to heroes and from there to humans. -/
theorem Characters.exists_chain : ∃ (root : RootField) (member : Place × SelectionTree)
    (set : SelectionSet), Characters.built.workspace.Offers root ∧ member ∈ root.writtenSets
      ∧ (SelectionSet.mk member.1 (some member.2)).Chain Characters.project
        Characters.built.workspace [.branch, .field, .branch] set := by
  have computes : ((Characters.built.workspace.operation? ⟨0, some "Q"⟩).any fun shape =>
      shape.root.writtenSets.any fun member =>
        ((SelectionSet.mk member.1 (some member.2)).visible Characters.project.schema
          Characters.built.workspace.entities .all).toOption.any fun wide =>
            wide.branches.any fun branch =>
              (branch.selectionSet.visible Characters.project.schema
                Characters.built.workspace.entities .ancestors).toOption.any fun behind =>
                  behind.fields.any fun field => field.selectionSet.any fun inner =>
                    (inner.visible Characters.project.schema
                      Characters.built.workspace.entities .all).toOption.any fun visible =>
                        visible.branches.any fun _ => true) = true := by
    rewrite [Sample.built, Characters.project_eq]
    decide +kernel
  simp only [Option.any_eq_true, List.any_eq_true, and_true] at computes
  rcases computes with ⟨shape, isShape, member, mem, wide, isWide, outer, outerMem, behind,
    isBehind, field, fieldMem, inner, isInner, visible, isVisible, branch, branchMem⟩
  have first := SelectionSet.Chain.start.branch (Build.eq_ok_of_toOption isWide) outerMem
  have second := first.field (Build.eq_ok_of_toOption isBehind) fieldMem isInner
  exact ⟨shape.root, member, branch.selectionSet, Or.inl ⟨_, shape, isShape, rfl⟩, mem,
    second.branch (Build.eq_ok_of_toOption isVisible) branchMem⟩

/-- The chain to humans goes through as many fields as it takes to the heroes, and through no more
branches in a row than the operation asks for. -/
theorem Session.bounded_of_chain_characters : ∃ (session : Session) (root : RootField)
    (typed : TypedSelections) (furthest : Location) (member : Place × SelectionTree)
    (set : SelectionSet),
    session.Arises Characters.project ∧ session.workspace.Offers root
      ∧ member ∈ root.writtenSets
      ∧ (SelectionSet.mk member.1 (some member.2)).Chain Characters.project session.workspace
        [.branch, .field, .branch] set
      ∧ Characters.project.compilation.Defines root.definition typed
      ∧ session.workspace.entities.IsFurthest furthest ∧ 1 ≤ furthest.steps.length
      ∧ 1 ≤ (Characters.project.compilation.restrictions typed.2).card := by
  rcases Characters.exists_chain with ⟨root, member, set, offers, mem, chain⟩
  rcases bounded_of_chain Characters.arises_built offers with
    ⟨typed, furthest, defines, -, -, isFurthest, bounded⟩
  rcases bounded member mem _ set chain with ⟨fields, branches, -⟩
  exact ⟨_, root, typed, furthest, member, set, Characters.arises_built, offers, mem, chain,
    defines, isFurthest, fields, branches [.branch] ⟨[], [.field, .branch], rfl⟩ (by decide)⟩

end ResponseShape
