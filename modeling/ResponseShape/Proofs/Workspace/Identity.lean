import ResponseShape.Proofs.Workspace.Requests

/-!
# Places identify selection sets

The key of a branch is what the branch asks beyond the scope around it, so narrowing the scope by
the key adds the key to its path and nothing else (`Branch.LeadsFrom`). This holds for what is
written and for what merging adds. The scopes and the location of a place therefore tell which way
leads there, and no two sets that are written in what is built stand at equal places
(`Session.identifies_of_arises`).
-/

namespace ResponseShape

/-- Whether a branch leads on from a place by its key: the path of its scope is that of the place
with the key at the end, and the scope of the place does not imply the key. -/
structure Branch.LeadsFrom (place : Place) (branch : Branch) : Prop where
  path : branch.selectionSet.place.scope.path = place.scope.path ++ [branch.key]
  narrowing : branch.narrowing = branch.key
  isNew : place.scope.implies branch.key = false

section Branches

variable {project : Project} {levels : Nat} {place : Place} {selections : List Selection}
  {tree : SelectionTree} {branch : Branch}

/-- A branch by a key of which nothing is implied leads on by it. -/
theorem Branch.leadsFrom_of_effective
    (effective : place.scope.effective? branch.key = some branch.key)
    (narrowed : place.narrowed project.schema branch.key = .ok branch.selectionSet.place) :
    branch.LeadsFrom place := by
  have path := Scope.path_narrow_effective effective (Place.narrowed_eq_ok narrowed).1
  refine ⟨path, ?_, ?_⟩
  · rw [Branch.narrowing, Scope.innermost, path, List.getLastD_concat]
  · rw [Bool.eq_false_iff]
    intro implied
    rw [Scope.effective?_eq_none_iff.mpr implied] at effective
    cases effective

/-- What is implied at a place is left out of the keys of its branches. -/
theorem Depicts.effective_key (depicts : Depicts project levels place selections tree)
    (mem : branch ∈ tree.branches) : place.scope.effective? branch.key = some branch.key := by
  cases levels with
  | zero => cases depicts
  | succ levels =>
      rcases tree with ⟨fields, branches, spreads⟩
      rcases depicts with ⟨gathered, parts⟩
      rcases List.mem_map.mp mem with ⟨kept, keptMem, rfl⟩
      rcases parts.exists_gathered_branch keptMem with ⟨behind, behindMem, ofBranch⟩
      have orderly := Gathered.isOrderly_gatherAll parts.gathers
      cases ofBranch with
      | kept => exact orderly.effective behind behindMem

theorem Depicts.leadsFrom (depicts : Depicts project levels place selections tree)
    (mem : branch ∈ tree.branches) : branch.LeadsFrom place :=
  Branch.leadsFrom_of_effective (depicts.effective_key mem) (depicts.of_branch mem).1

end Branches

/-- Sets that are written in a definition at equal places are one. -/
theorem RootField.IsDepiction.position_eq {project : Project} {definition : DefinitionId}
    {type : Name} {selections : List Selection} {root : RootField}
    (depiction : root.IsDepiction project definition type selections)
    {position otherPosition : Nat} {member other : Place × SelectionTree}
    (found : root.writtenSets[position]? = some member)
    (otherFound : root.writtenSets[otherPosition]? = some other)
    (same : (member.1 == other.1) = true) : position = otherPosition := by
  rcases depiction.depicts with ⟨_, depicts⟩
  have distinct := List.pairwise_iff_getElem.mp (depicts.pairwise_writtenSets depiction.located)
  rcases List.getElem?_eq_some_iff.mp found with ⟨bound, rfl⟩
  rcases List.getElem?_eq_some_iff.mp otherFound with ⟨otherBound, rfl⟩
  rcases Nat.lt_trichotomy position otherPosition with isBefore | isEqual | isAfter
  · have differ := distinct position otherPosition bound otherBound isBefore
    cases differ.symm.trans same
  · exact isEqual
  · have differ := distinct otherPosition position otherBound bound isAfter
    cases differ.symm.trans (BEq.symm same)

section Views

variable {project : Project} {workspace : Workspace} {definition : DefinitionId} {type : Name}
  {selections : List Selection} {root : RootField} {set : SelectionSet}
  {strategy : MergingStrategy} {visible : VisibleSelections} {branch : Branch}

/-- The branches of what is visible lead on by their keys, be they written or added. -/
theorem VisibleSelections.leadsFrom_of_mem
    (depiction : root.IsDepiction project definition type selections)
    (isWritten : set.IsWrittenIn root)
    (run : set.visible project.schema workspace.entities strategy = .ok visible)
    (mem : branch ∈ visible.branches) : branch.LeadsFrom visible.place := by
  have narrowed := (narrowed_of_mem depiction isWritten run mem).1
  rcases SelectionSet.hasMerged_of_visible run with ⟨isPlace, isDirect, -⟩
  rw [isPlace]
  refine Branch.leadsFrom_of_effective ?_ narrowed
  rw [branches, isDirect, List.mem_append] at mem
  rcases mem with ofDirect | isAdded
  · cases direct : set.direct with
    | none => simp [direct] at ofDirect
    | some tree =>
        rw [direct] at ofDirect
        rcases (depiction.forall_writtenSets _ (isWritten tree direct)).1 with ⟨_, _, depicts⟩
        exact depicts.effective_key ofDirect
  · rcases exists_towards run isAdded with ⟨occurrence, -, towards⟩
    exact (Scope.of_branchTowards? towards).1

end Views

namespace Session

/-- Whether the places in a session tell its selection sets apart. -/
structure Identifies (session : Session) : Prop where
  /-- Each branch that is written leads on from its place by its key. -/
  written : ∀ root, session.workspace.Offers root → ∀ member ∈ root.writtenSets,
    ∀ branch ∈ member.2.branches, branch.LeadsFrom member.1
  /-- So does each branch that is visible. -/
  visible : ∀ visible ∈ session.views, ∀ branch ∈ visible.branches,
    branch.LeadsFrom visible.place
  /-- Sets that are written at equal places are one set of one definition. -/
  distinct : ∀ root other, session.workspace.Offers root → session.workspace.Offers other →
    ∀ (position otherPosition : Nat) (member mate : Place × SelectionTree),
      root.writtenSets[position]? = some member → other.writtenSets[otherPosition]? = some mate →
        (member.1 == mate.1) = true → root = other ∧ position = otherPosition

/-- In every session the places identify the selection sets. -/
theorem identifies_of_arises {project : Project} {session : Session}
    (arises : session.Arises project) : session.Identifies := by
  rcases arises.exists_logs with ⟨log, logs⟩
  have isLogged := logs.isLogged
  have sound := isLogged.aligned.sound
  constructor
  · intro root offers member mem branch branchMem
    rcases sound.hasBuilt offers.hasRoot with ⟨_, _, _, _, hasBuilt⟩
    rcases (hasBuilt.built.depiction.forall_writtenSets member mem).1 with ⟨_, _, depicts⟩
    exact depicts.leadsFrom branchMem
  · intro visible given branch mem
    rcases isLogged.views visible given with ⟨request, requestMem, computed⟩
    rcases isLogged.requests request requestMem with ⟨aligned, -, root, offers, placed⟩
    rcases aligned.sound.hasBuilt offers.hasRoot with ⟨_, _, _, _, hasBuilt⟩
    exact VisibleSelections.leadsFrom_of_mem hasBuilt.built.depiction placed.written computed mem
  · intro root other offers otherOffers position otherPosition member mate found otherFound same
    have placed := SelectionSet.isPlacedIn_of_offers sound offers (List.mem_of_getElem? found)
    have otherPlaced := SelectionSet.isPlacedIn_of_offers sound otherOffers
      (List.mem_of_getElem? otherFound)
    rcases sound.eq_of_offers offers otherOffers
      (placed.definition_eq otherPlaced same) with rfl
    rcases sound.hasBuilt offers.hasRoot with ⟨_, _, _, _, hasBuilt⟩
    exact ⟨rfl, hasBuilt.built.depiction.position_eq found otherFound same⟩

end Session

/-- Behind the condition heroes are only seen, and from there a branch leads on to humans. -/
theorem Characters.exists_branch : ∃ (set inner : SelectionSet) (visible : VisibleSelections)
    (branch : Branch), Characters.built.Holds set ∧ (Characters.viewing [set]).Holds inner
      ∧ inner.direct.isNone ∧ visible ∈ (Characters.viewing [set, inner]).views
      ∧ visible.place = inner.place ∧ branch ∈ visible.branches := by
  have computes : ((Characters.built.workspace.operation? ⟨0, some "Q"⟩).any fun shape =>
      shape.root.writtenSets.any fun member =>
        (Characters.viewing [⟨member.1, some member.2⟩]).views.any fun wide =>
          wide.fields.any fun field => field.selectionSet.any fun inner =>
            inner.direct.isNone
              && (Characters.viewing [⟨member.1, some member.2⟩, inner]).views.any fun visible =>
                decide (visible.place = inner.place) && visible.branches.any fun _ => true)
      = true := by
    simp only [Sample.viewing, Sample.built, Characters.project_eq]
    decide +kernel
  simp only [Option.any_eq_true, List.any_eq_true, Bool.and_eq_true, decide_eq_true_eq, and_true]
    at computes
  rcases computes with ⟨shape, isShape, member, mem, wide, given, field, fieldMem, inner, isInner,
    isMerged, visible, isVisible, isPlace, branch, branchMem⟩
  exact ⟨_, inner, visible, branch, .written (Or.inl ⟨_, shape, isShape, rfl⟩) mem,
    .field given fieldMem isInner, isMerged, isVisible, isPlace, branchMem⟩

/-- The branch towards humans leads on by its key. -/
theorem Session.leadsFrom_characters : ∃ (session : Session) (visible : VisibleSelections)
    (branch : Branch), session.Arises Characters.project ∧ visible ∈ session.views
      ∧ branch ∈ visible.branches ∧ branch.LeadsFrom visible.place := by
  rcases Characters.exists_branch with
    ⟨set, inner, visible, branch, holds, holdsInner, -, given, -, mem⟩
  have arises := (Characters.arises_built.call
    (show Characters.built.Allows (.viewUnder set .all) from holds)).call
    (show Session.Allows _ (.viewUnder inner .all) from holdsInner)
  exact ⟨_, visible, branch, arises, given, mem,
    (identifies_of_arises arises).visible visible given branch mem⟩

end ResponseShape
