import ResponseShape.Definition.Selections
import ResponseShape.Proofs.Ordered
import ResponseShape.Proofs.Workspace.Runs

/-!
# Properties that are built up

A selection set is built from its parts (`Build.ensures_selections_of_parts`), and what it mentions
is put together from what they mention. A property of built parts that follows these rules
(`PartProperty.Composes`) holds of whatever is built (`PartProperty.Composes.ensures_selections`).
What the rules leave open is what is known of the fragments that spreads ask for.

A branch that is dropped is no part of what it was built for, and there was nothing to mention for
it (`Build.exists_mentions_eq_empty_of_dropped`).
-/

namespace ResponseShape.Build

section Parts

variable {project : Project} {law : Law} {fragment : Name → Build FragmentShape} {levels : Nat}
  {path : List Name} {place : Place} {written : List Selection}
  {ofField : GatheredField → Built TreeField → Workspace → Prop}
  {ofBranch : Narrowing × List Selection → Option (Built TreeBranch) → Workspace → Prop}
  {ofSpread : Name → Built Spread → Workspace → Prop}
  {ofTree : Built SelectionTree → Workspace → Prop}

/-- The parts of a selection set are built one after the other. What is ensured of each of them is
known of all when the last one is built, if it lasts while workspaces grow. -/
theorem ensures_selections_of_parts
    (ensuresField : ∀ gathered, Ensures law (fun _ => True)
      (field project (selections project fragment levels) path place gathered) (ofField gathered))
    (ensuresBranch : ∀ gathered, Ensures law (fun _ => True)
      (branch project (selections project fragment levels) path place gathered)
      (ofBranch gathered))
    (ensuresSpread : ∀ name, Ensures law (fun _ => True) (spread fragment path place name)
      (ofSpread name))
    (field_stays : ∀ gathered built first second, law.grows first second →
      ofField gathered built first → ofField gathered built second)
    (branch_stays : ∀ gathered outcome first second, law.grows first second →
      ofBranch gathered outcome first → ofBranch gathered outcome second)
    (spread_stays : ∀ name built first second, law.grows first second →
      ofSpread name built first → ofSpread name built second)
    (tree : ∀ gathered fields branches spreads workspace,
      Gathered.gatherAll project.compilation project.config.recursionLimit place.scope levels .empty
        written = .ok gathered →
      List.Forall₂ (ofField · · workspace) gathered.fields fields →
      List.Forall₂ (ofBranch · · workspace) gathered.branches branches →
      List.Forall₂ (ofSpread · · workspace) gathered.spreads spreads →
        ofTree ⟨.mk (Built.sequence fields).value (Built.sequence (branches.filterMap id)).value
          (Built.sequence spreads).value, (Built.sequence fields).mentions
            ++ (Built.sequence (branches.filterMap id)).mentions
            ++ (Built.sequence spreads).mentions⟩ workspace) :
    Ensures law (fun _ => True) (selections project fragment (levels + 1) path place written)
      ofTree := by
  simp only [selections]
  apply Ensures.bind (.ofExcept _)
  intro gathered
  apply Ensures.given
  intro gathers
  apply Ensures.bind (.mapM (fun member _ => ensuresField member) field_stays
    fun _ _ _ _ => trivial)
  intro fields
  apply Ensures.bind ((Ensures.mapM (fun member _ => (ensuresBranch member).anywhere) branch_stays
    ?fieldsStay).frame ?fieldsStay)
  intro branches
  apply Ensures.bind ((Ensures.mapM (fun name _ => (ensuresSpread name).anywhere) spread_stays
    ?branchesStay).frame ?branchesStay)
  intro spreads
  · apply Ensures.pure
    rintro workspace ⟨ofSpreads, ofBranches, ofFields⟩
    exact tree gathered fields branches spreads workspace gathers ofFields ofBranches ofSpreads
  case fieldsStay =>
    exact fun first second growth ofFields =>
      ofFields.imp fun member built => field_stays member built first second growth
  case branchesStay =>
    rintro first second growth ⟨ofBranches, ofFields⟩
    exact ⟨ofBranches.imp fun member outcome => branch_stays member outcome first second growth,
      ofFields.imp fun member built => field_stays member built first second growth⟩

/-- A selection set with nothing in it mentions nothing: what has been dropped on the way leaves
nothing behind. -/
theorem mentions_eq_empty_of_isEmpty {workspace : Workspace} {built : Built SelectionTree}
    (run : ((selections project fragment levels path place written).runIn workspace).1 = .ok built)
    (empty : built.value.isEmpty = true) : built.mentions = .empty := by
  cases levels with
  | zero => cases run
  | succ levels =>
      have ensures : Ensures Law.none (fun _ => True)
          (selections project fragment (levels + 1) path place written)
          fun built _ => built.value.isEmpty = true → built.mentions = .empty := by
        refine ensures_selections_of_parts (fun _ => .anything _) (fun _ => .anything _)
          (fun _ => .anything _) (fun _ _ _ _ _ => id) (fun _ _ _ _ _ => id)
          (fun _ _ _ _ _ => id) ?_
        intro gathered fields branches spreads _ _ _ _ _ empty
        simp only [SelectionTree.isEmpty, Built.sequence, Bool.and_eq_true, List.isEmpty_iff,
          List.map_eq_nil_iff] at empty
        rcases empty with ⟨⟨noFields, noBranches⟩, noSpreads⟩
        simp only [noFields, noBranches, noSpreads]
        rfl
      exact (ensures workspace trivial trivial).2.2 built run empty

/-- A branch is dropped only if what has been built behind it mentions nothing, so that nothing of
what is mentioned has to be taken back. -/
theorem exists_mentions_eq_empty_of_dropped {workspace : Workspace}
    {gathered : Narrowing × List Selection}
    (dropped : ((branch project (selections project fragment levels) path place gathered).runIn
      workspace).1 = .ok none) :
    ∃ child built, place.narrowed project.schema gathered.1 = .ok child
      ∧ ((selections project fragment levels path child gathered.2).runIn workspace).1 = .ok built
      ∧ built.value.isEmpty = true ∧ built.mentions = .empty := by
  simp only [branch, runIn_bind, runIn_ofExcept] at dropped
  cases narrowed : place.narrowed project.schema gathered.1 with
  | error error => simp [narrowed] at dropped
  | ok child =>
      simp only [narrowed] at dropped
      split at dropped
      next built between run =>
        have run := congrArg Prod.fst run
        split at dropped
        next empty =>
          exact ⟨child, built, rfl, run, empty, mentions_eq_empty_of_isEmpty run empty⟩
        next => cases dropped
      next => cases dropped

end Parts

/-- What is to hold of the parts of a definition, at the response keys that lead to them and in a
workspace. -/
structure PartProperty where
  ofTree : List Name → Built SelectionTree → Workspace → Prop
  ofField : List Name → Built TreeField → Workspace → Prop
  ofBranch : List Name → Built TreeBranch → Workspace → Prop
  ofSpread : List Name → Built Spread → Workspace → Prop

/-- Whether a property goes over from parts to what is built of them, if a fragment of a name is
known to be of a certain shape, and lasts while workspaces grow. -/
structure PartProperty.Composes (property : PartProperty) (law : Law)
    (known : Name → FragmentShape → Workspace → Prop) : Prop where
  scalar : ∀ path summary workspace, property.ofField path ⟨.scalar summary, .empty⟩ workspace
  entity : ∀ path summary place built workspace,
    property.ofTree (path ++ [summary.responseKey]) built workspace →
      property.ofField path ⟨.entity summary place built.value, built.mentions⟩ workspace
  branch : ∀ path key place built workspace, property.ofTree path built workspace →
    property.ofBranch path
      ⟨.mk key place built.value, crossed path place key ++ built.mentions⟩ workspace
  spread : ∀ path name place conditions shape workspace, known name shape workspace →
    property.ofSpread path ⟨⟨name, place, conditions⟩,
      ⟨appendAllNew [name] shape.mentions.fragments,
        shape.mentions.boundaries.map (·.rebased path)⟩⟩ workspace
  tree : ∀ path (fields : List (Built TreeField)) (branches : List (Built TreeBranch))
    (spreads : List (Built Spread)) workspace,
    (∀ field ∈ fields, property.ofField path field workspace) →
    (∀ branch ∈ branches, property.ofBranch path branch workspace) →
    (∀ spread ∈ spreads, property.ofSpread path spread workspace) →
      property.ofTree path ⟨.mk (Built.sequence fields).value (Built.sequence branches).value
        (Built.sequence spreads).value, (Built.sequence fields).mentions
          ++ (Built.sequence branches).mentions ++ (Built.sequence spreads).mentions⟩ workspace
  field_stays : ∀ path field first second, law.grows first second →
    property.ofField path field first → property.ofField path field second
  branch_stays : ∀ path branch first second, law.grows first second →
    property.ofBranch path branch first → property.ofBranch path branch second
  spread_stays : ∀ path spread first second, law.grows first second →
    property.ofSpread path spread first → property.ofSpread path spread second

namespace PartProperty.Composes

variable {property : PartProperty} {project : Project} {law : Law}
  {known : Name → FragmentShape → Workspace → Prop} {fragment : Name → Build FragmentShape}
  {nested : Nested} {path : List Name} {place : Place} (composes : property.Composes law known)

include composes

section Parts

variable (ofNested : ∀ path place selections, Ensures law (fun _ => True)
  (nested path place selections) (property.ofTree path))

include ofNested

theorem ensures_field {gathered : GatheredField}
    (ofEntity : ∀ location typePath,
      Ensures law (fun _ => True) (entityAt location typePath) fun _ _ => True) :
    Ensures law (fun _ => True) (field project nested path place gathered)
      (property.ofField path) := by
  simp only [field]
  apply Ensures.bind (.ofExcept _)
  intro isComposite
  split
  next =>
    apply Ensures.anywhere
    apply Ensures.bind (ofEntity _ _)
    intro entity
    apply Ensures.bind (.ofExcept _)
    intro child
    apply Ensures.anywhere
    apply Ensures.bind (ofNested _ child gathered.selections)
    intro built
    exact Ensures.pure (composes.entity path (.ofSelection gathered.field gathered.conditions) child
      built)
  next => exact Ensures.pure fun workspace _ => composes.scalar path _ workspace

theorem ensures_branch {gathered : Narrowing × List Selection} :
    Ensures law (fun _ => True) (Build.branch project nested path place gathered)
      fun outcome workspace => ∀ built ∈ outcome, property.ofBranch path built workspace := by
  rcases gathered with ⟨key, selections⟩
  simp only [Build.branch]
  apply Ensures.bind (.ofExcept _)
  intro child
  apply Ensures.anywhere
  apply Ensures.bind (ofNested path child selections)
  intro built
  split
  next => exact Ensures.pure fun _ _ => by simp
  next =>
    apply Ensures.pure
    intro workspace ofTree other same
    rcases Option.some.inj same with rfl
    exact composes.branch path key child built workspace ofTree

end Parts

theorem ensures_spread {name : Name}
    (ofFragment : Ensures law (fun _ => True) (fragment name) (known name)) :
    Ensures law (fun _ => True) (Build.spread fragment path place name)
      (property.ofSpread path) := by
  simp only [Build.spread]
  apply Ensures.bind ofFragment
  intro shape
  exact Ensures.pure (composes.spread path name place _ shape)

/-- Whatever is built for selections has a property that is built up. -/
theorem ensures_selections
    (ofEntity : ∀ location typePath,
      Ensures law (fun _ => True) (entityAt location typePath) fun _ _ => True)
    (ofFragment : ∀ name, Ensures law (fun _ => True) (fragment name) (known name))
    (levels : Nat) (path : List Name) (place : Place) (written : List Selection) :
    Ensures law (fun _ => True) (selections project fragment levels path place written)
      (property.ofTree path) := by
  induction levels generalizing path place written with
  | zero => exact .throw _
  | succ levels ih =>
      refine ensures_selections_of_parts (fun _ => composes.ensures_field ih ofEntity)
        (fun _ => composes.ensures_branch ih)
        (fun name => composes.ensures_spread (ofFragment name))
        (fun _ => composes.field_stays path) ?_ (fun _ => composes.spread_stays path) ?_
      · intro _ outcome first second growth ofOutcome built isBuilt
        exact composes.branch_stays path built first second growth (ofOutcome built isBuilt)
      · intro gathered fields branches spreads workspace _ ofFields ofBranches ofSpreads
        apply composes.tree
        · intro built mem
          rcases exists_mem_of_forall₂_right ofFields mem with ⟨_, -, ofField⟩
          exact ofField
        · intro built mem
          rcases List.mem_filterMap.mp mem with ⟨outcome, outcomeMem, isBuilt⟩
          rcases exists_mem_of_forall₂_right ofBranches outcomeMem with ⟨_, -, ofOutcome⟩
          exact ofOutcome built isBuilt
        · intro built mem
          rcases exists_mem_of_forall₂_right ofSpreads mem with ⟨_, -, ofSpread⟩
          exact ofSpread

end PartProperty.Composes

end ResponseShape.Build
