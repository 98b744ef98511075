import ResponseShape.Proofs.Definition.Boundaries
import ResponseShape.Proofs.Workspace.Calls
import ResponseShape.Proofs.Workspace.Steps

/-!
# Defer boundaries of definitions

A definition mentions the defer boundaries that a walk of its tree crosses, in order
(`Call.boundaries?_of_run`). What a fragment mentions is fixed when it is stored, so the invariant
is one of workspaces: each fragment lists its boundaries with those built before it. Were a
fragment stored twice under one name, both would list the same, as both depict the same selections;
so the boundaries of a name never change.
-/

namespace ResponseShape

section Listing

variable {project : Project} {workspace : Workspace}

/-- The boundaries of the fragment that a name stands for among built ones. -/
def FragmentShape.boundariesAmong (fragments : List FragmentShape) (name : Name) :
    Option (List DeferBoundary) :=
  (fragments.find? (·.name == name)).map (·.mentions.boundaries)

/-- The boundaries of the built fragment of a name. -/
def Workspace.boundaries? (workspace : Workspace) (name : Name) : Option (List DeferBoundary) :=
  (workspace.fragment? name).map (·.mentions.boundaries)

/-- Whether a fragment depicts its definition, and mentions the boundaries that a walk of it
crosses, with the fragments built before. -/
structure FragmentShape.IsListed (project : Project) (before : List FragmentShape)
    (shape : FragmentShape) : Prop where
  depicts : ∃ fragment levels place,
    project.compilation.spreadFragment? shape.name = some fragment
      ∧ Scope.forType project.schema fragment.typeCondition = .ok place.scope
      ∧ Depicts project levels place fragment.selections shape.root.selections
  lists : shape.root.selections.boundaries? (boundariesAmong before) []
    = some shape.mentions.boundaries

/-- Whether the definitions that are built mention the boundaries that walks of them cross. -/
structure Workspace.IsListed (project : Project) (workspace : Workspace) : Prop where
  fragments : ∀ before shape after, workspace.fragments = before ++ shape :: after →
    shape.IsListed project before
  operations : ∀ key shape, (key, shape) ∈ workspace.operations →
    shape.root.selections.boundaries? workspace.boundaries? [] = some shape.mentions.boundaries

theorem FragmentShape.boundariesAmong_mono {fragments more : List FragmentShape}
    (grows : fragments <+: more) (name : Name) (boundaries : List DeferBoundary)
    (isOwn : boundariesAmong fragments name = some boundaries) :
    boundariesAmong more name = some boundaries := by
  rcases grows with ⟨rest, rfl⟩
  rcases Option.map_eq_some_iff.mp isOwn with ⟨shape, isShape, rfl⟩
  rw [boundariesAmong, List.find?_append, isShape, Option.some_or, Option.map_some]

/-- Builds of one fragment mention the same boundaries. -/
theorem FragmentShape.IsListed.boundaries_eq {before otherBefore : List FragmentShape}
    {shape other : FragmentShape} (listed : shape.IsListed project before)
    (otherListed : other.IsListed project otherBefore) (grows : before <+: otherBefore)
    (sameName : other.name = shape.name) :
    other.mentions.boundaries = shape.mentions.boundaries := by
  rcases listed.depicts with ⟨fragment, _, place, isFragment, isScope, depicts⟩
  rcases otherListed.depicts with ⟨_, _, otherPlace, isOther, isOtherScope, otherDepicts⟩
  rw [sameName, isFragment, Option.some.injEq] at isOther
  subst isOther
  have same : shape.root.selections.boundaries? (boundariesAmong otherBefore) []
      = other.root.selections.boundaries? (boundariesAmong otherBefore) [] :=
    depicts.boundaries?_eq otherDepicts (Except.ok.inj (isOtherScope.symm.trans isScope)) []
  rw [SelectionTree.boundaries?_mono (boundariesAmong_mono grows) _ _ _ listed.lists,
    otherListed.lists, Option.some.injEq] at same
  exact same.symm

namespace Workspace

theorem isListed_empty : empty.IsListed project where
  fragments before shape after same := by simp [empty] at same
  operations key shape mem := by simp [empty] at mem

theorem IsListed.of_mem {shape : FragmentShape} (listed : workspace.IsListed project)
    (mem : shape ∈ workspace.fragments) :
    shape.root.selections.boundaries? workspace.boundaries? []
      = some shape.mentions.boundaries := by
  rcases List.append_of_mem mem with ⟨before, after, split⟩
  refine SelectionTree.boundaries?_mono (FragmentShape.boundariesAmong_mono ?_) _ _ _
    (listed.fragments before shape after split).lists
  exact ⟨shape :: after, split.symm⟩

/-- The law that definitions mention the boundaries that walks of them cross. -/
def listing (project : Project) : Build.Law where
  valid := IsListed project
  grows workspace later := workspace.fragments <+: later.fragments
  refl _ := List.prefix_rfl
  trans grows more := grows.trans more

end Workspace

namespace Build

open Workspace

/-- Allocating entities and registering occurrences changes no definition. -/
theorem upholds_listing : Upholds project (listing project) fun _ => True where
  entityAt _ _ _ listed := ⟨⟨listed.fragments, listed.operations⟩, List.prefix_rfl, trivial⟩
  registerAll _ _ listed := ⟨⟨listed.fragments, listed.operations⟩, List.prefix_rfl⟩
  text _ _ := trivial
  internal _ := trivial
  limit := trivial

theorem lists_entityAt (location : Location) (typePath : List Name) :
    Ensures (listing project) (fun _ => True) (entityAt location typePath) fun _ _ => True :=
  (upholds_listing.entityAt location typePath).ensures

theorem lists_register (root : RootField) :
    Ensures (listing project) (fun _ => True) (register project root) fun _ _ => True :=
  (abides_register upholds_listing root).ensures

section Definitions

variable {fragment : Name → Build FragmentShape}
  (ofFragment : ∀ name, Ensures (listing project) (fun _ => True) (fragment name)
    fun shape workspace => workspace.boundaries? name = some shape.mentions.boundaries)

include ofFragment

theorem lists_root (definition : DefinitionId) (name type : Name) (written : List Selection) :
    Ensures (listing project) (fun _ => True)
      (root project fragment definition name type written) fun built workspace =>
        (∃ levels, Scope.forType project.schema type = .ok built.value.place.scope
          ∧ Depicts project levels built.value.place written built.value.selections)
        ∧ built.value.selections.boundaries? workspace.boundaries? []
          = some built.mentions.boundaries := by
  simp only [Build.root]
  apply Ensures.bind (lists_entityAt _ _)
  intro entity
  apply Ensures.anywhere
  apply Ensures.bind (.ofExcept _)
  intro scope
  apply Ensures.given
  intro isScope
  have depicts : Ensures (listing project) (fun _ => True)
      (selections project fragment project.config.recursionLimit [] ⟨entity, [], scope⟩ written)
      fun built _ =>
        Depicts project project.config.recursionLimit ⟨entity, [], scope⟩ written built.value
          ∧ built.value.IsGrounded (fun _ _ => True) (fun _ => True) ⟨entity, [], scope⟩ :=
    ensures_selections (fun _ _ _ _ _ => trivial) lists_entityAt
      (fun name => (ofFragment name).weaken fun _ _ _ => trivial) _ _ _ _
  have lists : Ensures (listing project) (fun _ => True)
      (selections project fragment project.config.recursionLimit [] ⟨entity, [], scope⟩ written)
      fun built workspace => Lists (SelectionTree.boundaries? workspace.boundaries? []) built :=
    ensures_boundaries?
      (fun name boundaries _ _ grows => FragmentShape.boundariesAmong_mono grows name boundaries)
      lists_entityAt ofFragment _ _ _ _
  apply Ensures.bind (depicts.both lists)
  intro built
  apply Ensures.pure
  rintro workspace ⟨⟨depicts, -⟩, isListed⟩
  exact ⟨⟨_, isScope, depicts⟩, isListed⟩

/-- A fragment that is built lists its boundaries. -/
theorem lists_fragmentDefinition {name : Name} {document : DocumentFile} {definition : Fragment}
    (found : project.compilation.fragment? name = some (document, definition)) :
    Ensures (listing project) (fun _ => True)
      (fragmentDefinition project fragment document definition) fun shape workspace =>
        shape.name = name ∧ shape.IsListed project workspace.fragments := by
  have sameName : definition.name = name := Compilation.name_of_fragment? found
  have isFragment : project.compilation.spreadFragment? definition.name = some definition := by
    rw [sameName]
    exact Compilation.spreadFragment?_of_fragment? found
  simp only [fragmentDefinition]
  apply Ensures.bind (lists_root ofFragment _ _ _ _)
  intro built
  apply Ensures.bind ((lists_register built.value).anywhere.frame ?keeps)
  · intro occurrences
    apply Ensures.pure
    rintro workspace ⟨-, ⟨levels, isScope, depicts⟩, lists⟩
    exact ⟨sameName, ⟨definition, levels, _, isFragment, isScope, depicts⟩, lists⟩
  case keeps =>
    rintro first second grows ⟨depicts, lists⟩
    exact ⟨depicts, SelectionTree.boundaries?_mono
      (FragmentShape.boundariesAmong_mono grows) _ _ _ lists⟩

end Definitions

theorem isListed_storeFragment {shape : FragmentShape} (listed : workspace.IsListed project)
    (ofShape : shape.IsListed project workspace.fragments) :
    Workspace.IsListed project { workspace with fragments := workspace.fragments ++ [shape] } := by
  constructor
  · intro before other after split
    rcases List.eq_nil_or_concat after with rfl | ⟨earlier, last, rfl⟩
    · rcases List.append_inj' split rfl with ⟨rfl, isLast⟩
      rw [← (List.cons.inj isLast).1]
      exact ofShape
    · rw [List.concat_eq_append, ← List.cons_append, ← List.append_assoc] at split
      exact listed.fragments before other earlier (List.append_inj' split rfl).1
  · intro key other mem
    exact SelectionTree.boundaries?_mono
      (FragmentShape.boundariesAmong_mono (List.prefix_append _ _)) _ _ _
      (listed.operations key other mem)

/-- Storing a fragment makes it one of those that are built, and its boundaries those of its name,
also if it was stored before. -/
theorem lists_storeFragment {name : Name} {shape : FragmentShape} (sameName : shape.name = name) :
    Ensures (listing project) (fun workspace => shape.IsListed project workspace.fragments)
      (storeFragment shape) fun _ workspace => shape ∈ workspace.fragments
        ∧ workspace.boundaries? name = some shape.mentions.boundaries := by
  refine (Ensures.modify (fun workspace listed ofShape =>
    ⟨isListed_storeFragment listed ofShape, List.prefix_append _ _⟩)).weaken ?_
  rintro _ _ ⟨workspace, listed, ofShape, rfl⟩
  refine ⟨List.mem_append_right _ (List.mem_singleton_self _), ?_⟩
  simp only [boundaries?, fragment?, List.find?_append]
  cases found : workspace.fragments.find? (·.name == name) with
  | none => simp [sameName]
  | some earlier =>
      rcases List.find?_eq_some_iff_append.mp found with ⟨isNamed, before, after, split, -⟩
      have sameBoundaries := (listed.fragments before earlier after split).boundaries_eq ofShape
        ⟨earlier :: after, split.symm⟩ (by rw [sameName]; exact (beq_iff_eq.mp isNamed).symm)
      simp [sameBoundaries]

/-- Whichever fragment is asked for is built afterwards, and its boundaries are those of its
name. -/
theorem lists_fragmentWithin (height : Nat) (name : Name) :
    Ensures (listing project) (fun _ => True) (fragmentWithin project height name)
      fun shape workspace => shape ∈ workspace.fragments
        ∧ workspace.boundaries? name = some shape.mentions.boundaries := by
  apply @ensures_fragmentWithin_of project (fun _ => listing project) fun name shape workspace =>
    shape ∈ workspace.fragments ∧ workspace.boundaries? name = some shape.mentions.boundaries
  · intro name workspace shape _ found
    exact ⟨List.mem_of_find?_eq_some found, by rw [boundaries?, found, Option.map_some]⟩
  · intro fragment name document definition found ofFragment
    apply Ensures.anywhere
    apply Ensures.bind (lists_fragmentDefinition
      (fun name => (ofFragment name).weaken fun _ _ after => after.2) found)
    intro shape
    apply Ensures.assuming
    intro sameName
    apply Ensures.bind (lists_storeFragment sameName)
    intro _
    exact Ensures.pure fun _ stored => stored

theorem lists_fragment (name : Name) :
    Ensures (listing project) (fun _ => True) (Build.fragment project name)
      fun shape workspace => shape ∈ workspace.fragments
        ∧ workspace.boundaries? name = some shape.mentions.boundaries :=
  lists_fragmentWithin _ name

/-- An operation that is built lists its boundaries. -/
theorem lists_operationDefinition (index : Nat) (document : DocumentFile) (operation : Operation) :
    Ensures (listing project) (fun _ => True)
      (operationDefinition project index document operation) fun shape workspace =>
        shape.root.selections.boundaries? workspace.boundaries? []
          = some shape.mentions.boundaries := by
  simp only [operationDefinition]
  apply Ensures.bind (lists_root (fun name => (lists_fragment name).weaken fun _ _ after => after.2)
    _ _ _ _)
  intro built
  apply Ensures.bind ((lists_register built.value).anywhere.frame ?keeps)
  · intro occurrences
    apply Ensures.pure
    rintro workspace ⟨-, -, lists⟩
    exact lists
  case keeps =>
    rintro first second grows ⟨depicts, lists⟩
    exact ⟨depicts, SelectionTree.boundaries?_mono
      (FragmentShape.boundariesAmong_mono grows) _ _ _ lists⟩

/-- So does one that is asked for, built before or not. -/
theorem lists_operationIn (index : Nat) (document : DocumentFile) (operation : Operation) :
    Ensures (listing project) (fun _ => True) (operationIn project index document operation)
      fun shape workspace => shape.root.selections.boundaries? workspace.boundaries? []
        = some shape.mentions.boundaries := by
  refine ensures_operationIn_of ?_ (lists_operationDefinition index document operation) ?_
  · intro workspace key shape listed found
    rcases List.lookup_eq_some_iff.mp found with ⟨before, after, split, -⟩
    exact listed.operations key shape (by rw [split]; simp)
  · intro key shape
    apply Ensures.weaken (.modify ?_)
    · rintro _ _ ⟨workspace, -, lists, rfl⟩
      exact lists
    · intro workspace listed lists
      refine ⟨⟨listed.fragments, ?_⟩, List.prefix_rfl⟩
      intro otherKey other mem
      rcases List.mem_append.mp mem with isOld | isNew
      · exact listed.operations otherKey other isOld
      · rcases Prod.mk.inj (List.mem_singleton.mp isNew) with ⟨-, rfl⟩
        exact lists

/-- Whatever definitions are given list their boundaries. -/
theorem delivers_listing : Delivers project (listing project) fun definition workspace =>
    definition.1.selections.boundaries? workspace.boundaries? []
      = some definition.2.boundaries where
  ofOperation := lists_operationIn
  ofFragment name := (lists_fragment name).withValid.weaken fun _ _ after =>
    after.1.of_mem after.2.1
  ofCache _ _ listed := ⟨⟨listed.fragments, listed.operations⟩, List.prefix_rfl⟩
  stays _ _ _ grows :=
    SelectionTree.boundaries?_mono (FragmentShape.boundariesAmong_mono grows) _ _ _

end Build

theorem Workspace.isListed_of_reachable (reachable : Workspace.Reachable project workspace) :
    workspace.IsListed project :=
  Build.delivers_listing.valid_of_reachable isListed_empty reachable

/-- A definition that is built mentions just the defer boundaries that a walk of its tree crosses,
in order, where a spread crosses those of the fragment that is built for it. The fragments mention
their boundaries likewise. -/
theorem Call.boundaries?_of_run {call : Call} {answer : Answer} {later : Workspace}
    (reachable : workspace.Reachable project)
    (run : (call.run project).runIn workspace = (.ok answer, later)) :
    (∀ definition ∈ answer.definitions,
      definition.1.selections.boundaries? later.boundaries? [] = some definition.2.boundaries)
    ∧ ∀ name shape, later.fragment? name = some shape →
      shape.root.selections.boundaries? later.boundaries? [] = some shape.mentions.boundaries := by
  rcases Build.delivers_listing.ensures_call call workspace
    (Workspace.isListed_of_reachable reachable) trivial with ⟨listed, -, lists⟩
  rw [run] at listed lists
  exact ⟨lists answer rfl, fun name shape found =>
    listed.of_mem (List.mem_of_find?_eq_some found)⟩

end Listing

/-- A sample in which a fragment is spread at two depths, and a deferred fragment is left out with
another one in it. -/
def Delays : Sample where
  schemaText :=
    "directive @defer(label: String, if: Boolean! = true) on FRAGMENT_SPREAD | INLINE_FRAGMENT "
      ++ "type Query \x7b hero: Hero \x7d type Hero \x7b name: String age: Int friend: Hero \x7d"
  sources :=
    [⟨"d.graphql",
      "query Q \x7b hero \x7b ...F "
        ++ "... @defer(label: \"gone\") \x7b name @skip(if: true) "
        ++ "... @defer(label: \"nowhere\") \x7b age @include(if: false) \x7d \x7d "
        ++ "friend \x7b ...F \x7d \x7d \x7d "
        ++ "fragment F on Hero \x7b friend \x7b ... @defer(label: \"slow\") \x7b age "
        ++ "... @defer(label: \"slower\") \x7b name \x7d \x7d \x7d \x7d"⟩]
  isValid := by decide +kernel

/-- The boundaries that are crossed on the way into and through the operation. -/
def Delays.boundaries : List DeferBoundary :=
  [⟨"slow", none, ["hero", "friend", "friend"], "Hero"⟩,
    ⟨"slower", none, ["hero", "friend", "friend"], "Hero"⟩,
    ⟨"slow", none, ["hero", "friend"], "Hero"⟩,
    ⟨"slower", none, ["hero", "friend"], "Hero"⟩]

/-- The operation crosses the boundaries of the fragment twice, and none of what is left out. -/
theorem Call.boundaries?_of_run_delays : ∃ shape later,
    ((Call.operation (some "Q")).run Delays.project).runIn .empty
        = (.ok (.operation shape), later)
      ∧ shape.mentions.boundaries = Delays.boundaries
      ∧ shape.root.selections.boundaries? later.boundaries? [] = some Delays.boundaries := by
  have computes : ((Build.operation Delays.project (some "Q")).runIn .empty).1.toOption.any
      (fun shape => shape.mentions.boundaries == Delays.boundaries) = true := by
    rewrite [Delays.project_eq]
    decide +kernel
  rcases (Option.any_eq_true _ _).mp computes with ⟨shape, isShape, same⟩
  have run := Call.runIn_run_operation isShape
  have lists := (Call.boundaries?_of_run .empty run).1 _ (List.mem_singleton_self _)
  refine ⟨shape, _, run, beq_iff_eq.mp same, ?_⟩
  rw [lists, beq_iff_eq.mp same]

end ResponseShape
