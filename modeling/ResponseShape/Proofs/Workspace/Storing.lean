import ResponseShape.Proofs.Workspace.Calls
import ResponseShape.Proofs.Workspace.Steps

/-!
# Definitions are stored once

While a fragment is built, only fragments that it reaches are stored. Without cycles of spreads it
is none of them, so it is stored once and stays the one that its name stands for. What holds of
definitions whose spreads are of stored fragments then holds of all definitions that are given
(`Build.Describes.delivers`).
-/

namespace ResponseShape

namespace Workspace

variable {workspace later : Workspace} {describes : RootField × Mentions → Workspace → Prop}
  {reached further : Name → Prop}

/-- The definitions that a workspace holds, each with what it mentions. -/
def definitions (workspace : Workspace) : List (RootField × Mentions) :=
  workspace.operations.map (fun stored => (stored.2.root, stored.2.mentions))
    ++ workspace.fragments.map fun shape => (shape.root, shape.mentions)

/-- Whether fragments are stored once, and all definitions are as described. -/
structure IsDescribed (describes : RootField × Mentions → Workspace → Prop)
    (workspace : Workspace) : Prop where
  nodup : (workspace.fragments.map (·.name)).Nodup
  definitions : ∀ definition ∈ workspace.definitions, describes definition workspace

/-- How a workspace may change while something is built that reaches certain fragments. -/
structure Gains (reached : Name → Prop) (workspace later : Workspace) : Prop where
  fragments : workspace.fragments <+: later.fragments
  others : ∀ name, ¬reached name → later.fragment? name = workspace.fragment? name

theorem Gains.mono (gains : Gains reached workspace later)
    (more : ∀ name, reached name → further name) : Gains further workspace later where
  fragments := gains.fragments
  others name isOther := gains.others name fun isReached => isOther (more name isReached)

/-- The law by which definitions are stored while something is built. -/
def storing (describes : RootField × Mentions → Workspace → Prop) (reached : Name → Prop) :
    Build.Law where
  valid := IsDescribed describes
  grows := Gains reached
  refl _ := ⟨List.prefix_rfl, fun _ _ => rfl⟩
  trans gains more :=
    ⟨gains.fragments.trans more.fragments,
      fun name isOther => (more.others name isOther).trans (gains.others name isOther)⟩

theorem isDescribed_empty : empty.IsDescribed describes := ⟨List.nodup_nil, List.forall_mem_nil _⟩

theorem IsDescribed.of_fragment? (isDescribed : workspace.IsDescribed describes) {name : Name}
    {shape : FragmentShape} (found : workspace.fragment? name = some shape) :
    describes (shape.root, shape.mentions) workspace :=
  isDescribed.definitions _ (List.mem_append_right _
    (List.mem_map.mpr ⟨shape, List.mem_of_find?_eq_some found, rfl⟩))

/-- A fragment that is stored is the one that its name stands for. -/
theorem IsDescribed.filter_eq_of_fragment? (isDescribed : workspace.IsDescribed describes)
    {name : Name} {shape : FragmentShape} (found : workspace.fragment? name = some shape) :
    workspace.fragments.filter (·.name == name) = [shape] := by
  rcases List.find?_eq_some_iff_append.mp found with ⟨isNamed, before, after, split, isFirst⟩
  have nodup := isDescribed.nodup
  rw [split, List.map_append, List.map_cons, List.nodup_middle, List.nodup_cons] at nodup
  have none : after.filter (·.name == name) = [] := by
    rw [List.filter_eq_nil_iff]
    intro other mem sameName
    apply nodup.1
    rw [beq_iff_eq.mp isNamed, ← beq_iff_eq.mp sameName]
    exact List.mem_append_right _ (List.mem_map_of_mem mem)
  have noneBefore : before.filter (·.name == name) = [] := by
    rw [List.filter_eq_nil_iff]
    intro other mem
    simpa using isFirst other mem
  rw [split, List.filter_append, noneBefore, List.nil_append, List.filter_cons, if_pos isNamed,
    none]

end Workspace

namespace Build

open Workspace

variable {project : Project} {describes : RootField × Mentions → Workspace → Prop}

/-- Whether definitions are as described while fragments are stored, and if they are built with
fragments that are stored. -/
structure Describes (project : Project)
    (describes : RootField × Mentions → Workspace → Prop) : Prop where
  stays : ∀ definition (first second : Workspace), first.fragments <+: second.fragments →
    describes definition first → describes definition second
  ofRoot : ∀ (fragment : Name → Build FragmentShape),
    (∀ location typePath, Ensures (storing describes fun _ => True) (fun _ => True)
      (entityAt location typePath) fun _ _ => True) →
    (∀ name, Ensures (storing describes fun _ => True) (fun _ => True) (fragment name)
      fun shape workspace => workspace.fragment? name = some shape) →
    ∀ definition name type written, Ensures (storing describes fun _ => True) (fun _ => True)
      (root project fragment definition name type written) fun built =>
        describes (built.value, built.mentions)

namespace Describes

variable (isDescription : Describes project describes) {reached : Name → Prop}

include isDescription

theorem isDescribed_of_eq {workspace later : Workspace}
    (isDescribed : workspace.IsDescribed describes)
    (fragments : later.fragments = workspace.fragments)
    (operations : later.operations = workspace.operations) : later.IsDescribed describes where
  nodup := by rw [fragments]; exact isDescribed.nodup
  definitions := by
    rw [Workspace.definitions, fragments, operations]
    exact fun definition mem => isDescription.stays definition workspace later (by rw [fragments])
      (isDescribed.definitions definition mem)

theorem isDescribed_storeFragment {workspace : Workspace} {shape : FragmentShape}
    (isDescribed : workspace.IsDescribed describes)
    (isUnbuilt : workspace.fragment? shape.name = none)
    (ofShape : describes (shape.root, shape.mentions) workspace) :
    IsDescribed describes { workspace with fragments := workspace.fragments ++ [shape] } where
  nodup := by
    rw [List.map_append, List.map_singleton, ← List.concat_eq_append]
    refine isDescribed.nodup.concat ?_
    intro mem
    rcases List.mem_map.mp mem with ⟨other, otherMem, sameName⟩
    have isOther := List.find?_eq_none.mp isUnbuilt other otherMem
    exact isOther (beq_iff_eq.mpr sameName)
  definitions definition mem := by
    apply isDescription.stays definition workspace _ (List.prefix_append _ _)
    rw [Workspace.definitions, List.map_append, ← List.append_assoc] at mem
    rcases List.mem_append.mp mem with isOld | isNew
    · exact isDescribed.definitions definition isOld
    · rwa [List.mem_singleton.mp isNew]

theorem upholds : Upholds project (storing describes reached) fun _ => True where
  entityAt _ _ _ isDescribed :=
    ⟨isDescription.isDescribed_of_eq isDescribed rfl rfl, ⟨List.prefix_rfl, fun _ _ => rfl⟩,
      trivial⟩
  registerAll _ _ isDescribed :=
    ⟨isDescription.isDescribed_of_eq isDescribed rfl rfl, ⟨List.prefix_rfl, fun _ _ => rfl⟩⟩
  text _ _ := trivial
  internal _ := trivial
  limit := trivial

theorem stays_of_gains (definition : RootField × Mentions) (first second : Workspace)
    (gains : (storing describes reached).grows first second) :
    describes definition first → describes definition second :=
  isDescription.stays definition first second gains.fragments

theorem ensures_register (root : RootField) :
    Ensures (storing describes reached) (fun _ => True) (register project root) fun _ _ => True :=
  (abides_register isDescription.upholds root).ensures

theorem ensures_root {fragment : Name → Build FragmentShape}
    (ofFragment : ∀ name, Ensures (storing describes fun _ => True) (fun _ => True) (fragment name)
      fun shape workspace => workspace.fragment? name = some shape)
    (definition : DefinitionId) (name type : Name) (written : List Selection) :
    Ensures (storing describes fun _ => True) (fun _ => True)
      (root project fragment definition name type written) fun built =>
        describes (built.value, built.mentions) :=
  isDescription.ofRoot fragment (fun location typePath =>
    (isDescription.upholds.entityAt location typePath).ensures) ofFragment definition name type
      written

section Definitions

variable {fragment : Name → Build FragmentShape} (ofFragment : ∀ name,
  Ensures (storing describes (project.compilation.ReachedFrom name)) (fun _ => True) (fragment name)
    fun shape workspace => workspace.fragment? name = some shape)

include ofFragment

/-- Building a fragment stores only what its selections reach. -/
theorem gains_fragmentDefinition (document : DocumentFile) (definition : Fragment) :
    Ensures (storing describes (project.compilation.Spreads · definition.selections))
      (fun _ => True) (fragmentDefinition project fragment document definition) fun shape _ =>
        shape.name = definition.name := by
  have ofSpread (name : Name) (isSpread : name ∈ Selection.spreadsOfAll definition.selections) :
      Abides (storing describes (project.compilation.Spreads · definition.selections))
        (fun _ => True) (fragment name) fun _ => True := by
    refine .of_ensures ((ofFragment name).loosen rfl fun _ _ gains => gains.mono ?_)
    rintro other (rfl | ⟨inner, isInner, spreads⟩)
    · exact .written isSpread
    · exact .fragment isSpread isInner spreads
  have gathers (scope : Scope) (levels : Nat) (written : List Selection) :
      Yields (fun _ => True) (fun _ => True) (Gathered.gatherAll project.compilation
        project.config.recursionLimit scope levels .empty written) := by
    cases Gathered.gatherAll project.compilation project.config.recursionLimit scope levels .empty
      written <;> trivial
  simp only [fragmentDefinition]
  apply Ensures.bind (abides_root isDescription.upholds (fun scope levels written _ =>
    gathers scope levels written) ofSpread _ _ _ fun _ => id).ensures
  intro built
  apply Ensures.bind (isDescription.ensures_register built.value)
  exact fun occurrences => Ensures.pure fun _ _ => rfl

/-- What is built for a fragment is as described. -/
theorem describes_fragmentDefinition (document : DocumentFile) (definition : Fragment) :
    Ensures (storing describes fun _ => True) (fun _ => True)
      (fragmentDefinition project fragment document definition) fun shape =>
        describes (shape.root, shape.mentions) := by
  simp only [fragmentDefinition]
  apply Ensures.bind (isDescription.ensures_root (fun name => (ofFragment name).loosen rfl
    fun _ _ gains => gains.mono fun _ _ => trivial) _ _ _ _)
  intro built
  apply Ensures.bind ((isDescription.ensures_register built.value).anywhere.frame
    (isDescription.stays_of_gains _))
  exact fun occurrences => Ensures.pure fun _ after => after.2

end Definitions

theorem ensures_storeFragment {shape : FragmentShape} (isReached : reached shape.name) :
    Ensures (storing describes reached)
      (fun workspace => workspace.fragment? shape.name = none
        ∧ describes (shape.root, shape.mentions) workspace)
      (storeFragment shape) fun _ workspace => workspace.fragment? shape.name = some shape := by
  apply Ensures.weaken (.modify ?_)
  · rintro _ _ ⟨workspace, -, ⟨isUnbuilt, -⟩, rfl⟩
    rw [Workspace.fragment?] at isUnbuilt ⊢
    simp [List.find?_append, isUnbuilt]
  · rintro workspace isDescribed ⟨isUnbuilt, ofShape⟩
    refine ⟨isDescription.isDescribed_storeFragment isDescribed isUnbuilt ofShape,
      List.prefix_append _ _, ?_⟩
    intro name isOther
    have none : (shape.name == name) = false := by
      rw [beq_eq_false_iff_ne]
      rintro rfl
      exact isOther isReached
    simp [Workspace.fragment?, List.find?_append, none]

/-- A fragment that is given is the one that its name stands for from then on. -/
theorem ensures_fragmentWithin (acyclic : project.compilation.IsAcyclic) (height : Nat)
    (name : Name) :
    Ensures (storing describes (project.compilation.ReachedFrom name)) (fun _ => True)
      (fragmentWithin project height name) fun shape workspace =>
        workspace.fragment? name = some shape := by
  apply @ensures_fragmentWithin_of project
    (fun name => storing describes (project.compilation.ReachedFrom name))
    fun name shape workspace => workspace.fragment? name = some shape
  · exact fun _ _ _ _ => id
  · intro fragment name document definition found ofFragment
    have sameName : definition.name = name := Compilation.name_of_fragment? found
    have isFragment := Compilation.spreadFragment?_of_fragment? found
    -- the definition is not reached from its own selections, so it is still missing
    have builds : Ensures (storing describes (project.compilation.ReachedFrom name))
        (fun workspace => workspace.fragment? name = none)
        (fragmentDefinition project fragment document definition) fun shape workspace =>
          shape.name = name ∧ workspace.fragment? name = none
            ∧ describes (shape.root, shape.mentions) workspace := by
      have gains := (isDescription.gains_fragmentDefinition ofFragment document definition).also
        (isDescription.describes_fragmentDefinition ofFragment document definition) fun _ => id
      refine ((gains.anywhere.frame ?stays).weaken ?unfolds).loosen rfl ?widens
      case stays =>
        intro first second gains isMissing
        rw [gains.others name (acyclic name definition isFragment), isMissing]
      case unfolds =>
        rintro shape workspace ⟨⟨isNamed, ofShape⟩, isMissing⟩
        exact ⟨isNamed.trans sameName, isMissing, ofShape⟩
      case widens =>
        exact fun _ _ gains => gains.mono fun _ spreads => .inr ⟨definition, isFragment, spreads⟩
    apply Ensures.bind builds
    intro shape
    apply Ensures.assuming
    rintro rfl
    apply Ensures.bind (isDescription.ensures_storeFragment (.inl rfl))
    exact fun _ => Ensures.pure fun _ => id

theorem ensures_fragment (acyclic : project.compilation.IsAcyclic) (name : Name) :
    Ensures (storing describes fun _ => True) (fun _ => True) (Build.fragment project name)
      fun shape workspace => workspace.fragment? name = some shape :=
  (isDescription.ensures_fragmentWithin acyclic _ name).loosen rfl fun _ _ gains =>
    gains.mono fun _ _ => trivial

theorem ensures_operationIn (acyclic : project.compilation.IsAcyclic) (index : Nat)
    (document : DocumentFile) (definition : Operation) :
    Ensures (storing describes fun _ => True) (fun _ => True)
      (operationIn project index document definition) fun shape =>
        describes (shape.root, shape.mentions) := by
  apply ensures_operationIn_of
  · intro workspace key shape isDescribed found
    rcases List.lookup_eq_some_iff.mp found with ⟨before, after, split, -⟩
    apply isDescribed.definitions
    rw [Workspace.definitions, split]
    simp
  · simp only [operationDefinition]
    apply Ensures.bind (isDescription.ensures_root (isDescription.ensures_fragment acyclic) _ _ _ _)
    intro built
    apply Ensures.bind ((isDescription.ensures_register built.value).anywhere.frame
      (isDescription.stays_of_gains _))
    exact fun occurrences => Ensures.pure fun _ after => after.2
  · intro key shape
    apply Ensures.weaken (.modify ?_)
    · rintro _ _ ⟨workspace, -, ofShape, rfl⟩
      exact isDescription.stays _ workspace _ List.prefix_rfl ofShape
    · intro workspace isDescribed ofShape
      refine ⟨⟨isDescribed.nodup, ?_⟩, List.prefix_rfl, fun _ _ => rfl⟩
      intro other mem
      refine isDescription.stays other workspace _ List.prefix_rfl ?_
      simp only [Workspace.definitions, List.map_append, List.map_singleton, List.append_assoc,
        List.mem_append, List.mem_singleton] at mem
      rcases mem with isOld | rfl | isFragment
      · exact isDescribed.definitions other (List.mem_append_left _ isOld)
      · exact ofShape
      · exact isDescribed.definitions other (List.mem_append_right _ isFragment)

/-- Whatever definitions are given are as described. -/
theorem delivers (acyclic : project.compilation.IsAcyclic) :
    Delivers project (storing describes fun _ => True) describes where
  ofOperation := isDescription.ensures_operationIn acyclic
  ofFragment name := (isDescription.ensures_fragment acyclic name).withValid.weaken
    fun _ _ after => after.1.of_fragment? after.2
  ofCache _ _ isDescribed :=
    ⟨isDescription.isDescribed_of_eq isDescribed rfl rfl, List.prefix_rfl, fun _ _ => rfl⟩
  stays := isDescription.stays_of_gains

/-- So are all that are stored by then. -/
theorem of_run {workspace later : Workspace} {call : Call} {answer : Answer}
    (acyclic : project.compilation.IsAcyclic) (reachable : workspace.Reachable project)
    (run : (call.run project).runIn workspace = (.ok answer, later)) :
    later.IsDescribed describes
      ∧ ∀ definition ∈ answer.definitions, describes definition later := by
  have delivers := isDescription.delivers acyclic
  rcases delivers.ensures_call call workspace
    (delivers.valid_of_reachable isDescribed_empty reachable) trivial with ⟨isDescribed, -, given⟩
  rw [run] at isDescribed given
  exact ⟨isDescribed, given answer rfl⟩

end Describes

end Build

end ResponseShape
