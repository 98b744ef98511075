import ResponseShape.Proofs.Workspace.Storing

/-!
# Roots of stored definitions

Whatever is registered and stored on the way, each definition that a workspace holds has a root that
`Build.root` gave for it. So what all roots have that can be built, in whichever workspace and with
whichever fragments, all roots have that are stored, cycles of spreads or not
(`Workspace.Reachable.forall_roots`): they select on the types of their fields, for one
(`Build.allRoots_type_eq`).
-/

namespace ResponseShape

/-- The law that the roots of all definitions that are stored have a property. -/
def Workspace.rooting (property : RootField → Prop) : Build.Law where
  valid workspace := ∀ definition ∈ workspace.definitions, property definition.1
  grows _ _ := True
  refl _ := trivial
  trans _ _ := trivial

namespace Build

variable {project : Project} {property : RootField → Prop}

/-- Whether all roots that can be built have a property. -/
def AllRoots (project : Project) (property : RootField → Prop) : Prop :=
  ∀ (fragment : Name → Build FragmentShape) definition name type written workspace built,
    ((root project fragment definition name type written).runIn workspace).1 = .ok built →
      property built.value

theorem upholds_rooting : Upholds project (Workspace.rooting property) fun _ => True where
  entityAt _ _ _ valid := ⟨valid, trivial, trivial⟩
  registerAll _ _ valid := ⟨valid, trivial⟩
  text _ _ := trivial
  internal _ := trivial
  limit := trivial

namespace AllRoots

variable (allRoots : AllRoots project property)

include allRoots

section Definitions

variable {fragment : Name → Build FragmentShape} (ofFragment : ∀ name,
  Ensures (Workspace.rooting property) (fun _ => True) (fragment name) fun shape _ =>
    property shape.root)

include ofFragment

theorem ensures_root (definition : DefinitionId) (name type : Name) (written : List Selection) :
    Ensures (Workspace.rooting property) (fun _ => True)
      (root project fragment definition name type written) fun built _ => property built.value := by
  have gathers (scope : Scope) (levels : Nat) (written : List Selection) :
      Yields (fun _ => True) (fun _ => True) (Gathered.gatherAll project.compilation
        project.config.recursionLimit scope levels .empty written) :=
    .of_forall fun _ _ => trivial
  have abides := abides_root upholds_rooting (fun scope levels written _ =>
      gathers scope levels written) (fun name (_ : True) => .of_ensures (ofFragment name))
    definition name type fun _ (_ : _ ∈ Selection.spreadsOfAll written) => trivial
  intro workspace valid _
  rcases abides workspace valid with ⟨later, growth, -⟩
  exact ⟨later, growth, fun built run => allRoots _ _ _ _ _ _ built run⟩

theorem ensures_fragmentDefinition (document : DocumentFile) (definition : Fragment) :
    Ensures (Workspace.rooting property) (fun _ => True)
      (fragmentDefinition project fragment document definition) fun shape _ =>
        property shape.root := by
  simp only [fragmentDefinition]
  apply Ensures.bind (allRoots.ensures_root ofFragment _ _ _ _)
  intro built
  apply Ensures.given
  intro hasProperty
  apply Ensures.bind (abides_register upholds_rooting built.value).ensures
  exact fun occurrences => Ensures.pure fun _ _ => hasProperty

end Definitions

theorem ensures_fragment (name : Name) :
    Ensures (Workspace.rooting property) (fun _ => True) (Build.fragment project name)
      fun shape _ => property shape.root := by
  apply @ensures_fragmentWithin_of project (fun _ => Workspace.rooting property)
    fun _ shape _ => property shape.root
  · intro name workspace shape valid found
    exact valid (shape.root, shape.mentions) (List.mem_append_right _
      (List.mem_map.mpr ⟨shape, List.mem_of_find?_eq_some found, rfl⟩))
  · intro fragment name document definition _ ofFragment
    apply Ensures.anywhere
    apply Ensures.bind (allRoots.ensures_fragmentDefinition ofFragment document definition)
    intro shape
    apply Ensures.given
    intro hasProperty
    apply Ensures.bind (.modify fun workspace valid _ => ⟨?_, trivial⟩)
    · exact fun _ => Ensures.pure fun _ _ => hasProperty
    · intro other mem
      simp only [Workspace.definitions, List.map_append, List.map_singleton,
        ← List.append_assoc] at mem
      rcases List.mem_append.mp mem with isOld | isNew
      · exact valid other isOld
      · rw [List.mem_singleton.mp isNew]
        exact hasProperty

theorem ensures_operationIn (index : Nat) (document : DocumentFile) (definition : Operation) :
    Ensures (Workspace.rooting property) (fun _ => True)
      (operationIn project index document definition) fun shape _ => property shape.root := by
  apply ensures_operationIn_of
  · intro workspace key shape valid found
    rcases List.lookup_eq_some_iff.mp found with ⟨before, after, split, -⟩
    apply valid (shape.root, shape.mentions)
    rw [Workspace.definitions, split]
    simp
  · simp only [operationDefinition]
    apply Ensures.bind (allRoots.ensures_root allRoots.ensures_fragment _ _ _ _)
    intro built
    apply Ensures.given
    intro hasProperty
    apply Ensures.bind (abides_register upholds_rooting built.value).ensures
    exact fun occurrences => Ensures.pure fun _ _ => hasProperty
  · intro key shape
    apply Ensures.given
    intro hasProperty
    apply Ensures.weaken (.modify fun workspace valid _ => ⟨?_, trivial⟩)
    · exact fun _ _ _ => hasProperty
    · intro other mem
      simp only [Workspace.definitions, List.map_append, List.map_singleton, List.append_assoc,
        List.mem_append, List.mem_singleton] at mem
      rcases mem with isOld | rfl | isFragment
      · exact valid other (List.mem_append_left _ isOld)
      · exact hasProperty
      · exact valid other (List.mem_append_right _ isFragment)

theorem delivers : Delivers project (Workspace.rooting property) fun definition _ =>
    property definition.1 where
  ofOperation := allRoots.ensures_operationIn
  ofFragment := allRoots.ensures_fragment
  ofCache _ _ valid := ⟨valid, trivial⟩
  stays _ _ _ _ := id

end AllRoots

/-- A root selects on the type of its field. -/
theorem allRoots_type_eq :
    AllRoots project fun root => root.summary.type.innerName = root.place.type := by
  intro fragment definition name type written workspace built run
  have ensures : Ensures Law.none (fun _ => True)
      (root project fragment definition name type written)
      fun built _ => built.value.summary.type.innerName = built.value.place.type := by
    simp only [root]
    apply Ensures.bind (.anything _)
    intro entity
    apply Ensures.bind (.ofExcept _)
    intro scope
    apply Ensures.given
    intro isScope
    apply Ensures.bind (.anything _)
    intro built
    apply Ensures.pure
    intro _ _
    rcases Scope.forType_eq_ok isScope with ⟨_, -, rfl⟩
    rfl
  exact (ensures workspace trivial trivial).2.2 built run

end Build

/-- What all roots have that can be built, all have that are stored. -/
theorem Workspace.Reachable.forall_roots {project : Project} {workspace : Workspace}
    {property : RootField → Prop} (reachable : workspace.Reachable project)
    (allRoots : Build.AllRoots project property) :
    ∀ root, workspace.HasRoot root → property root := by
  have all : ∀ definition ∈ workspace.definitions, property definition.1 :=
    allRoots.delivers.valid_of_reachable (List.forall_mem_nil _) reachable
  rintro root (⟨key, shape, mem, rfl⟩ | ⟨shape, mem, rfl⟩)
  · exact all (shape.root, shape.mentions)
      (List.mem_append_left _ (List.mem_map.mpr ⟨_, mem, rfl⟩))
  · exact all (shape.root, shape.mentions)
      (List.mem_append_right _ (List.mem_map.mpr ⟨_, mem, rfl⟩))

end ResponseShape
