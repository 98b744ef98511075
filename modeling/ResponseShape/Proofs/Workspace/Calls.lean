import ResponseShape.Proofs.Workspace.Histories

/-!
# What calls give

Whatever is ensured of each operation and of each fragment that is asked for is ensured of all
definitions that a call gives (`Build.Delivers.ensures_call`). The law under which it is holds in
all workspaces that a project can be in (`Build.Delivers.valid_of_reachable`).
-/

namespace ResponseShape

/-- The definitions that an answer gives, each with what it mentions. -/
def Answer.definitions : Answer → List (RootField × Mentions)
  | .operation shape => [(shape.root, shape.mentions)]
  | .fragment shape => [(shape.root, shape.mentions)]
  | .all shapes => shapes.operations.map (fun shape => (shape.root, shape.mentions))
      ++ shapes.fragments.map fun shape => (shape.root, shape.mentions)
  | .view _ => []

/-- The workspaces that further calls lead to. -/
def Workspace.LeadsTo (project : Project) : Workspace → Workspace → Prop :=
  Relation.ReflTransGen fun workspace later =>
    ∃ call : Call, ((call.run project).runIn workspace).2 = later

variable {project : Project} {law : Build.Law}
  {describes : RootField × Mentions → Workspace → Prop}

namespace Build

/-- Whether definitions that are asked for are as described under a law, and stay so. -/
structure Delivers (project : Project) (law : Law)
    (describes : RootField × Mentions → Workspace → Prop) : Prop where
  ofOperation : ∀ index document definition,
    Ensures law (fun _ => True) (operationIn project index document definition) fun shape =>
      describes (shape.root, shape.mentions)
  ofFragment : ∀ name, Ensures law (fun _ => True) (Build.fragment project name) fun shape =>
    describes (shape.root, shape.mentions)
  ofCache : ∀ workspace cache, law.valid workspace → law.valid { workspace with cache }
    ∧ law.grows workspace { workspace with cache }
  stays : ∀ definition first second, law.grows first second → describes definition first →
    describes definition second

namespace Delivers

variable (delivers : Delivers project law describes)

include delivers

theorem ensures_operation (name : Option Name) :
    Ensures law (fun _ => True) (operation project name) fun shape =>
      describes (shape.root, shape.mentions) := by
  simp only [operation]
  split
  next => exact .throw _
  next => exact delivers.ofOperation _ _ _

theorem ensures_all :
    Ensures law (fun _ => True) (all project) fun shapes workspace =>
      (∀ shape ∈ shapes.operations, describes (shape.root, shape.mentions) workspace)
        ∧ ∀ shape ∈ shapes.fragments, describes (shape.root, shape.mentions) workspace := by
  have ofDocument (index : Nat) (document : DocumentFile) : Ensures law (fun _ => True)
      (document.document.operations.mapM (operationIn project index document))
      fun shapes workspace =>
        ∀ shape ∈ shapes, describes (shape.root, shape.mentions) workspace := by
    refine (Ensures.mapM (fun operation _ => delivers.ofOperation index document operation)
      (fun _ _ => delivers.stays _) fun _ _ _ _ => trivial).weaken ?_
    intro shapes workspace pairs shape mem
    rcases exists_mem_of_forall₂_right pairs mem with ⟨_, -, isDescribed⟩
    exact isDescribed
  simp only [all]
  apply Ensures.bind (.mapM (fun member _ => ofDocument member.2 member.1) ?keepShapes
    fun _ _ _ _ => trivial)
  · intro operations
    apply Ensures.bind ((Ensures.mapM (fun member _ => (delivers.ofFragment member.2.name).anywhere)
      (fun _ _ => delivers.stays _) ?keepOperations).frame ?keepOperations)
    intro fragments
    apply Ensures.pure
    · rintro workspace ⟨ofFragments, ofOperations⟩
      constructor
      · intro shape mem
        rcases List.mem_flatten.mp mem with ⟨shapes, shapesMem, mem⟩
        rcases exists_mem_of_forall₂_right ofOperations shapesMem with ⟨_, -, areDescribed⟩
        exact areDescribed shape mem
      · intro shape mem
        rcases exists_mem_of_forall₂_right ofFragments mem with ⟨_, -, isDescribed⟩
        exact isDescribed
    case keepOperations =>
      exact fun _ _ growth pairs => pairs.imp fun _ _ areDescribed shape mem =>
        delivers.stays _ _ _ growth (areDescribed shape mem)
  case keepShapes =>
    exact fun _ _ _ _ growth areDescribed shape mem =>
      delivers.stays _ _ _ growth (areDescribed shape mem)

theorem ensures_viewUnder (set : SelectionSet) (strategy : MergingStrategy) :
    Ensures law (fun _ => True) (viewUnder project set strategy) fun _ _ => True := by
  intro workspace valid _
  rw [runIn_viewUnder]
  rcases delivers.ofCache workspace _ valid with ⟨later, growth⟩
  exact ⟨later, growth, fun _ _ => trivial⟩

theorem ensures_call (call : Call) :
    Ensures law (fun _ => True) (call.run project) fun answer workspace =>
      ∀ definition ∈ answer.definitions, describes definition workspace := by
  cases call with
  | operation name =>
      apply Ensures.bind (delivers.ensures_operation name)
      exact fun shape => Ensures.pure fun _ isDescribed =>
        List.forall_mem_singleton.mpr isDescribed
  | fragment name =>
      apply Ensures.bind (delivers.ofFragment name)
      exact fun shape => Ensures.pure fun _ isDescribed =>
        List.forall_mem_singleton.mpr isDescribed
  | all =>
      apply Ensures.bind delivers.ensures_all
      intro shapes
      apply Ensures.pure
      rintro workspace ⟨ofOperations, ofFragments⟩
      exact List.forall_mem_append.mpr
        ⟨List.forall_mem_map.mpr ofOperations, List.forall_mem_map.mpr ofFragments⟩
  | view set =>
      apply Ensures.bind (delivers.ensures_viewUnder set _)
      exact fun visible => Ensures.pure fun _ _ => List.forall_mem_nil _
  | viewUnder set strategy =>
      apply Ensures.bind (delivers.ensures_viewUnder set strategy)
      exact fun visible => Ensures.pure fun _ _ => List.forall_mem_nil _

/-- Further calls keep to the law. -/
theorem grows_of_leadsTo {workspace later : Workspace} (valid : law.valid workspace)
    (leads : workspace.LeadsTo project later) : law.valid later ∧ law.grows workspace later := by
  induction leads with
  | refl => exact ⟨valid, law.refl workspace⟩
  | tail _ called ih =>
      rcases called with ⟨call, rfl⟩
      rcases delivers.ensures_call call _ ih.1 trivial with ⟨last, more, -⟩
      exact ⟨last, law.trans ih.2 more⟩

/-- A law that holds in the empty workspace holds in all that a project can be in. -/
theorem valid_of_reachable (ofEmpty : law.valid .empty) {workspace : Workspace}
    (reachable : workspace.Reachable project) : law.valid workspace := by
  induction reachable with
  | empty => exact ofEmpty
  | operation _ name valid => exact (delivers.ensures_operation name _ valid trivial).1
  | operationIn _ _ _ valid => exact (delivers.ofOperation _ _ _ _ valid trivial).1
  | fragment _ name valid => exact (delivers.ofFragment name _ valid trivial).1
  | all _ valid => exact (delivers.ensures_all _ valid trivial).1
  | view _ set strategy valid => exact (delivers.ensures_viewUnder set strategy _ valid trivial).1

end Delivers

end Build

theorem Workspace.Reachable.call {workspace : Workspace} (reachable : workspace.Reachable project)
    (call : Call) : Reachable project ((call.run project).runIn workspace).2 := by
  cases call with
  | operation name =>
      rw [Call.run, Build.runIn_return]
      exact reachable.operation name
  | fragment name =>
      rw [Call.run, Build.runIn_return]
      exact reachable.fragment name
  | all =>
      rw [Call.run, Build.runIn_return]
      exact reachable.all
  | view set =>
      rw [Call.run, Build.runIn_return]
      exact reachable.view set _
  | viewUnder set strategy =>
      rw [Call.run, Build.runIn_return]
      exact reachable.view set strategy

theorem Session.Arises.reachable {session : Session} (arises : session.Arises project) :
    session.workspace.Reachable project := by
  induction arises with
  | start => exact .empty
  | call _ _ ih => exact ih.call _

end ResponseShape
