import ResponseShape.Proofs.Text.Bytes
import ResponseShape.Proofs.Workspace.Building

/-!
# Reachable workspaces

The workspaces that building definitions and asking for views can lead to, failures included. All of
them are sound (`Workspace.isSound_of_reachable`).
-/

namespace ResponseShape

/-- The workspaces that a project can be in. -/
inductive Workspace.Reachable (project : Project) : Workspace → Prop where
  | empty : Reachable project .empty
  | operation {workspace : Workspace} (reachable : Reachable project workspace)
      (name : Option Name) : Reachable project ((Build.operation project name).runIn workspace).2
  | operationIn {workspace : Workspace} {index : Nat} {document : DocumentFile}
      {operation : Operation} (reachable : Reachable project workspace)
      (isDocument : project.compilation.documents[index]? = some document)
      (isOperation : operation ∈ document.document.operations) :
      Reachable project ((Build.operationIn project index document operation).runIn workspace).2
  | fragment {workspace : Workspace} (reachable : Reachable project workspace) (name : Name) :
      Reachable project ((Build.fragment project name).runIn workspace).2
  | all {workspace : Workspace} (reachable : Reachable project workspace) :
      Reachable project ((Build.all project).runIn workspace).2
  | view {workspace : Workspace} (reachable : Reachable project workspace) (set : SelectionSet)
      (strategy : MergingStrategy) :
      Reachable project ((Build.viewUnder project set strategy).runIn workspace).2

/-- The workspace in which nothing is built but the operation of a name. -/
def Workspace.withOperation (project : Project) (name : Option Name) : Workspace :=
  ((Build.operation project name).runIn .empty).2

theorem Workspace.Reachable.withOperation {project : Project} (name : Option Name) :
    Workspace.Reachable project (Workspace.withOperation project name) :=
  .operation .empty name

/-- The workspace of a sample in which nothing is built but its operation `Q`. -/
@[irreducible]
def Sample.workspace (sample : Sample) : Workspace := .withOperation sample.project (some "Q")

theorem Sample.workspace_eq (sample : Sample) :
    sample.workspace = .withOperation sample.project (some "Q") := by
  rw [Sample.workspace]

theorem Sample.reachable (sample : Sample) :
    Workspace.Reachable sample.project sample.workspace := by
  rw [workspace_eq]
  exact .withOperation (some "Q")

variable {project : Project} {workspace : Workspace}

/-- The law that workspaces stay sound. -/
def Workspace.soundness (project : Project) : Build.Law where
  valid := IsSound project
  grows _ _ := True
  refl _ := trivial
  trans _ _ := trivial

namespace Build

theorem ensures_operationIn {index : Nat}
    {document : DocumentFile} {operation : Operation}
    (isDocument : project.compilation.documents[index]? = some document)
    (isOperation : operation ∈ document.document.operations) :
    Ensures (Workspace.soundness project) (fun _ => True)
      (operationIn project index document operation) fun _ _ => True :=
  fun _ sound _ => ⟨(isSound_operationIn sound isDocument isOperation).1, trivial,
    fun _ _ => trivial⟩

theorem ensures_operation (name : Option Name) :
    Ensures (Workspace.soundness project) (fun _ => True) (operation project name)
      fun _ _ => True := by
  simp only [operation]
  split
  next => exact .throw _
  next index document definition rest candidates =>
    have mem : (index, document, definition) ∈ (index, document, definition) :: rest :=
      List.mem_cons_self
    rw [← candidates] at mem
    simp only [List.mem_filterMap, Option.map_eq_some_iff, Prod.mk.injEq, Prod.exists] at mem
    rcases mem with ⟨file, position, isFile, found, isFound, rfl, rfl, rfl⟩
    exact ensures_operationIn (List.mem_zipIdx_iff_getElem?.mp isFile)
      (List.mem_of_find?_eq_some isFound)

theorem ensures_all :
    Ensures (Workspace.soundness project) (fun _ => True) (all project) fun _ _ => True := by
  simp only [all]
  apply Ensures.bind (.forEach ?_)
  · intro operations
    apply Ensures.bind (.forEach ?_)
    · intro fragments
      exact .pure fun _ _ => trivial
    · intro member _ workspace sound _
      rcases ensures_fragment member.2.name workspace sound trivial with ⟨later, -, -⟩
      exact ⟨later, trivial, fun _ _ => trivial⟩
  · rintro ⟨document, index⟩ mem
    apply Ensures.forEach
    intro operation isOperation
    exact ensures_operationIn (List.mem_zipIdx_iff_getElem?.mp mem) isOperation

end Build

theorem Workspace.isSound_of_reachable (reachable : Workspace.Reachable project workspace) :
    workspace.IsSound project := by
  induction reachable with
  | empty => exact isSound_empty
  | operation _ name sound => exact (Build.ensures_operation name _ sound trivial).1
  | operationIn _ isDocument isOperation sound =>
      exact (Build.isSound_operationIn sound isDocument isOperation).1
  | fragment _ name sound => exact (Build.ensures_fragment name _ sound trivial).1
  | all _ sound => exact (Build.ensures_all _ sound trivial).1
  | view _ set strategy sound =>
      simp only [Build.viewUnder, Build.runIn_bind, Build.runIn_get, Build.runIn_set,
        Build.runIn_ofExcept]
      exact ⟨sound.entities, sound.registered, sound.fragments, sound.operations, sound.unbuilt,
        sound.stored, sound.attempts⟩

/-- What is known of a built operation of a valid compilation. -/
theorem Workspace.IsSound.exists_built {schema : String} {sources : List SourceText} {index : Nat}
    {document : DocumentFile} {operation : Operation} {shape : OperationShape}
    (valid : Compilation.validated? schema sources = some project.compilation)
    (sound : workspace.IsSound project)
    (isDocument : project.compilation.documents[index]? = some document)
    (isOperation : operation ∈ document.document.operations)
    (isBuilt : (⟨index, operation.name⟩, shape) ∈ workspace.operations) :
    ∃ occurrences, shape.root.IsBuilt project workspace.fragment?
        (.operation index operation.kind operation.name) operation.rootType operation.selections
        occurrences
      ∧ workspace.Registers (.operation index operation.kind operation.name) occurrences := by
  rcases sound.operations _ _ isBuilt with
    ⟨other, definition, occurrences, isOther, mem, sameName, built, registered⟩
  rcases Option.some.inj (isDocument.symm.trans isOther) with rfl
  have nodup := Compilation.nodup_operations valid (List.mem_of_getElem? isDocument)
  rcases List.inj_on_of_nodup_map nodup mem isOperation sameName with rfl
  exact ⟨occurrences, built, registered⟩

end ResponseShape
