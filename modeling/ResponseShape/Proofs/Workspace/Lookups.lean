import ResponseShape.Definition.Build
import ResponseShape.Proofs.Workspace.Runs

/-!
# Definitions that are asked for

A definition that is asked for is looked up, and built only if it is not there. So what is ensured
of it is a matter of what is stored and of what is built. For fragments, which are built while
others are, the induction is on how deep they may nest (`Build.ensures_fragmentWithin_of`).
-/

namespace ResponseShape.Build

variable {project : Project}

section Runs

variable {workspace : Workspace} {name : Name} {height : Nat}

theorem fragmentWithin_of_undefined (isUndefined : project.compilation.fragment? name = none) :
    fragmentWithin project height name = throw (.unknownFragment name) := by
  unfold fragmentWithin
  simp only [isUndefined]

/-- Asking for a fragment that is stored gives it, and changes nothing. -/
theorem runIn_fragmentWithin_of_stored {defined : DocumentFile × Fragment} {shape : FragmentShape}
    (isDefined : project.compilation.fragment? name = some defined)
    (isStored : workspace.fragment? name = some shape) :
    (fragmentWithin project height name).runIn workspace = (.ok shape, workspace) := by
  unfold fragmentWithin
  simp only [isDefined, runIn_bind, runIn_get, isStored, runIn_pure]

theorem runIn_operationIn_of_stored {index : Nat} {document : DocumentFile}
    {definition : Operation} {shape : OperationShape}
    (isStored : workspace.operation? ⟨index, definition.name⟩ = some shape) :
    (operationIn project index document definition).runIn workspace = (.ok shape, workspace) := by
  simp only [operationIn, runIn_bind, runIn_get, isStored, runIn_pure]

end Runs

/-- A step that goes on as a value is found, or else builds one, gives what is described. -/
theorem ensures_lookup {α : Type} {law : Law} {after : α → Workspace → Prop} {build : Build α}
    {step : Workspace → Build α} (find? : Workspace → Option α)
    (stepsFound : ∀ workspace value, find? workspace = some value → step workspace = pure value)
    (stepsMissing : ∀ workspace, find? workspace = none → step workspace = build)
    (isThere : ∀ workspace value, law.valid workspace → find? workspace = some value →
      after value workspace)
    (builds : Ensures law (fun workspace => find? workspace = none) build after) :
    Ensures law (fun _ => True) (get >>= step) after := by
  intro workspace valid _
  rw [runIn_bind, runIn_get]
  dsimp only
  cases found : find? workspace with
  | none =>
      rw [stepsMissing workspace found]
      exact builds workspace valid found
  | some value =>
      rw [stepsFound workspace value found]
      exact Ensures.pure (fun _ => id) workspace valid (isThere workspace value valid found)

section Fragments

variable {law : Name → Law} {describes : Name → FragmentShape → Workspace → Prop}
  (isStored : ∀ name workspace shape, (law name).valid workspace →
    workspace.fragment? name = some shape → describes name shape workspace)
  (builds : ∀ fragment name document definition,
    project.compilation.fragment? name = some (document, definition) →
    (∀ other, Ensures (law other) (fun _ => True) (fragment other) (describes other)) →
      Ensures (law name) (fun workspace => workspace.fragment? name = none)
        (do
          let shape ← fragmentDefinition project fragment document definition
          storeFragment shape
          return shape)
        (describes name))

include isStored builds

/-- A fragment that is asked for is as described, if it is when it is stored, and when it is built
with fragments that are. -/
theorem ensures_fragmentWithin_of (height : Nat) (name : Name) :
    Ensures (law name) (fun _ => True) (fragmentWithin project height name) (describes name) := by
  induction height generalizing name with
  | zero =>
      unfold fragmentWithin
      split
      next => exact .throw _
      next =>
        exact ensures_lookup (·.fragment? name) (fun _ _ found => by simp only [found])
          (fun _ isMissing => by simp only [isMissing]) (isStored name)
          (.throw (.cyclicFragment name))
  | succ height ih =>
      unfold fragmentWithin
      split
      next => exact .throw _
      next found =>
        exact ensures_lookup (·.fragment? name) (fun _ _ found => by simp only [found])
          (fun _ isMissing => by simp only [isMissing]) (isStored name) (builds _ _ _ _ found ih)

end Fragments

/-- An operation that is asked for is as described, if it is when it is stored, and when it is
built. -/
theorem ensures_operationIn_of {law : Law} {describes : OperationShape → Workspace → Prop}
    {index : Nat} {document : DocumentFile} {definition : Operation}
    (isStored : ∀ workspace key shape, law.valid workspace →
      workspace.operation? key = some shape → describes shape workspace)
    (builds : Ensures law (fun _ => True) (operationDefinition project index document definition)
      describes)
    (stores : ∀ key shape, Ensures law (describes shape)
      (modify fun workspace =>
        { workspace with operations := workspace.operations ++ [(key, shape)] })
      fun _ => describes shape) :
    Ensures law (fun _ => True) (operationIn project index document definition) describes := by
  simp only [operationIn]
  refine ensures_lookup (·.operation? ⟨index, definition.name⟩)
    (fun _ _ found => by simp only [found]) (fun _ isMissing => by simp only [isMissing]; rfl)
    (fun workspace => isStored workspace _) ?_
  apply Ensures.anywhere
  apply Ensures.bind builds
  intro shape
  apply Ensures.bind (stores _ shape)
  exact fun _ => Ensures.pure fun _ => id

end ResponseShape.Build
