import ResponseShape.Proofs.Definition.Resemblance
import ResponseShape.Proofs.Workspace.Reachable

/-!
# Built definitions

An operation or a fragment that is built in a workspace has all its occurrences registered, and what
is registered for its entities are these occurrences, or like ones that a failed attempt to build it
left behind (`Workspace.IsSound.hasBuilt`). With this both kinds of definitions are treated alike.
-/

namespace ResponseShape

namespace Workspace

/-- Whether a root field is that of an operation or a fragment that is built. -/
def HasRoot (workspace : Workspace) (root : RootField) : Prop :=
  (∃ key shape, (key, shape) ∈ workspace.operations ∧ shape.root = root)
    ∨ ∃ shape ∈ workspace.fragments, shape.root = root

/-- Whether a definition is built, and what is registered for its entities are its occurrences. -/
structure HasBuilt (project : Project) (workspace : Workspace) (definition : DefinitionId)
    (type : Name) (selections : List Selection) (root : RootField)
    (occurrences : List Occurrence) : Prop where
  built : root.IsBuilt project workspace.fragment? definition type selections occurrences
  registered : workspace.HoldsAll occurrences
  alike : ∀ location, location.definition = definition →
    ∀ occurrence ∈ workspace.entities.occurrences location,
      ∃ twin ∈ occurrences, occurrence.IsLike twin

end Workspace

theorem Occurrence.IsLike.refl (occurrence : Occurrence) : occurrence.IsLike occurrence :=
  ⟨⟨rfl, rfl, rfl⟩, .refl _, rfl⟩

/-- A definition is built if exactly its occurrences are registered for its entities. -/
theorem Workspace.HasBuilt.of_registers {project : Project} {workspace : Workspace}
    {definition : DefinitionId} {type : Name} {selections : List Selection} {root : RootField}
    {occurrences : List Occurrence}
    (built : root.IsBuilt project workspace.fragment? definition type selections occurrences)
    (registers : workspace.Registers definition occurrences) :
    workspace.HasBuilt project definition type selections root occurrences := by
  refine ⟨built, ?_, ?_⟩
  · intro occurrence isOccurrence
    rw [registers _ (built.rooted occurrence isOccurrence).definition]
    exact List.mem_filter.mpr ⟨isOccurrence, beq_self_eq_true _⟩
  · intro location isDefinition occurrence isRegistered
    rw [registers location isDefinition] at isRegistered
    exact ⟨occurrence, (List.mem_filter.mp isRegistered).1, .refl _⟩

namespace Workspace.IsSound

variable {project : Project} {workspace : Workspace} (sound : workspace.IsSound project)

include sound

theorem hasBuilt_of_operation {key : OperationKey} {shape : OperationShape}
    (mem : (key, shape) ∈ workspace.operations) : ∃ definition type selections occurrences,
      workspace.HasBuilt project definition type selections shape.root occurrences := by
  rcases sound.operations key shape mem with
    ⟨document, definition, occurrences, -, -, -, built, registers⟩
  exact ⟨_, _, _, occurrences, .of_registers built registers⟩

/-- What was found for a fragment is all that its entities have, up to likeness. -/
theorem hasBuilt_of_fragment {shape : FragmentShape} (mem : shape ∈ workspace.fragments) :
    ∃ fragment, project.compilation.spreadFragment? shape.name = some fragment
      ∧ workspace.HasBuilt project (.fragment shape.name) fragment.typeCondition
        fragment.selections shape.root shape.occurrences := by
  rcases List.append_of_mem mem with ⟨before, after, split⟩
  rcases sound.fragments before shape after split with ⟨document, fragment, isDefined, builtBefore⟩
  have isFragment := Compilation.spreadFragment?_of_fragment? isDefined
  have built : shape.root.IsBuilt project workspace.fragment? (.fragment shape.name)
      fragment.typeCondition fragment.selections shape.occurrences :=
    builtBefore.mono fun name earlier found => fragment?_of_before split found
  refine ⟨fragment, isFragment, built, sound.stored shape mem, ?_⟩
  rintro ⟨_, steps⟩ rfl occurrence isRegistered
  rcases sound.attempts shape.name steps occurrence isRegistered with
    ⟨other, root, others, isOther, otherBuilt, -, otherMem⟩
  rw [isFragment, Option.some.injEq] at isOther
  subst isOther
  exact otherBuilt.exists_like built occurrence otherMem

theorem hasBuilt {root : RootField} (hasRoot : workspace.HasRoot root) :
    ∃ definition type selections occurrences,
      workspace.HasBuilt project definition type selections root occurrences := by
  rcases hasRoot with ⟨key, shape, mem, rfl⟩ | ⟨shape, mem, rfl⟩
  · exact sound.hasBuilt_of_operation mem
  · rcases sound.hasBuilt_of_fragment mem with ⟨fragment, -, built⟩
    exact ⟨_, _, _, _, built⟩

end Workspace.IsSound

end ResponseShape
