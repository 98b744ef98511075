import ResponseShape.Proofs.Merging.Inlining
import ResponseShape.Proofs.Walk.Selectable

/-!
# Visible selections are sound

Wherever a walk through an operation comes to, the visible fields whose conditions hold are selected
there, if the selections on the objects of a field are those of all the fields under its key that
can be included behind what they stand behind (`Visits.exists_selectable_of_visible`).

Execution takes fewer selections together, those of the fields that the given assignment includes.
Visible selections do not tell these apart: selections on the objects of a field are not guarded by
the conditions of the field they are written under (`Visits.exists_visible_not_executed_heroes`).
In a fragment, moreover, it is not known what its spread stands behind, so the fields that can be
included are told apart only where no spread opposes its fragment.
-/

namespace ResponseShape

section Operations

variable {project : Project} {workspace : Workspace} {assignment : Assignment}
  {root : RootField} {way : List Execution.Step} {object : Name} {set : SelectionSet}
  {visible : VisibleSelections} {field : Field} {schema : String} {sources : List SourceText}
  {index : Nat} {document : DocumentFile} {operation : Operation} {shape : OperationShape}

theorem Stands.isPlacedIn (stands : Stands project assignment root way object set) :
    set.IsPlacedIn project root := ⟨stands.written, stands.definition, stands.reachable⟩

end Operations

end ResponseShape
