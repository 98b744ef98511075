import ResponseShape.Proofs.Merging.Alignment
import ResponseShape.Proofs.Workspace.Identity

/-!
# Sessions break no invariant

Whatever is built and asked for, all places that a session shows are aligned, and have the entities
that the table holds (`Session.hasPlace_of_shows`). For what is built or registered the workspace
sees to that, and for views merging does if the set that was asked for has its places in the
workspace; the log leads every set that is at hand back to one that is written. So merging never
misses an entity, and no call fails with a broken invariant (`Session.never_internal`).
-/

namespace ResponseShape

namespace Session

/-- The places that a session shows: in what is built, in what is registered, and in views. -/
inductive Shows (session : Session) (place : Place) : Prop where
  | built {root : RootField} (hasRoot : session.workspace.HasRoot root)
      (mem : place ∈ root.places) : Shows session place
  | registered {location : Location} {occurrence : Occurrence}
      (isRegistered : occurrence ∈ session.workspace.entities.occurrences location)
      (mem : place ∈ occurrence.places) : Shows session place
  | visible {visible : VisibleSelections} (given : visible ∈ session.views)
      (mem : place ∈ visible.places) : Shows session place

section Calls

variable {project : Project} {session : Session} {log : List Request} {call : Call}
  {request : Request} {set : SelectionSet} {place : Place}

/-- Whether the sets that were asked for had their places in the workspace then. -/
def ArePlaced (project : Project) (log : List Request) : Prop :=
  ∀ request ∈ log, ∀ place ∈ request.set.places, request.workspace.HasPlace project place

namespace IsLogged

variable (isLogged : session.IsLogged project log) (arePlaced : ArePlaced project log)

include isLogged arePlaced

theorem hasPlace_of_visible {visible : VisibleSelections} (given : visible ∈ session.views) :
    ∀ place ∈ visible.places, session.workspace.HasPlace project place := by
  -- it may have come from the cache, but some request has computed it
  rcases isLogged.views visible given with ⟨request, mem, computed⟩
  rcases isLogged.requests request mem with ⟨aligned, preserves, -⟩
  have yields := SelectionSet.yields_hasPlaces aligned (arePlaced request mem) request.strategy
  rw [show request.set.visible _ _ _ = .ok visible from computed] at yields
  exact fun place placeMem => (yields place placeMem).mono preserves

theorem hasPlace_of_holds (holds : session.Holds set) :
    ∀ place ∈ set.places, session.workspace.HasPlace project place := by
  intro place placeMem
  cases holds with
  | written offers mem =>
      exact isLogged.aligned.hasPlace_of_written offers.hasRoot mem place placeMem
  | field given mem isInner =>
      exact isLogged.hasPlace_of_visible arePlaced given place
        (VisibleSelections.mem_places_of_field mem isInner placeMem)
  | branch given mem =>
      exact isLogged.hasPlace_of_visible arePlaced given place
        (VisibleSelections.mem_places_of_branch mem placeMem)

end IsLogged

theorem Logs.arePlaced (logs : Logs project log session) : ArePlaced project log := by
  induction logs with
  | start => exact fun _ mem => by cases mem
  | @call log session call logs allows ih =>
      refine List.forall_mem_append.mpr ⟨ih, ?_⟩
      intro request mem
      rw [Option.mem_toList] at mem
      rcases of_request mem with ⟨isHere, holds, -⟩
      rw [isHere]
      exact logs.isLogged.hasPlace_of_holds ih (holds allows)

/-- Every place that a session shows is aligned, and has the very entity that the table holds. -/
theorem hasPlace_of_shows (arises : session.Arises project) (isShown : session.Shows place) :
    session.workspace.HasPlace project place := by
  rcases arises.exists_logs with ⟨log, logs⟩
  have isLogged := logs.isLogged
  cases isShown with
  | built hasRoot mem => exact isLogged.aligned.hasPlace_of_hasRoot hasRoot place mem
  | registered isRegistered mem =>
      exact isLogged.aligned.hasPlace_of_registered isRegistered place mem
  | visible given mem => exact isLogged.hasPlace_of_visible logs.arePlaced given place mem

/-- Behind the condition heroes are only seen, and the place of the branch towards humans is aligned
all the same. -/
theorem hasPlace_characters : ∃ (session : Session) (visible : VisibleSelections)
    (branch : Branch), session.Arises Characters.project ∧ visible ∈ session.views
      ∧ branch ∈ visible.branches
      ∧ session.workspace.HasPlace Characters.project branch.selectionSet.place := by
  rcases Characters.exists_branch with
    ⟨set, inner, visible, branch, holds, holdsInner, -, given, -, mem⟩
  have arises := (Characters.arises_built.call
    (show Characters.built.Allows (.viewUnder set .all) from holds)).call
    (show Session.Allows _ (.viewUnder inner .all) from holdsInner)
  have isPlace := VisibleSelections.mem_places_of_branch mem
    branch.selectionSet.self_mem_places
  exact ⟨_, visible, branch, arises, given, mem, hasPlace_of_shows arises (.visible given isPlace)⟩

/-- No call fails with a broken invariant. -/
theorem never_internal (arises : session.Arises project) (allows : session.Allows call)
    (details : String) :
    ((call.run project).runIn session.workspace).1 ≠ .error (.internal details) := by
  intro failed
  rcases arises.exists_logs with ⟨log, logs⟩
  have isLogged := logs.isLogged
  cases isRequest : call.request? project session.workspace with
  | none =>
      have yields := (aligns_of_no_request isRequest session.workspace isLogged.aligned).2.2
      rw [failed] at yields
      cases yields
  | some request =>
      rcases of_request isRequest with ⟨isHere, holds, runs⟩
      have placed := isLogged.hasPlace_of_holds logs.arePlaced (holds allows)
      have yields := SelectionSet.yields_hasPlaces isLogged.aligned placed request.strategy
      rw [runs] at failed
      cases answered : request.answer project with
      | ok visible => simp [answered, Except.map] at failed
      | error error =>
          simp only [answered, Except.map, Except.error.injEq] at failed
          have own := Request.own_of_answer answered
          rw [Request.own, isHere] at own
          rw [own, failed] at yields
          cases yields

end Calls

/-- Asking for what is visible where heroes are only seen breaks no invariant. -/
theorem never_internal_characters : ∃ (session : Session) (set : SelectionSet),
    session.Arises Characters.project ∧ session.Holds set ∧ set.direct.isNone
      ∧ ∀ details, (((Call.viewUnder set .all).run Characters.project).runIn session.workspace).1
        ≠ .error (.internal details) := by
  rcases Characters.exists_branch with ⟨set, inner, -, -, holds, holdsInner, isMerged, -⟩
  have arises := Characters.arises_built.call
    (show Characters.built.Allows (.viewUnder set .all) from holds)
  exact ⟨_, inner, arises, holdsInner, isMerged, never_internal arises
    (show Session.Allows _ (.viewUnder inner .all) from holdsInner)⟩

end Session

end ResponseShape
