import ResponseShape.Proofs.Merging.Caching
import ResponseShape.Proofs.Workspace.Persistence

/-!
# Requests for views

The cache is not to be noticed but in what it saves. A session's log lists the requests for views
that were made in it, each with the workspace that it was made in (`Session.Logs`). Whatever was
built and asked before, each request was answered with what computing it then and there gives; a key
that had succeeded was answered from the cache; and the cache has counted as many keys and
computations as the log tells (`Session.isTransparent_of_logs`).
-/

namespace ResponseShape

/-- A request for what is visible at a set, and the workspace that it is made in. -/
structure Request where
  workspace : Workspace
  set : SelectionSet
  strategy : MergingStrategy

namespace Request

/-- What the cache knows the request by. -/
def key (request : Request) : ViewKey := request.set.viewKey request.strategy

/-- What computing the view gives, cache or no cache. -/
def own (project : Project) (request : Request) : Except BuildError VisibleSelections :=
  request.set.visible project.schema request.workspace.entities request.strategy

/-- The step that the request takes. -/
def run (project : Project) (request : Request) : Except BuildError VisibleSelections × Workspace :=
  (Build.viewUnder project request.set request.strategy).runIn request.workspace

/-- What the request is answered. -/
def answer (project : Project) (request : Request) : Except BuildError VisibleSelections :=
  (request.run project).1

/-- What the cache is asked for by the request, and its answer. -/
def exchange (project : Project) (request : Request) : Exchange :=
  ⟨request.key, request.answer project⟩

theorem run_eq (project : Project) (request : Request) : request.run project =
    let asked := request.workspace.cache.getOrCompute request.key fun _ => request.own project
    (asked.1, { request.workspace with cache := asked.2 }) :=
  Build.runIn_viewUnder request.set request.strategy

/-- An error is never one that was remembered. -/
theorem own_of_answer {project : Project} {request : Request} {error : BuildError}
    (failed : request.answer project = .error error) : request.own project = .error error := by
  rw [answer, run_eq] at failed
  simp only [ViewCache.getOrCompute] at failed
  split at failed
  next => cases failed
  next =>
    split at failed
    next => cases failed
    next computed => exact computed.trans failed

/-- Whether the request was answered without an error. -/
def succeeds (project : Project) (request : Request) : Bool := (request.answer project).isOk

end Request

/-- The request for a view that a call is, if it is one. -/
def Call.request? (project : Project) (workspace : Workspace) : Call → Option Request
  | .view set => some ⟨workspace, set, project.config.mergingStrategy⟩
  | .viewUnder set strategy => some ⟨workspace, set, strategy⟩
  | _ => none

namespace Session

/-- The requests for views that are made on the way to a session. -/
inductive Logs (project : Project) : List Request → Session → Prop where
  | start : Logs project [] .start
  | call {log : List Request} {session : Session} {call : Call} (logs : Logs project log session)
      (allows : session.Allows call) :
      Logs project (log ++ (call.request? project session.workspace).toList)
        (session.after project call)

/-- Whether the cache is not to be noticed in a session but in what it saves. -/
structure IsTransparent (project : Project) (log : List Request) (session : Session) : Prop where
  answers : ∀ request ∈ log,
    Matches VisibleSelections.IsAlike (request.answer project) (request.own project)
  remembers : log.Pairwise fun earlier later => (earlier.key == later.key) = true →
    ∀ visible, earlier.answer project = .ok visible →
      later.run project = (.ok visible, later.workspace)
  computations : session.workspace.cache.computations
    = (distinct ((log.filter (·.succeeds project)).map (·.key))).length
      + (log.filter (!·.succeeds project)).length
  size : session.workspace.cache.size = (distinct (log.map (·.key))).length

/-- What is known of a session by its log. Each request was made for a set of a definition that was
built, and answered with nothing else than was computed for an equal key. -/
structure IsLogged (project : Project) (log : List Request) (session : Session) : Prop where
  aligned : session.workspace.IsAligned project
  requests : ∀ request ∈ log, request.workspace.IsAligned project
    ∧ request.workspace.Preserves session.workspace
    ∧ request.set.StandsIn project request.workspace
  accounts : session.workspace.cache.Accounts (log.map (·.exchange project))
  answers : ∀ request ∈ log, ∀ visible, request.answer project = .ok visible →
    ∃ other ∈ log, (other.key == request.key) = true ∧ other.own project = .ok visible
  remembers : log.Pairwise fun earlier later => (earlier.key == later.key) = true →
    ∀ visible, earlier.answer project = .ok visible →
      later.run project = (.ok visible, later.workspace)
  views : ∀ visible ∈ session.views, ∃ request ∈ log, request.own project = .ok visible

section Calls

variable {project : Project} {session : Session} {log : List Request} {call : Call}
  {request : Request} {set : SelectionSet}

theorem Arises.exists_logs (arises : session.Arises project) :
    ∃ log, Logs project log session := by
  induction arises with
  | start => exact ⟨[], .start⟩
  | call _ allows ih =>
      rcases ih with ⟨log, logs⟩
      exact ⟨_, .call logs allows⟩

/-- A call that is a request for a view is one for a set at hand, and does what the request does. -/
theorem of_request (isRequest : call.request? project session.workspace = some request) :
    request.workspace = session.workspace ∧ (session.Allows call → session.Holds request.set)
      ∧ (call.run project).runIn session.workspace
        = ((request.answer project).map .view, (request.run project).2) := by
  cases call with
  | operation => cases isRequest
  | fragment => cases isRequest
  | all => cases isRequest
  | view set =>
      rcases Option.some.inj isRequest with rfl
      exact ⟨rfl, id, Build.runIn_return _ _ _⟩
  | viewUnder set strategy =>
      rcases Option.some.inj isRequest with rfl
      exact ⟨rfl, id, Build.runIn_return _ _ _⟩

theorem after_of_request (isRequest : call.request? project session.workspace = some request) :
    session.after project call = ⟨(request.run project).2,
      session.views ++ (request.answer project).toOption.toList⟩ := by
  rw [Session.after, (of_request isRequest).2.2]
  cases request.answer project <;> rfl

/-- A call that is no request builds, and gives no view. -/
theorem aligns_of_no_request {workspace : Workspace}
    (isBuild : call.request? project workspace = none) :
    Build.Aligns project (call.run project) fun answer => Answer.views (.ok answer) = [] := by
  cases call with
  | operation name => exact (Build.aligns_operation name).bind fun _ _ => .pure rfl
  | fragment name => exact (Build.aligns_fragment name).bind fun _ _ => .pure rfl
  | all => exact Build.aligns_all.bind fun _ _ => .pure rfl
  | view => cases isBuild
  | viewUnder => cases isBuild

namespace IsLogged

variable (isLogged : session.IsLogged project log)

include isLogged

theorem standsIn (holds : session.Holds set) : set.StandsIn project session.workspace := by
  have ofView {visible : VisibleSelections} (given : visible ∈ session.views) :
      (∀ field ∈ visible.fields, ∀ inner, field.selectionSet = some inner →
          inner.StandsIn project session.workspace)
        ∧ ∀ branch ∈ visible.branches, branch.selectionSet.StandsIn project session.workspace := by
    rcases isLogged.views visible given with ⟨request, mem, computed⟩
    rcases isLogged.requests request mem with ⟨aligned, preserves, root, offers, placed⟩
    rcases placed.of_visible aligned.sound offers computed with ⟨ofFields, ofBranches⟩
    exact ⟨fun field mem inner isInner =>
        ⟨root, preserves.offers offers, ofFields field mem inner isInner⟩,
      fun branch mem => ⟨root, preserves.offers offers, ofBranches branch mem⟩⟩
  cases holds with
  | written offers mem =>
      exact ⟨_, offers, SelectionSet.isPlacedIn_of_offers isLogged.aligned.sound offers mem⟩
  | field given mem isInner => exact (ofView given).1 _ mem _ isInner
  | branch given mem => exact (ofView given).2 _ mem

theorem afterBuild {workspace : Workspace} (aligned : workspace.IsAligned project)
    (preserves : session.workspace.Preserves workspace)
    (cache : workspace.cache = session.workspace.cache) :
    IsLogged project log ⟨workspace, session.views⟩ where
  aligned := aligned
  requests request mem := by
    rcases isLogged.requests request mem with ⟨isAligned, earlier, stands⟩
    exact ⟨isAligned, earlier.trans preserves, stands⟩
  accounts := by
    rw [cache]
    exact isLogged.accounts
  answers := isLogged.answers
  remembers := isLogged.remembers
  views := isLogged.views

section Requested

variable (isHere : request.workspace = session.workspace) {visible : VisibleSelections}

include isHere

/-- What a request is answered was once computed for an equal one, or is computed now. -/
theorem exists_own (answered : request.answer project = .ok visible) :
    ∃ other ∈ log ++ [request], (other.key == request.key) = true
      ∧ other.own project = .ok visible := by
  rw [Request.answer, Request.run_eq] at answered
  simp only [ViewCache.getOrCompute, isHere] at answered
  split at answered
  next known found =>
    rcases Except.ok.inj answered with rfl
    rcases isLogged.accounts.origin request.key _ found with ⟨_, isExchange, same, isAnswer⟩
    rcases List.mem_map.mp isExchange with ⟨earlier, mem, rfl⟩
    rcases isLogged.answers earlier mem _ isAnswer with ⟨other, otherMem, isEarlier, computed⟩
    exact ⟨other, List.mem_append_left _ otherMem, PartialEquivBEq.trans isEarlier same, computed⟩
  next =>
    refine ⟨request, List.mem_append_right _ (List.mem_singleton_self _), BEq.rfl, ?_⟩
    split at answered
    next computed => exact computed.trans answered
    next => cases answered

theorem run_of_succeeded {earlier : Request} (mem : earlier ∈ log)
    (same : (earlier.key == request.key) = true)
    (answered : earlier.answer project = .ok visible) :
    request.run project = (.ok visible, request.workspace) := by
  have found := isLogged.accounts.results _ (List.mem_map_of_mem mem) visible answered
  rw [Request.exchange, ViewCache.result?_congr _ same] at found
  rw [Request.run_eq]
  simp only [ViewCache.getOrCompute, isHere, found]

theorem afterRequest
    (stands : request.set.StandsIn project session.workspace) :
    IsLogged project (log ++ [request]) ⟨(request.run project).2,
      session.views ++ (request.answer project).toOption.toList⟩ := by
  have later : (request.run project).2 = { session.workspace with
      cache := (request.run project).2.cache } := by
    rw [Request.run_eq, isHere]
  have asked : (request.run project).2.cache.Accounts
      ((log ++ [request]).map (·.exchange project)) := by
    rw [List.map_append, List.map_singleton, Request.exchange, Request.answer, Request.run_eq,
      isHere]
    exact isLogged.accounts.ask request.key _
  constructor
  · rw [later]
    exact isLogged.aligned.withCache _
  · rw [List.forall_mem_append, List.forall_mem_singleton, isHere, later]
    refine ⟨?_, isLogged.aligned, .withCache _ _, stands⟩
    intro earlier mem
    rcases isLogged.requests earlier mem with ⟨isAligned, preserves, isPlaced⟩
    exact ⟨isAligned, preserves.trans (.withCache _ _), isPlaced⟩
  · exact asked
  · rw [List.forall_mem_append, List.forall_mem_singleton]
    refine ⟨?_, fun visible => isLogged.exists_own isHere⟩
    intro earlier mem visible answered
    rcases isLogged.answers earlier mem visible answered with ⟨other, otherMem, rest⟩
    exact ⟨other, List.mem_append_left _ otherMem, rest⟩
  · rw [List.pairwise_append]
    refine ⟨isLogged.remembers, List.pairwise_singleton _ _, ?_⟩
    intro earlier mem last lastMem same visible answered
    rw [List.mem_singleton.mp lastMem] at same ⊢
    exact isLogged.run_of_succeeded isHere mem same answered
  · rw [List.forall_mem_append]
    constructor
    · intro visible given
      rcases isLogged.views visible given with ⟨other, mem, computed⟩
      exact ⟨other, List.mem_append_left _ mem, computed⟩
    · intro visible given
      rw [Option.mem_toList] at given
      rcases isLogged.exists_own isHere (Build.eq_ok_of_toOption given) with
        ⟨other, mem, -, computed⟩
      exact ⟨other, mem, computed⟩

end Requested

/-- Each call leaves a session logged, whether it fails or not. -/
theorem after (allows : session.Allows call) :
    IsLogged project (log ++ (call.request? project session.workspace).toList)
      (session.after project call) := by
  cases isRequest : call.request? project session.workspace with
  | none =>
      rw [Option.toList_none, List.append_nil]
      rcases aligns_of_no_request isRequest session.workspace isLogged.aligned with
        ⟨aligned, ⟨preserves, cache⟩, yields⟩
      have noViews : Answer.views ((call.run project).runIn session.workspace).1 = [] := by
        cases outcome : ((call.run project).runIn session.workspace).1 with
        | error error => rfl
        | ok answer =>
            rw [outcome] at yields
            exact yields
      rw [Session.after, noViews, List.append_nil]
      exact isLogged.afterBuild aligned preserves cache
  | some request =>
      rcases of_request isRequest with ⟨isHere, holds, -⟩
      rw [Option.toList_some, after_of_request isRequest]
      exact isLogged.afterRequest isHere (isLogged.standsIn (holds allows))

end IsLogged

theorem Logs.isLogged (logs : Logs project log session) : session.IsLogged project log := by
  induction logs with
  | start =>
      exact ⟨Workspace.isAligned_empty, by simp, ViewCache.accounts_empty, by simp, .nil,
        fun _ given => by cases given⟩
  | call _ allows ih => exact ih.after allows

/-- Each request was answered with what is computed for its own set. -/
theorem IsLogged.matches_answer (isLogged : session.IsLogged project log) (mem : request ∈ log) :
    Matches VisibleSelections.IsAlike (request.answer project) (request.own project) := by
  cases answered : request.answer project with
  | error error =>
      rw [Request.own_of_answer answered]
      exact .error error
  | ok visible =>
      -- what was given was computed for an equal key, and so for an equal place
      rcases isLogged.answers request mem visible answered with ⟨other, otherMem, same, computed⟩
      rcases isLogged.requests request mem with ⟨aligned, preserves, root, offers, placed⟩
      rcases isLogged.requests other otherMem with
        ⟨otherAligned, otherPreserves, otherRoot, otherOffers, otherPlaced⟩
      rcases ViewKey.beq_iff.mp same with ⟨place, strategy, isDirect⟩
      rw [← computed, Request.own, Request.own]
      rw [show other.strategy = request.strategy from strategy]
      exact SelectionSet.matches_visible_of_preserves isLogged.aligned.sound otherAligned aligned
        otherPreserves preserves otherOffers offers otherPlaced placed place isDirect _

/-- In every session, whatever was asked for before, requests for views are answered with what is
computed for their own sets; a key that has succeeded is answered from the cache, with what was
given then; and the cache counts the keys and computations that the log tells. -/
theorem isTransparent_of_logs (logs : Logs project log session) :
    session.IsTransparent project log := by
  have isLogged := logs.isLogged
  refine ⟨fun request mem => isLogged.matches_answer mem, isLogged.remembers, ?_, ?_⟩
  · have counts := isLogged.accounts.computations
    rw [List.filter_map, List.filter_map, List.map_map, List.length_map] at counts
    exact counts
  · have keys := congrArg List.length isLogged.accounts.keys
    rw [List.length_map, List.map_map] at keys
    exact keys

/-- What is at hand stays at hand, whatever is asked for. -/
theorem Logs.holds_after (logs : Logs project log session) (holds : session.Holds set) :
    (session.after project call).Holds set := by
  have isLogged := logs.isLogged
  have preserves : session.workspace.Preserves (session.after project call).workspace := by
    cases isRequest : call.request? project session.workspace with
    | none =>
        exact (aligns_of_no_request isRequest session.workspace isLogged.aligned).2.1.1
    | some request =>
        rw [after_of_request isRequest, Request.run_eq, (of_request isRequest).1]
        exact .withCache _ _
  cases holds with
  | written offers mem => exact .written (preserves.offers offers) mem
  | field given mem isInner => exact .field (List.mem_append_left _ given) mem isInner
  | branch given mem => exact .branch (List.mem_append_left _ given) mem

/-- What succeeds is computed once, though it is asked for twice. -/
theorem IsTransparent.computations_twice {again : Request} {visible : VisibleSelections}
    (transparent : session.IsTransparent project [request, again])
    (same : (request.key == again.key) = true) (answered : request.answer project = .ok visible) :
    again.answer project = .ok visible ∧ session.workspace.cache.computations = 1 := by
  have isAgain : again.answer project = .ok visible := by
    rw [Request.answer, List.pairwise_pair.mp transparent.remembers same visible answered]
  refine ⟨isAgain, ?_⟩
  have counts := transparent.computations
  simp only [List.filter_cons, Request.succeeds, answered, isAgain] at counts
  simpa [Except.isOk, Except.toBool, distinct, appendAllNew, appendNew, BEq.symm same] using counts

end Calls

/-- What is selected on the hero is computed once, however often it is asked for. -/
theorem isTransparent_renown : ∃ (request again : Request) (session : Session),
    Logs Renown.project [request, again] session ∧ (request.key == again.key) = true
      ∧ (∃ visible, again.answer Renown.project = .ok visible)
      ∧ session.workspace.cache.computations = 1
      ∧ session.IsTransparent Renown.project [request, again] := by
  rcases Renown.exists_holds with ⟨set, -, holds, -, -, -, visible, computes, -⟩
  let request : Request := ⟨Renown.built.workspace, set, .all⟩
  let later : Session := Renown.built.after Renown.project (.viewUnder set .all)
  let again : Request := ⟨later.workspace, set, .all⟩
  have unasked : Logs Renown.project [] Renown.built :=
    Logs.start.call (show start.Allows (.operation (some "Q")) from trivial)
  have once : Logs Renown.project [request] later :=
    unasked.call (show Renown.built.Allows (.viewUnder set .all) from holds)
  have stays : later.Holds set := unasked.holds_after holds
  have twice : Logs Renown.project [request, again]
      (later.after Renown.project (.viewUnder set .all)) :=
    once.call (show later.Allows (.viewUnder set .all) from stays)
  have transparent := isTransparent_of_logs twice
  -- said of any workspaces, lest these two be computed to be compared
  have alike (past now : Workspace) :
      ((Request.mk past set .all).key == (Request.mk now set .all).key) = true :=
    @BEq.rfl _ _ _ (set.viewKey .all)
  have own (past : Workspace) : (Request.mk past set .all).own Renown.project
      = set.visible Renown.project.schema past.entities .all := rfl
  have same : (request.key == again.key) = true := alike _ _
  have matched := transparent.answers request List.mem_cons_self
  rw [own, computes] at matched
  rcases matched.exists_ok with ⟨other, answered, -⟩
  rcases transparent.computations_twice same answered with ⟨isAgain, computations⟩
  exact ⟨request, again, _, twice, same, ⟨other, isAgain⟩, computations, transparent⟩

end Session

end ResponseShape
