import ResponseShape.Proofs.Workspace.Views

/-!
# Histories

A workspace is shared by all calls that are made on it, and each call may leave something behind,
also one that fails. Yet no call can tell what was called before it: without cycles of spreads, a
call that can be made at the end of two histories has the same answer in both
(`Session.matches_run`). Whatever a session holds is settled, and its cache remembers only what was
computed (`Session.isSettled_of_arises`).
-/

namespace ResponseShape

theorem Build.runIn_return {α β : Type} (build : Build α) (answer : α → β) (workspace : Workspace) :
    (do return answer (← build) : Build β).runIn workspace
      = ((build.runIn workspace).1.map answer, (build.runIn workspace).2) := by
  rw [runIn_bind]
  rcases build.runIn workspace with ⟨_ | _, _⟩ <;> rfl

/-- What a project can be asked for. -/
inductive Call where
  | operation (name : Option Name)
  | fragment (name : Name)
  | all
  | view (set : SelectionSet)
  | viewUnder (set : SelectionSet) (strategy : MergingStrategy)

/-- What a call gives. -/
inductive Answer where
  | operation (shape : OperationShape)
  | fragment (shape : FragmentShape)
  | all (shapes : Shapes)
  | view (visible : VisibleSelections)

/-- Makes a call. -/
def Call.run (project : Project) : Call → Build Answer
  | operation name => return .operation (← Build.operation project name)
  | fragment name => return .fragment (← Build.fragment project name)
  | all => return .all (← Build.all project)
  | view set => return .view (← Build.view project set)
  | viewUnder set strategy => return .view (← Build.viewUnder project set strategy)

/-- Whether a call builds definitions. -/
def Call.Builds : Call → Prop
  | operation _ | fragment _ | all => True
  | view _ | viewUnder .. => False

/-- Whether two calls ask for the same. Views are asked for sets at equal places that are both
written there, or both merged only. -/
inductive Call.Corresponds : Call → Call → Prop where
  | operation (name : Option Name) : Corresponds (.operation name) (.operation name)
  | fragment (name : Name) : Corresponds (.fragment name) (.fragment name)
  | all : Corresponds .all .all
  | view {set other : SelectionSet} (place : (set.place == other.place) = true)
      (isDirect : set.direct.isSome = other.direct.isSome) : Corresponds (.view set) (.view other)
  | viewUnder {set other : SelectionSet} (place : (set.place == other.place) = true)
      (isDirect : set.direct.isSome = other.direct.isSome) (strategy : MergingStrategy) :
      Corresponds (.viewUnder set strategy) (.viewUnder other strategy)

/-- Whether two answers say the same. Definitions are equal; views are the same but for the order of
tests in the places of sets. -/
inductive Answer.IsAlike : Answer → Answer → Prop where
  | operation (shape : OperationShape) : IsAlike (.operation shape) (.operation shape)
  | fragment (shape : FragmentShape) : IsAlike (.fragment shape) (.fragment shape)
  | all (shapes : Shapes) : IsAlike (.all shapes) (.all shapes)
  | view {visible other : VisibleSelections} (alike : visible.IsAlike other) :
      IsAlike (.view visible) (.view other)

/-- The views among the outcomes of a call. -/
def Answer.views : Except BuildError Answer → List VisibleSelections
  | .ok (.view visible) => [visible]
  | _ => []

/-- What has come of the calls made so far: the workspace and the views that were given. -/
structure Session where
  workspace : Workspace
  views : List VisibleSelections

namespace Session

/-- Before the first call. -/
def start : Session := ⟨.empty, []⟩

/-- The session after one more call. -/
def after (project : Project) (session : Session) (call : Call) : Session where
  workspace := ((call.run project).runIn session.workspace).2
  views := session.views ++ Answer.views ((call.run project).runIn session.workspace).1

/-- Whether a set is at hand: written in a definition that is built, or behind a field or a branch
of a view. -/
inductive Holds (session : Session) : SelectionSet → Prop where
  | written {root : RootField} {member : Place × SelectionTree}
      (offers : session.workspace.Offers root) (mem : member ∈ root.writtenSets) :
      Holds session ⟨member.1, some member.2⟩
  | field {visible : VisibleSelections} {field : Field} {inner : SelectionSet}
      (given : visible ∈ session.views) (mem : field ∈ visible.fields)
      (isInner : field.selectionSet = some inner) : Holds session inner
  | branch {visible : VisibleSelections} {branch : Branch} (given : visible ∈ session.views)
      (mem : branch ∈ visible.branches) : Holds session branch.selectionSet

/-- Whether a call can be made: a set that a view is asked for is at hand. -/
def Allows (session : Session) : Call → Prop
  | .view set => session.Holds set
  | .viewUnder set _ => session.Holds set
  | _ => True

/-- The sessions that sequences of calls lead to, whether they fail or not. -/
inductive Arises (project : Project) : Session → Prop where
  | start : Arises project .start
  | call {session : Session} {call : Call} (arises : Arises project session)
      (allows : session.Allows call) : Arises project (session.after project call)

end Session

namespace Sample

variable (sample : Sample)

/-- The session of a sample in which its operation `Q` is built. -/
def built : Session := Session.start.after sample.project (.operation (some "Q"))

/-- The session after views of some sets, one after the other. -/
def viewing (sets : List SelectionSet) : Session :=
  sets.foldl (fun session set => session.after sample.project (.viewUnder set .all)) sample.built

theorem arises_built : sample.built.Arises sample.project := .call .start trivial

end Sample

/-- The answer of a call that builds an operation. -/
theorem Call.runIn_run_operation {project : Project} {workspace : Workspace} {name : Option Name}
    {shape : OperationShape}
    (isBuilt : ((Build.operation project name).runIn workspace).1.toOption = some shape) :
    ((Call.operation name).run project).runIn workspace
      = (.ok (.operation shape), ((Build.operation project name).runIn workspace).2) := by
  rw [Call.run, Build.runIn_return, Build.eq_ok_of_toOption isBuilt]
  rfl

namespace Session

/-- What is known of a session: it holds what depends on the project alone, and what was
computed. -/
structure IsSettled (project : Project) (session : Session) : Prop where
  settled : session.workspace.IsSettled project
  remembers : session.workspace.Remembers project
  computed : ∀ visible ∈ session.views, ∃ key,
    session.workspace.IsComputed project key (.ok visible)

section Calls

variable {project : Project} {session other : Session} {call : Call} {set : SelectionSet}

theorem IsSettled.standsIn (isSettled : session.IsSettled project) (holds : session.Holds set) :
    set.StandsIn project session.workspace := by
  cases holds with
  | written offers mem =>
      exact ⟨_, offers, SelectionSet.isPlacedIn_of_offers isSettled.settled.sound offers mem⟩
  | field given mem isInner =>
      rcases isSettled.computed _ given with ⟨_, computed⟩
      exact computed.standsIn.1 _ mem _ isInner
  | branch given mem =>
      rcases isSettled.computed _ given with ⟨_, computed⟩
      exact computed.standsIn.2 _ mem

theorem IsSettled.afterBuild {α : Type} {build : Build α} (isSettled : session.IsSettled project)
    (agree : Build.Agree (Workspace.answering project) (fun _ => True) build build
      fun _ _ => True) :
    IsSettled project ⟨(build.runIn session.workspace).2, session.views⟩ := by
  rcases agree.left _ isSettled.settled trivial with ⟨settled, keeps, -⟩
  have still {key : ViewKey} {outcome : Except BuildError VisibleSelections}
      (computed : session.workspace.IsComputed project key outcome) :
      (build.runIn session.workspace).2.IsComputed project key outcome :=
    computed.mono fun _ offers => Workspace.Keeps.offers keeps offers
  refine ⟨settled, ?_, ?_⟩
  · intro key visible found
    rw [Workspace.Keeps.cache keeps] at found
    exact still (isSettled.remembers key visible found)
  · intro visible given
    exact (isSettled.computed visible given).imp fun _ => still

theorem IsSettled.afterView (isSettled : session.IsSettled project) (holds : session.Holds set)
    (strategy : MergingStrategy) : IsSettled project
      ⟨((Build.viewUnder project set strategy).runIn session.workspace).2, session.views
        ++ ((Build.viewUnder project set strategy).runIn session.workspace).1.toOption.toList⟩ := by
  rcases Build.isComputed_viewUnder strategy isSettled.settled isSettled.remembers
    (isSettled.standsIn holds) with ⟨computed, remembers⟩
  have still {key : ViewKey} {outcome : Except BuildError VisibleSelections}
      (computed : session.workspace.IsComputed project key outcome) :
      ((Build.viewUnder project set strategy).runIn session.workspace).2.IsComputed project key
        outcome := by
    rw [Build.runIn_viewUnder]
    exact computed.mono fun _ offers => offers
  refine ⟨?_, remembers, ?_⟩
  · rw [Build.runIn_viewUnder]
    exact isSettled.settled.withCache _
  · intro visible given
    rcases List.mem_append.mp given with old | isNew
    · exact (isSettled.computed visible old).imp fun _ => still
    · rw [Option.mem_toList] at isNew
      rw [Build.eq_ok_of_toOption isNew] at computed
      exact ⟨_, still computed⟩

/-- Each call leaves a session settled, whether it fails or not. -/
theorem IsSettled.after (isSettled : session.IsSettled project)
    (acyclic : project.compilation.IsAcyclic) (allows : session.Allows call) :
    (session.after project call).IsSettled project := by
  have built {α : Type} {build : Build α} {answer : α → Answer}
      (agree : Build.Agree (Workspace.answering project) (fun _ => True) build build
        fun _ _ => True)
      (noView : ∀ value, Answer.views (.ok (answer value)) = []) :
      IsSettled project ⟨(build.runIn session.workspace).2,
        session.views ++ Answer.views ((build.runIn session.workspace).1.map answer)⟩ := by
    have none : Answer.views ((build.runIn session.workspace).1.map answer) = [] := by
      cases (build.runIn session.workspace).1 with
      | error error => rfl
      | ok value => exact noView value
    rw [none, List.append_nil]
    exact isSettled.afterBuild agree
  have viewed {set : SelectionSet} (holds : session.Holds set) (strategy : MergingStrategy) :
      IsSettled project ⟨((Build.viewUnder project set strategy).runIn session.workspace).2,
        session.views ++ Answer.views
          (((Build.viewUnder project set strategy).runIn session.workspace).1.map .view)⟩ := by
    have later := isSettled.afterView holds strategy
    cases outcome : ((Build.viewUnder project set strategy).runIn session.workspace).1 with
    | error error => rwa [outcome] at later
    | ok visible => rwa [outcome] at later
  cases call with
  | operation name =>
      simp only [Session.after, Call.run, Build.runIn_return]
      exact built (Build.agree_operation acyclic name) fun _ => rfl
  | fragment name =>
      simp only [Session.after, Call.run, Build.runIn_return]
      exact built (Build.agree_fragment acyclic name).answering fun _ => rfl
  | all =>
      simp only [Session.after, Call.run, Build.runIn_return]
      exact built (Build.agree_all acyclic) fun _ => rfl
  | view set =>
      simp only [Session.after, Call.run, Build.runIn_return]
      exact viewed allows project.config.mergingStrategy
  | viewUnder set strategy =>
      simp only [Session.after, Call.run, Build.runIn_return]
      exact viewed allows strategy

theorem isSettled_of_arises (acyclic : project.compilation.IsAcyclic)
    (arises : session.Arises project) : session.IsSettled project := by
  induction arises with
  | start =>
      refine ⟨Workspace.isSettled_empty, ?_, by simp [start]⟩
      intro key visible found
      cases found
  | call _ allows ih => exact ih.after acyclic allows

/-- A call has the same answer at the end of all histories at which it can be made. -/
theorem matches_run {mate : Call} (acyclic : project.compilation.IsAcyclic)
    (arises : session.Arises project) (otherArises : other.Arises project)
    (allows : session.Allows call) (otherAllows : other.Allows mate)
    (corresponds : call.Corresponds mate) :
    Matches Answer.IsAlike ((call.run project).runIn session.workspace).1
      ((mate.run project).runIn other.workspace).1 := by
  have ofFirst := isSettled_of_arises acyclic arises
  have ofSecond := isSettled_of_arises acyclic otherArises
  have views {set partner : SelectionSet} (holds : session.Holds set)
      (otherHolds : other.Holds partner) (place : (set.place == partner.place) = true)
      (isDirect : set.direct.isSome = partner.direct.isSome) (strategy : MergingStrategy) :
      Matches VisibleSelections.IsAlike
        ((Build.viewUnder project set strategy).runIn session.workspace).1
        ((Build.viewUnder project partner strategy).runIn other.workspace).1 := by
    have first := (Build.isComputed_viewUnder strategy ofFirst.settled
      ofFirst.remembers (ofFirst.standsIn holds)).1
    have second := (Build.isComputed_viewUnder strategy ofSecond.settled
      ofSecond.remembers (ofSecond.standsIn otherHolds)).1
    exact first.matches second (ViewKey.beq_iff.mpr ⟨place, rfl, isDirect⟩)
  have same {α : Type} {build : Build α} (agree : Build.Agree (Workspace.answering project)
      (fun _ => True) build build fun _ _ => True) :
      (build.runIn session.workspace).1 = (build.runIn other.workspace).1 :=
    agree.same _ _ ofFirst.settled ofSecond.settled trivial trivial
  cases corresponds with
  | operation name =>
      simp only [Call.run, Build.runIn_return, same (Build.agree_operation acyclic name)]
      exact (Matches.refl _).map fun _ shape same => same ▸ .operation shape
  | fragment name =>
      simp only [Call.run, Build.runIn_return, same (Build.agree_fragment acyclic name).answering]
      exact (Matches.refl _).map fun _ shape same => same ▸ .fragment shape
  | all =>
      simp only [Call.run, Build.runIn_return, same (Build.agree_all acyclic)]
      exact (Matches.refl _).map fun _ shapes same => same ▸ .all shapes
  | view place isDirect =>
      simp only [Call.run, Build.runIn_return]
      exact (views allows otherAllows place isDirect _).map fun _ _ => .view
  | viewUnder place isDirect strategy =>
      simp only [Call.run, Build.runIn_return]
      exact (views allows otherAllows place isDirect strategy).map fun _ _ => .view

end Calls

end Session

/-- A sample in which a fragment spreads another. -/
def Renown : Sample where
  schemaText :=
    "type Query \x7b hero: Hero id: ID \x7d type Hero \x7b name: String age: Int \x7d"
  sources :=
    [⟨"d.graphql",
      "query Q($a: Boolean!) \x7b hero \x7b name \x7d ...F \x7d "
        ++ "fragment F on Query \x7b id ...G \x7d "
        ++ "fragment G on Query \x7b hero \x7b age @include(if: $a) \x7d \x7d"⟩]
  isValid := by decide +kernel

namespace Renown

/-- The session in which everything is built, after a fragment and a call that fails. -/
def roundabout : Session :=
  ((Session.start.after Renown.project (.fragment "F")).after Renown.project
    (.operation none)).after Renown.project .all

theorem arises_roundabout : roundabout.Arises Renown.project :=
  .call (.call (.call .start trivial) trivial) trivial

/-- What is selected on the hero is at hand in both sessions. -/
theorem exists_holds : ∃ set other : SelectionSet, Renown.built.Holds set ∧ roundabout.Holds other
    ∧ (set.place == other.place) = true ∧ set.direct.isSome = other.direct.isSome
    ∧ ∃ visible,
      set.visible Renown.project.schema Renown.built.workspace.entities .all = .ok visible
        ∧ visible.fields.map (·.responseKey) = ["name", "age"] := by
  have computes : ((Renown.built.workspace.operation? ⟨0, some "Q"⟩).any fun shape =>
      (roundabout.workspace.operation? ⟨0, some "Q"⟩).any fun twin =>
        shape.root.writtenSets.any fun member => twin.root.writtenSets.any fun other =>
          member.1 == other.1
            && ((SelectionSet.mk member.1 (some member.2)).visible Renown.project.schema
              Renown.built.workspace.entities .all).toOption.any fun visible =>
                visible.fields.map (·.responseKey) == ["name", "age"]) = true := by
    rewrite [Sample.built, roundabout, Renown.project_eq]
    decide +kernel
  simp only [Option.any_eq_true, List.any_eq_true, Bool.and_eq_true, beq_iff_eq (a := List.map _ _)]
    at computes
  rcases computes with ⟨shape, isShape, twin, isTwin, member, mem, other, otherMem, same, visible,
    isVisible, keys⟩
  exact ⟨_, _, .written (Or.inl ⟨_, shape, isShape, rfl⟩) mem,
    .written (Or.inl ⟨_, twin, isTwin, rfl⟩) otherMem, same, rfl, visible,
    Build.eq_ok_of_toOption isVisible, keys⟩

end Renown

/-- What is selected on the hero is seen alike in both sessions. -/
theorem Session.matches_run_renown : ∃ set other : SelectionSet,
    Renown.project.compilation.IsAcyclic ∧ Renown.built.Arises Renown.project
    ∧ Renown.roundabout.Arises Renown.project
    ∧ Renown.built.Allows (.viewUnder set .all) ∧ Renown.roundabout.Allows (.viewUnder other .all)
    ∧ (Call.viewUnder set .all).Corresponds (.viewUnder other .all)
    ∧ (∃ visible, set.visible Renown.project.schema Renown.built.workspace.entities .all
        = .ok visible ∧ visible.fields.map (·.responseKey) = ["name", "age"])
    ∧ Matches Answer.IsAlike
      (((Call.viewUnder set .all).run Renown.project).runIn Renown.built.workspace).1
      (((Call.viewUnder other .all).run Renown.project).runIn Renown.roundabout.workspace).1 := by
  rcases Renown.exists_holds with ⟨set, other, holds, otherHolds, same, isDirect, shows⟩
  have corresponds := Call.Corresponds.viewUnder same isDirect .all
  exact ⟨set, other, Renown.isAcyclic, Renown.arises_built, Renown.arises_roundabout, holds,
    otherHolds, corresponds, shows, matches_run Renown.isAcyclic Renown.arises_built
      Renown.arises_roundabout holds otherHolds corresponds⟩

end ResponseShape
