import ResponseShape.Proofs.Workspace.Runs

/-!
# Builds that agree

What a build answers should not depend on what was built before. `Build.Agree` says of two builds
that both abide by a law and that they have the same outcome, a result or an error, in whichever two
workspaces that satisfy the law they are run. A build that agrees with itself is determined. The
rules follow those of `Build.Ensures`.
-/

namespace ResponseShape.Build

variable {α β : Type}

/-- Whether two builds abide by a law and have the same outcome wherever they are run, with results
as described. -/
structure Agree (law : Law) (before : Workspace → Prop) (build other : Build α)
    (after : α → Workspace → Prop) : Prop where
  left : Ensures law before build after
  right : Ensures law before other after
  same : ∀ workspace twin, law.valid workspace → law.valid twin → before workspace → before twin →
    (build.runIn workspace).1 = (other.runIn twin).1

namespace Agree

variable {law : Law} {before stronger kept : Workspace → Prop} {build other : Build α}
  {after weaker between : α → Workspace → Prop}

theorem pure {value : α} (meets : ∀ workspace, before workspace → after value workspace) :
    Agree law before (Pure.pure value) (Pure.pure value) after :=
  ⟨.pure meets, .pure meets, fun _ _ _ _ _ _ => rfl⟩

theorem throw (error : BuildError) :
    Agree law before (throw error : Build α) (throw error) after :=
  ⟨.throw error, .throw error, fun _ _ _ _ _ _ => rfl⟩

theorem ofExcept (outcome : Except BuildError α) :
    Agree law before (ofExcept outcome) (ofExcept outcome) fun value _ => outcome = .ok value :=
  ⟨.ofExcept outcome, .ofExcept outcome, fun _ _ _ _ _ _ => by simp only [runIn_ofExcept]⟩

theorem bind {next otherNext : α → Build β} {after : β → Workspace → Prop}
    (first : Agree law before build other between)
    (second : ∀ value, Agree law (between value) (next value) (otherNext value) after) :
    Agree law before (build >>= next) (other >>= otherNext) after := by
  refine ⟨first.left.bind fun value => (second value).left,
    first.right.bind fun value => (second value).right, ?_⟩
  intro workspace twin valid twinValid start twinStart
  have same := first.same workspace twin valid twinValid start twinStart
  rcases first.left workspace valid start with ⟨leftValid, -, ofLeft⟩
  rcases first.right twin twinValid twinStart with ⟨rightValid, -, ofRight⟩
  rw [runIn_bind, runIn_bind]
  rcases ran : build.runIn workspace with ⟨outcome, later⟩
  rcases otherRan : other.runIn twin with ⟨otherOutcome, otherLater⟩
  rw [ran] at same leftValid ofLeft
  rw [otherRan] at same rightValid ofRight
  dsimp only at same leftValid ofLeft rightValid ofRight
  subst same
  cases outcome with
  | error error => rfl
  | ok value =>
      exact (second value).same later otherLater leftValid rightValid (ofLeft value rfl)
        (ofRight value rfl)

/-- Steps that read the same of workspaces go on alike. -/
theorem read {γ : Type} (view : Workspace → γ) {describes : γ → Prop}
    {next otherNext : γ → Build α}
    (same : ∀ workspace twin, law.valid workspace → law.valid twin → before workspace →
      before twin → view workspace = view twin)
    (isDescribed : ∀ workspace, law.valid workspace → before workspace →
      describes (view workspace))
    (goesOn : ∀ value, describes value → Agree law before (next value) (otherNext value) after) :
    Agree law before (get >>= fun workspace => next (view workspace))
      (get >>= fun workspace => otherNext (view workspace)) after := by
  refine ⟨?_, ?_, ?_⟩
  · intro workspace valid start
    rw [runIn_bind, runIn_get]
    exact (goesOn _ (isDescribed workspace valid start)).left workspace valid start
  · intro workspace valid start
    rw [runIn_bind, runIn_get]
    exact (goesOn _ (isDescribed workspace valid start)).right workspace valid start
  · intro workspace twin valid twinValid start twinStart
    rw [runIn_bind, runIn_bind, runIn_get, runIn_get]
    dsimp only
    rw [← same workspace twin valid twinValid start twinStart]
    exact (goesOn _ (isDescribed workspace valid start)).same workspace twin valid twinValid start
      twinStart

theorem strengthen (agree : Agree law before build other after)
    (ofBefore : ∀ workspace, stronger workspace → before workspace) :
    Agree law stronger build other after :=
  ⟨agree.left.strengthen ofBefore, agree.right.strengthen ofBefore,
    fun workspace twin valid twinValid start twinStart =>
      agree.same workspace twin valid twinValid (ofBefore workspace start)
        (ofBefore twin twinStart)⟩

theorem weaken (agree : Agree law before build other after)
    (ofAfter : ∀ value workspace, after value workspace → weaker value workspace) :
    Agree law before build other weaker :=
  ⟨agree.left.weaken ofAfter, agree.right.weaken ofAfter, agree.same⟩

theorem loosen {looser : Law} (agree : Agree law before build other after)
    (sameValid : looser.valid = law.valid)
    (widens : ∀ first second, law.grows first second → looser.grows first second) :
    Agree looser before build other after := by
  refine ⟨agree.left.loosen sameValid widens, agree.right.loosen sameValid widens, ?_⟩
  rw [sameValid]
  exact agree.same

theorem anywhere (agree : Agree law (fun _ => True) build other after) :
    Agree law before build other after :=
  agree.strengthen fun _ _ => trivial

theorem given {fact : Prop} (agree : fact → Agree law (fun _ => True) build other after) :
    Agree law (fun _ => fact) build other after :=
  ⟨.given fun isFact => (agree isFact).left, .given fun isFact => (agree isFact).right,
    fun workspace twin valid twinValid isFact _ =>
      (agree isFact).same workspace twin valid twinValid trivial trivial⟩

theorem assuming {fact : Prop} (agree : fact → Agree law before build other after) :
    Agree law (fun workspace => fact ∧ before workspace) build other after :=
  ⟨.assuming fun isFact => (agree isFact).left, .assuming fun isFact => (agree isFact).right,
    fun workspace twin valid twinValid start twinStart =>
      (agree start.1).same workspace twin valid twinValid start.2 twinStart.2⟩

/-- What survives the growth of workspaces survives steps that agree. -/
theorem frame (agree : Agree law kept build other after)
    (stable : ∀ first second, law.grows first second → kept first → kept second) :
    Agree law kept build other fun value workspace => after value workspace ∧ kept workspace :=
  ⟨agree.left.frame stable, agree.right.frame stable, agree.same⟩

/-- What survives the growth of workspaces is there for the next step, too. -/
theorem andThen {next otherNext : α → Build β} {after : β → Workspace → Prop} {fact : α → Prop}
    (first : Agree law kept build other fun value _ => fact value)
    (stable : ∀ first second, law.grows first second → kept first → kept second)
    (second : ∀ value, fact value → Agree law kept (next value) (otherNext value) after) :
    Agree law kept (build >>= next) (other >>= otherNext) after :=
  (first.frame stable).bind fun value => assuming (second value)

/-- Steps for the members of a list agree if each of them does. -/
theorem mapM {step otherStep : α → Build β} {relates : α → β → Workspace → Prop}
    {members : List α}
    (each : ∀ member ∈ members, Agree law kept (step member) (otherStep member) (relates member))
    (stable : ∀ member value first second, law.grows first second →
      relates member value first → relates member value second)
    (keeps : ∀ first second, law.grows first second → kept first → kept second) :
    Agree law kept (members.mapM step) (members.mapM otherStep) fun values workspace =>
      List.Forall₂ (fun member value => relates member value workspace) members values := by
  refine ⟨.mapM (fun member mem => (each member mem).left) stable keeps,
    .mapM (fun member mem => (each member mem).right) stable keeps, ?_⟩
  have same : Agree law kept (members.mapM step) (members.mapM otherStep) fun _ _ => True := by
    induction members with
    | nil =>
        rw [List.mapM_nil]
        exact pure fun _ _ => trivial
    | cons member rest ih =>
        rw [List.mapM_cons, List.mapM_cons]
        apply bind ((each member List.mem_cons_self).frame keeps)
        intro value
        have others := (ih fun other mem => each other (List.mem_cons_of_mem _ mem)).strengthen
          fun workspace (start : relates member value workspace ∧ kept workspace) => start.2
        apply bind others
        intro values
        exact pure fun _ _ => trivial
  exact same.same

theorem forEach {step otherStep : α → Build β} {members : List α}
    (each : ∀ member ∈ members,
      Agree law (fun _ => True) (step member) (otherStep member) fun _ _ => True) :
    Agree law (fun _ => True) (members.mapM step) (members.mapM otherStep) fun _ _ => True :=
  weaken (@mapM _ _ law (fun _ => True) step otherStep (fun _ _ _ => True) members each
    (fun _ _ _ _ _ same => same) fun _ _ _ same => same) fun _ _ _ => trivial

end Agree

end ResponseShape.Build
