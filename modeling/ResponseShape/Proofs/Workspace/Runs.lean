import Mathlib.Data.List.Forall2
import ResponseShape.Workspace

/-!
# Runs of builds

A build step leaves a workspace behind even when it fails, so whatever is to hold of workspaces has
to survive every outcome. A `Build.Law` names what workspaces satisfy and how they may change, and
`Build.Ensures` says that a step abides by a law and, if it succeeds, what its result satisfies. The
rules below follow the way in which steps are put together.
-/

namespace ResponseShape.Build

variable {α β : Type}

section Runs

variable {workspace : Workspace}

@[simp]
theorem runIn_pure (value : α) :
    (pure value : Build α).runIn workspace = (.ok value, workspace) := rfl

@[simp]
theorem runIn_get : (get : Build Workspace).runIn workspace = (.ok workspace, workspace) := rfl

@[simp]
theorem runIn_set (other : Workspace) :
    (set other : Build PUnit).runIn workspace = (.ok ⟨⟩, other) := rfl

theorem runIn_bind (build : Build α) (next : α → Build β) :
    (build >>= next).runIn workspace =
      match build.runIn workspace with
      | (.ok value, between) => (next value).runIn between
      | (.error error, between) => (.error error, between) := by
  simp only [runIn, ExceptT.run_bind, StateT.run_bind]
  change (match ((ExceptT.run build).run workspace) with
    | (outcome, between) => _) = _
  rcases (ExceptT.run build).run workspace with ⟨_ | _, _⟩ <;> rfl

theorem eq_ok_of_toOption {outcome : Except BuildError α} {value : α}
    (isSome : outcome.toOption = some value) : outcome = .ok value := by
  cases outcome with
  | error error => cases isSome
  | ok found => rw [Option.some.inj isSome]

@[simp]
theorem runIn_ofExcept (outcome : Except BuildError α) :
    (ofExcept outcome).runIn workspace = (outcome, workspace) := by
  cases outcome <;> rfl

end Runs

/-- What workspaces satisfy throughout a build, and how they may change. -/
structure Law where
  valid : Workspace → Prop
  grows : Workspace → Workspace → Prop
  refl : ∀ workspace, grows workspace workspace
  trans : ∀ {first second third}, grows first second → grows second third → grows first third

/-- The law that asks for nothing. -/
def Law.none : Law := ⟨fun _ => True, fun _ _ => True, fun _ => trivial, fun _ _ => trivial⟩

/-- Whether a step abides by a law whatever its outcome, and a success is as described. -/
def Ensures (law : Law) (before : Workspace → Prop) (build : Build α)
    (after : α → Workspace → Prop) : Prop :=
  ∀ workspace, law.valid workspace → before workspace →
    law.valid (build.runIn workspace).2 ∧ law.grows workspace (build.runIn workspace).2
      ∧ ∀ value, (build.runIn workspace).1 = .ok value → after value (build.runIn workspace).2

namespace Ensures

variable {law : Law} {before stronger kept : Workspace → Prop} {build : Build α}
  {after weaker between : α → Workspace → Prop}

theorem pure {value : α} (meets : ∀ workspace, before workspace → after value workspace) :
    Ensures law before (Pure.pure value) after := by
  intro workspace valid start
  refine ⟨valid, law.refl workspace, ?_⟩
  intro result same
  rw [runIn_pure, Except.ok.injEq] at same
  subst same
  exact meets workspace start

theorem throw (error : BuildError) : Ensures law before (throw error : Build α) after := by
  intro workspace valid _
  refine ⟨valid, law.refl workspace, ?_⟩
  intro value same
  cases same

theorem ofExcept (outcome : Except BuildError α) :
    Ensures law before (ofExcept outcome) fun value _ => outcome = .ok value := by
  intro workspace valid _
  rw [runIn_ofExcept]
  exact ⟨valid, law.refl workspace, fun value same => same⟩

theorem anything (build : Build α) : Ensures Law.none before build fun _ _ => True :=
  fun _ _ _ => ⟨trivial, trivial, fun _ _ => trivial⟩

theorem get : Ensures law before (get : Build Workspace) fun value workspace =>
    value = workspace ∧ before workspace := by
  intro workspace valid start
  refine ⟨valid, law.refl workspace, ?_⟩
  intro value same
  rw [runIn_get, Except.ok.injEq] at same
  exact ⟨same.symm, start⟩

theorem modify {change : Workspace → Workspace}
    (keeps : ∀ workspace, law.valid workspace → before workspace →
      law.valid (change workspace) ∧ law.grows workspace (change workspace)) :
    Ensures law before (modify change : Build PUnit) fun _ later =>
      ∃ workspace, law.valid workspace ∧ before workspace ∧ later = change workspace := by
  intro workspace valid start
  rcases keeps workspace valid start with ⟨ofChange, grows⟩
  exact ⟨ofChange, grows, fun _ _ => ⟨workspace, valid, start, rfl⟩⟩

theorem bind {next : α → Build β} {after : β → Workspace → Prop}
    (first : Ensures law before build between)
    (second : ∀ value, Ensures law (between value) (next value) after) :
    Ensures law before (build >>= next) after := by
  intro workspace valid start
  rcases first workspace valid start with ⟨firstValid, firstGrows, ofFirst⟩
  rw [runIn_bind]
  rcases ran : build.runIn workspace with ⟨_ | value, left⟩
  · rw [ran] at firstValid firstGrows
    exact ⟨firstValid, firstGrows, fun _ same => by cases same⟩
  · rw [ran] at firstValid firstGrows ofFirst
    rcases second value left firstValid (ofFirst value rfl) with ⟨valid, grows, ofSecond⟩
    exact ⟨valid, law.trans firstGrows grows, ofSecond⟩

theorem strengthen (ensures : Ensures law before build after)
    (ofBefore : ∀ workspace, stronger workspace → before workspace) :
    Ensures law stronger build after :=
  fun workspace valid start => ensures workspace valid (ofBefore workspace start)

theorem weaken (ensures : Ensures law before build after)
    (ofAfter : ∀ value workspace, after value workspace → weaker value workspace) :
    Ensures law before build weaker := by
  intro workspace valid start
  rcases ensures workspace valid start with ⟨valid, grows, ofValue⟩
  exact ⟨valid, grows, fun value same => ofAfter value _ (ofValue value same)⟩

theorem also {other : Law} {extra : α → Workspace → Prop} (ensures : Ensures law before build after)
    (more : Ensures other before build extra)
    (ofValid : ∀ workspace, law.valid workspace → other.valid workspace) :
    Ensures law before build fun value workspace =>
      after value workspace ∧ extra value workspace := by
  intro workspace valid start
  rcases ensures workspace valid start with ⟨later, grows, ofValue⟩
  rcases more workspace (ofValid workspace valid) start with ⟨-, -, ofExtra⟩
  exact ⟨later, grows, fun value same => ⟨ofValue value same, ofExtra value same⟩⟩

theorem both (ensures : Ensures law before build after) (more : Ensures law before build between) :
    Ensures law before build fun value workspace =>
      after value workspace ∧ between value workspace :=
  ensures.also more fun _ => id

/-- Where a step comes to, the law holds. -/
theorem withValid (ensures : Ensures law before build after) :
    Ensures law before build fun value workspace =>
      law.valid workspace ∧ after value workspace := by
  intro workspace valid start
  rcases ensures workspace valid start with ⟨later, grows, ofValue⟩
  exact ⟨later, grows, fun value same => ⟨later, ofValue value same⟩⟩

/-- A step that keeps to a law keeps to one under which workspaces may change more. -/
theorem loosen {looser : Law} (ensures : Ensures law before build after)
    (sameValid : looser.valid = law.valid)
    (widens : ∀ first second, law.grows first second → looser.grows first second) :
    Ensures looser before build after := by
  intro workspace valid start
  rw [sameValid] at valid ⊢
  rcases ensures workspace valid start with ⟨later, grows, ofValue⟩
  exact ⟨later, widens _ _ grows, ofValue⟩

/-- A step that needs nothing can be taken anywhere. -/
theorem anywhere (ensures : Ensures law (fun _ => True) build after) :
    Ensures law before build after :=
  ensures.strengthen fun _ _ => trivial

/-- A fact that is no matter of the workspace can be used for the rest. -/
theorem given {fact : Prop} (ensures : fact → Ensures law (fun _ => True) build after) :
    Ensures law (fun _ => fact) build after :=
  fun workspace valid isFact => ensures isFact workspace valid trivial

theorem assuming {fact : Prop} (ensures : fact → Ensures law before build after) :
    Ensures law (fun workspace => fact ∧ before workspace) build after :=
  fun workspace valid start => ensures start.1 workspace valid start.2

theorem forSome {ι : Type} {each : ι → Workspace → Prop}
    (ensures : ∀ index, Ensures law (each index) build after) :
    Ensures law (fun workspace => ∃ index, each index workspace) build after := by
  rintro workspace valid ⟨index, start⟩
  exact ensures index workspace valid start

/-- What survives the growth of workspaces survives a step. -/
theorem frame (ensures : Ensures law kept build after)
    (stable : ∀ first second, law.grows first second → kept first → kept second) :
    Ensures law kept build fun value workspace => after value workspace ∧ kept workspace := by
  intro workspace valid start
  rcases ensures workspace valid start with ⟨valid, grows, ofValue⟩
  exact ⟨valid, grows, fun value same => ⟨ofValue value same, stable _ _ grows start⟩⟩

/-- Results of several steps are as described, one by one, if growth does not change that. -/
theorem mapM {step : α → Build β} {relates : α → β → Workspace → Prop} {members : List α}
    (each : ∀ member ∈ members, Ensures law kept (step member) (relates member))
    (stable : ∀ member value first second, law.grows first second →
      relates member value first → relates member value second)
    (keeps : ∀ first second, law.grows first second → kept first → kept second) :
    Ensures law kept (members.mapM step) fun values workspace =>
      List.Forall₂ (fun member value => relates member value workspace) members values := by
  induction members with
  | nil =>
      rw [List.mapM_nil]
      exact pure fun _ _ => .nil
  | cons member rest ih =>
      rw [List.mapM_cons]
      apply bind ((each member List.mem_cons_self).frame keeps)
      intro value
      have others := (ih fun other mem => each other (List.mem_cons_of_mem _ mem)).strengthen
        fun workspace (start : relates member value workspace ∧ kept workspace) => start.2
      apply bind (others.frame fun first second growth start =>
        ⟨stable _ _ _ _ growth start.1, keeps _ _ growth start.2⟩)
      intro values
      exact pure fun _ start => .cons start.2.1 start.1

theorem forEach {step : α → Build β} {members : List α}
    (each : ∀ member ∈ members, Ensures law (fun _ => True) (step member) fun _ _ => True) :
    Ensures law (fun _ => True) (members.mapM step) fun _ _ => True :=
  weaken (@mapM _ _ law (fun _ => True) step (fun _ _ _ => True) members each
    (fun _ _ _ _ _ same => same) fun _ _ _ same => same) fun _ _ _ => trivial

end Ensures

end ResponseShape.Build
