import ResponseShape.Proofs.Outcomes
import ResponseShape.Proofs.Workspace.Runs

/-!
# Builds that abide by a law

What a step does to the workspace, what it can fail with and what it can give are often shown
together. `Build.Abides` says that a step abides by a law whatever its outcome, fails only with
errors of one kind, and gives only results of another. The rules follow the way in which steps are
put together.
-/

namespace ResponseShape.Build

variable {α β : Type}

/-- Whether a step abides by a law, fails only with errors of one kind, and gives only results of
another. -/
def Abides (law : Law) (fails : BuildError → Prop) (build : Build α) (succeeds : α → Prop) : Prop :=
  ∀ workspace, law.valid workspace → law.valid (build.runIn workspace).2
    ∧ law.grows workspace (build.runIn workspace).2
    ∧ Yields fails succeeds (build.runIn workspace).1

namespace Abides

variable {law : Law} {fails : BuildError → Prop} {build : Build α}
  {succeeds weaker between : α → Prop}

theorem pure {value : α} (isResult : succeeds value) :
    Abides law fails (Pure.pure value) succeeds :=
  fun workspace valid => ⟨valid, law.refl workspace, isResult⟩

theorem throw {error : BuildError} (isError : fails error) :
    Abides law fails (throw error : Build α) succeeds :=
  fun workspace valid => ⟨valid, law.refl workspace, isError⟩

theorem ofExcept {outcome : Except BuildError α} (yields : Yields fails succeeds outcome) :
    Abides law fails (ofExcept outcome) succeeds := by
  intro workspace valid
  rw [runIn_ofExcept]
  exact ⟨valid, law.refl workspace, yields⟩

theorem get : Abides law fails (get : Build Workspace) law.valid :=
  fun workspace valid => ⟨valid, law.refl workspace, valid⟩

theorem modify {change : Workspace → Workspace}
    (keeps : ∀ workspace, law.valid workspace →
      law.valid (change workspace) ∧ law.grows workspace (change workspace)) :
    Abides law fails (modify change : Build PUnit) fun _ => True := by
  intro workspace valid
  rcases keeps workspace valid with ⟨ofChange, grows⟩
  exact ⟨ofChange, grows, trivial⟩

theorem bind {next : α → Build β} {results : β → Prop} (first : Abides law fails build between)
    (second : ∀ value, between value → Abides law fails (next value) results) :
    Abides law fails (build >>= next) results := by
  intro workspace valid
  rcases first workspace valid with ⟨firstValid, firstGrows, ofFirst⟩
  rw [runIn_bind]
  rcases ran : build.runIn workspace with ⟨error | value, left⟩
  · rw [ran] at firstValid firstGrows ofFirst
    exact ⟨firstValid, firstGrows, ofFirst⟩
  · rw [ran] at firstValid firstGrows ofFirst
    rcases second value ofFirst left firstValid with ⟨valid, grows, ofSecond⟩
    exact ⟨valid, law.trans firstGrows grows, ofSecond⟩

theorem ensures (abides : Abides law fails build succeeds) :
    Ensures law (fun _ => True) build fun value _ => succeeds value := by
  intro workspace valid _
  rcases abides workspace valid with ⟨later, grows, yields⟩
  refine ⟨later, grows, fun value same => ?_⟩
  rwa [same] at yields

theorem of_ensures {after : α → Workspace → Prop}
    (ensures : Ensures law (fun _ => True) build after) :
    Abides law (fun _ => True) build fun _ => True := by
  intro workspace valid
  rcases ensures workspace valid trivial with ⟨later, grows, -⟩
  refine ⟨later, grows, ?_⟩
  cases (build.runIn workspace).1 <;> trivial

theorem weaken (abides : Abides law fails build succeeds)
    (weakens : ∀ value, succeeds value → weaker value) : Abides law fails build weaker := by
  intro workspace valid
  rcases abides workspace valid with ⟨valid, grows, yields⟩
  exact ⟨valid, grows, yields.mono (fun _ => id) weakens⟩

theorem mapM {members : List α} {step : α → Build β} {results : β → Prop}
    (steps : ∀ member ∈ members, Abides law fails (step member) results) :
    Abides law fails (members.mapM step) fun values => ∀ value ∈ values, results value := by
  induction members with
  | nil =>
      rw [List.mapM_nil]
      exact pure fun _ mem => by cases mem
  | cons member rest ih =>
      rw [List.mapM_cons]
      refine (steps member List.mem_cons_self).bind fun value isResult => ?_
      refine (ih fun other mem => steps other (List.mem_cons_of_mem _ mem)).bind
        fun values areResults => pure ?_
      exact List.forall_mem_cons.mpr ⟨isResult, areResults⟩

theorem forEach {members : List α} {step : α → Build β}
    (steps : ∀ member ∈ members, Abides law fails (step member) fun _ => True) :
    Abides law fails (members.mapM step) fun _ => True :=
  (mapM steps).weaken fun _ _ => trivial

end Abides

end ResponseShape.Build
