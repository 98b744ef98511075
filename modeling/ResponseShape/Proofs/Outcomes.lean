import Mathlib.Data.List.Forall2

/-!
# Outcomes

Two computations match if they fail with one error, or both succeed with related results
(`Matches`). Steps that match, taken one after the other, match again. A single computation is known
by the errors it can fail with and the results it can have (`Yields`).
-/

namespace ResponseShape

variable {ε α β γ δ σ τ : Type}

/-- Whether two outcomes are one error, or successes with related results. -/
inductive Matches (relation : α → β → Prop) : Except ε α → Except ε β → Prop where
  | ok {left : α} {right : β} (related : relation left right) :
      Matches relation (.ok left) (.ok right)
  | error (error : ε) : Matches relation (.error error) (.error error)

namespace Matches

variable {relation : α → β → Prop} {left : Except ε α} {right : Except ε β}

theorem exists_ok {result : β} (pair : Matches relation left (.ok result)) :
    ∃ other, left = .ok other ∧ relation other result := by
  cases pair with
  | ok related => exact ⟨_, rfl, related⟩

theorem refl (outcome : Except ε α) : Matches Eq outcome outcome := by
  cases outcome with
  | ok result => exact .ok rfl
  | error error => exact .error error

theorem bind {results : γ → δ → Prop} {next : α → Except ε γ} {other : β → Except ε δ}
    (first : Matches relation left right)
    (second : ∀ result partner, relation result partner →
      Matches results (next result) (other partner)) :
    Matches results (left >>= next) (right >>= other) := by
  cases first with
  | ok related => exact second _ _ related
  | error error => exact .error error

theorem map {results : γ → δ → Prop} {change : α → γ} {other : β → δ}
    (pair : Matches relation left right)
    (keeps : ∀ result partner, relation result partner →
      results (change result) (other partner)) :
    Matches results (left.map change) (right.map other) := by
  cases pair with
  | ok related => exact .ok (keeps _ _ related)
  | error error => exact .error error

variable {members : List α} {partners : List β}

theorem foldlM {states : σ → τ → Prop} {step : σ → α → Except ε σ} {other : τ → β → Except ε τ}
    {start : σ} {begin : τ} (pairs : List.Forall₂ relation members partners)
    (begins : states start begin)
    (steps : ∀ state partner member mate, states state partner → relation member mate →
      Matches states (step state member) (other partner mate)) :
    Matches states (members.foldlM step start) (partners.foldlM other begin) := by
  induction pairs generalizing start begin with
  | nil => exact .ok begins
  | cons related rest ih =>
      rw [List.foldlM_cons, List.foldlM_cons]
      exact (steps _ _ _ _ begins related).bind fun _ _ stepped => ih stepped

end Matches

/-- The error that an outcome is, if it is one. -/
def failure? : Except ε α → Option ε
  | .ok _ => none
  | .error error => some error

theorem eq_error_of_failure? {outcome : Except ε α} {error : ε}
    (isFailure : failure? outcome = some error) : outcome = .error error := by
  cases outcome with
  | ok => cases isFailure
  | error found => rw [Option.some.inj isFailure]

/-- Whether an outcome is an error of one kind, or a success of another. -/
def Yields (fails : ε → Prop) (succeeds : α → Prop) : Except ε α → Prop
  | .ok result => succeeds result
  | .error error => fails error

namespace Yields

variable {fails wider : ε → Prop} {succeeds weaker : α → Prop} {outcome : Except ε α}

theorem mono (yields : Yields fails succeeds outcome)
    (widens : ∀ error, fails error → wider error)
    (weakens : ∀ result, succeeds result → weaker result) : Yields wider weaker outcome := by
  cases outcome with
  | ok result => exact weakens result yields
  | error error => exact widens error yields

theorem bind {between : α → Prop} {results : β → Prop} {next : α → Except ε β}
    (first : Yields fails between outcome)
    (second : ∀ result, between result → Yields fails results (next result)) :
    Yields fails results (outcome >>= next) := by
  cases outcome with
  | ok result => exact second result first
  | error error => exact first

theorem map {results : β → Prop} {change : α → β} (yields : Yields fails succeeds outcome)
    (keeps : ∀ result, succeeds result → results (change result)) :
    Yields fails results (outcome.map change) := by
  cases outcome with
  | ok result => exact keeps result yields
  | error error => exact yields

/-- Whatever it fails with, an outcome is the kind of success that all its successes are. -/
theorem of_forall (all : ∀ result, outcome = .ok result → succeeds result) :
    Yields (fun _ => True) succeeds outcome := by
  cases outcome with
  | ok result => exact all result rfl
  | error error => trivial

theorem remember (yields : Yields fails succeeds outcome) :
    Yields fails (fun result => outcome = .ok result) outcome := by
  cases outcome with
  | ok result => rfl
  | error error => exact yields

theorem mapM {members : List α} {step : α → Except ε β}
    (steps : ∀ member ∈ members, Yields fails (fun _ => True) (step member)) :
    Yields fails (fun _ => True) (members.mapM step) := by
  induction members with
  | nil => trivial
  | cons member rest ih =>
      rw [List.mapM_cons]
      refine (steps member List.mem_cons_self).bind fun _ _ => ?_
      exact (ih fun other mem => steps other (List.mem_cons_of_mem _ mem)).bind fun _ _ => trivial

theorem foldlM {members : List α} {states : σ → Prop} {step : σ → α → Except ε σ} {start : σ}
    (begins : states start)
    (steps : ∀ state, states state → ∀ member ∈ members, Yields fails states (step state member)) :
    Yields fails states (members.foldlM step start) := by
  induction members generalizing start with
  | nil => exact begins
  | cons member rest ih =>
      rw [List.foldlM_cons]
      refine (steps start begins member List.mem_cons_self).bind fun next reached => ?_
      exact ih reached fun state reached other mem =>
        steps state reached other (List.mem_cons_of_mem _ mem)

end Yields

end ResponseShape
