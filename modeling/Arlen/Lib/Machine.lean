import Mathlib.Data.List.Basic

/-!
# Machines and their runs

A `Machine` answers an action with a reply and a next state, or refuses it.
`M.Run ok τ s`: from the start state, the actions of the trace `τ` (oldest
first, each with the reply it got) lead to `s`, and every step taken meets the
guard `ok`. A property of all runs is proved from what one step preserves
(`Run.inv`); a concrete run is checked by evaluating `exec` (`run_of_exec`).
-/

namespace Arlen.Lib

/-- A deterministic machine over states `σ`, actions `α` and replies `ρ`. -/
structure Machine (σ α ρ : Type) where
  init : σ
  step : σ → α → Option (ρ × σ)

namespace Machine

variable {σ α ρ : Type} {M : Machine σ α ρ} {ok : σ → α → Prop} {τ : List (α × ρ)} {s : σ}

/-- The guard that admits every step. -/
def anyStep : σ → α → Prop := fun _ _ => True

instance (s : σ) (a : α) : Decidable (anyStep s a) := .isTrue trivial

inductive Run (M : Machine σ α ρ) (ok : σ → α → Prop) : List (α × ρ) → σ → Prop where
  | start : Run M ok [] M.init
  | step {τ : List (α × ρ)} {s s' : σ} {a : α} {r : ρ} : Run M ok τ s → ok s a →
      M.step s a = some (r, s') → Run M ok (τ ++ [(a, r)]) s'

/-- **The invariant rule**: what holds at the start and survives every step
holds at the end of every run. The invariant may speak of the trace. -/
theorem Run.inv {I : List (α × ρ) → σ → Prop} (h0 : I [] M.init)
    (hstep : ∀ {τ s a r s'}, I τ s → ok s a → M.step s a = some (r, s') → I (τ ++ [(a, r)]) s')
    (h : M.Run ok τ s) : I τ s := by
  induction h with
  | start => exact h0
  | step _ hok hs ih => exact hstep ih hok hs

/-- A run under a guard is a run under any weaker one. -/
theorem Run.weaken {ok' : σ → α → Prop} (hw : ∀ s a, ok s a → ok' s a) (h : M.Run ok τ s) :
    M.Run ok' τ s := by
  induction h with
  | start => exact .start
  | step _ hok hs ih => exact .step ih (hw _ _ hok) hs

/-- From `s`, the actions of the trace lead to a later state. -/
inductive Path (M : Machine σ α ρ) (ok : σ → α → Prop) (s : σ) : List (α × ρ) → σ → Prop where
  | refl : Path M ok s [] s
  | step {τ : List (α × ρ)} {t t' : σ} {a : α} {r : ρ} : Path M ok s τ t → ok t a →
      M.step t a = some (r, t') → Path M ok s (τ ++ [(a, r)]) t'

/-- A run goes on along a path. -/
theorem Run.along {τ' : List (α × ρ)} {t : σ} (h : M.Run ok τ s) (hp : M.Path ok s τ' t) :
    M.Run ok (τ ++ τ') t := by
  induction hp with
  | refl => simpa using h
  | step _ hok hs ih =>
    rw [← List.append_assoc]
    exact ih.step hok hs

section Exec

variable [∀ s a, Decidable (ok s a)]

/-- Take the listed actions from `s`; `none` as soon as one is refused or fails
the guard. -/
def exec (M : Machine σ α ρ) (ok : σ → α → Prop) [∀ s a, Decidable (ok s a)] :
    σ → List α → Option (List (α × ρ) × σ)
  | s, [] => some ([], s)
  | s, a :: as =>
    if ok s a then
      match M.step s a with
      | none => none
      | some (r, s') =>
        match M.exec ok s' as with
        | none => none
        | some (τ, t) => some ((a, r) :: τ, t)
    else none

theorem Run.extend {as : List α} {τ' : List (α × ρ)} {t : σ} (h : M.Run ok τ s)
    (he : M.exec ok s as = some (τ', t)) : M.Run ok (τ ++ τ') t := by
  induction as generalizing τ s τ' with
  | nil =>
    simp only [exec, Option.some.injEq, Prod.mk.injEq] at he
    obtain ⟨rfl, rfl⟩ := he
    simpa using h
  | cons a as ih =>
    simp only [exec] at he
    split at he
    · next hok =>
      split at he
      · cases he
      · next r s' hs =>
        split at he
        · cases he
        · next τ'' t' hx =>
          simp only [Option.some.injEq, Prod.mk.injEq] at he
          obtain ⟨rfl, rfl⟩ := he
          simpa using ih (h.step hok hs) hx
    · cases he

/-- Evaluating a list of actions from the start gives a run. -/
theorem run_of_exec {as : List α} (he : M.exec ok M.init as = some (τ, s)) : M.Run ok τ s := by
  simpa using Run.extend .start he

end Exec

end Machine

end Arlen.Lib
