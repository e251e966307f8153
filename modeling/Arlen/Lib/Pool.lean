import Arlen.Lib.Machine

/-!
# Calls in flight

Calls that run side by side over shared state: a call is started, and any call in flight may
take its next step, which changes the shared state and says where the call stands then, or that
it is done. `Program.machine` is the machine of all interleavings; `step_cases` says what one
step of it does.
-/

namespace Arlen.Lib

/-- The code of the calls: `start` of an argument, and one `advance` with what the environment
answers it. -/
structure Program (σ π α ε : Type) where
  start : σ → α → σ × π
  advance : σ → π → ε → σ × Option π

/-- The shared state, and where each call in flight stands. -/
structure Pool (σ π : Type) where
  shared : σ
  calls : List π
deriving DecidableEq

inductive Turn (α ε : Type) where
  | start (a : α)
  | advance (k : Nat) (e : ε)

namespace Program

variable {σ π α ε : Type}

def step (P : Program σ π α ε) (m : Pool σ π) : Turn α ε → Option (Unit × Pool σ π)
  | .start a =>
    let (s, p) := P.start m.shared a
    some ((), ⟨s, m.calls ++ [p]⟩)
  | .advance k e =>
    match m.calls[k]? with
    | none => none
    | some p =>
      let (s, q) := P.advance m.shared p e
      some ((), ⟨s, m.calls.take k ++ q.toList ++ m.calls.drop (k + 1)⟩)

/-- Every interleaving, from shared state `s` and no call in flight. -/
def machine (P : Program σ π α ε) (s : σ) : Machine (Pool σ π) (Turn α ε) Unit :=
  ⟨⟨s, []⟩, P.step⟩

variable {P : Program σ π α ε} {m m' : Pool σ π} {t : Turn α ε} {r : Unit}

/-- **What a step does**: a call begins, or one of those in flight goes on. -/
theorem step_cases (h : P.step m t = some (r, m')) :
    (∃ a, t = .start a ∧
      m' = ⟨(P.start m.shared a).1, m.calls ++ [(P.start m.shared a).2]⟩) ∨
    (∃ k e before p after, t = .advance k e ∧ m.calls[k]? = some p ∧
      m.calls = before ++ p :: after ∧
      m' = ⟨(P.advance m.shared p e).1,
        before ++ (P.advance m.shared p e).2.toList ++ after⟩) := by
  cases t with
  | start a =>
    simp only [step, Option.some.injEq, Prod.mk.injEq, true_and] at h
    exact .inl ⟨a, rfl, h.symm⟩
  | advance k e =>
    simp only [step] at h
    cases hk : m.calls[k]? with
    | none => simp [hk] at h
    | some p =>
      obtain ⟨hlt, hp⟩ := List.getElem?_eq_some_iff.1 hk
      simp only [hk, Option.some.injEq, Prod.mk.injEq, true_and] at h
      refine .inr ⟨k, e, m.calls.take k, p, m.calls.drop (k + 1), rfl, hk, ?_, h.symm⟩
      rw [← hp, ← List.drop_eq_getElem_cons hlt, List.take_append_drop]

end Program

end Arlen.Lib
