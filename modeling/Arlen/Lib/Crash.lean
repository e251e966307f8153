import Arlen.Lib.Action

/-!
# Operations that may be cut short

An operation on a medium in state `σ` is the calls it makes, one after the other. A plan
says which call fails and at which one the process is killed; a call that breaks off may
have landed in part. `Does op d ok err` says how an operation ends that starts on `d`,
under every plan: in a value and a state `ok` allows, or broken off in a state `err`
allows.
-/

namespace Arlen.Lib.Crash

variable {σ ε ρ α β : Type}

/-- How a call breaks off, and what had landed by then. -/
inductive Fault (ρ : Type) where
  | fails (landed : ρ)
  | dies (landed : ρ)

/-- How an operation ends short. -/
inductive Stop (ε : Type) where
  | killed
  | error (e : ε)
deriving DecidableEq

/-- The medium, and how many calls the operation has made. -/
structure World (σ : Type) where
  disk : σ
  made : Nat

abbrev Op (σ ε : Type) := Action (World σ) (Stop ε)

/-- Make a call. One that fails for no reason of its own ends in `other`. -/
def call (plan : Nat → Option (Fault ρ)) (other : ε) (f : σ → Except ε (α × σ))
    (part : ρ → σ → σ) : Op σ ε α := fun w =>
  match plan w.made with
  | some (.fails n) => some (.error (.error other), ⟨part n w.disk, w.made + 1⟩)
  | some (.dies n) => some (.error .killed, ⟨part n w.disk, w.made + 1⟩)
  | none =>
    match f w.disk with
    | .ok (a, d) => some (.ok a, ⟨d, w.made + 1⟩)
    | .error e => some (.error (.error e), ⟨w.disk, w.made + 1⟩)

/-- `match .. { Err(e) => .. }`, which a process that was killed does not get to. -/
def recover (act : Op σ ε α) (f : ε → Op σ ε α) : Op σ ε α := fun w =>
  match act w with
  | some (.error (.error e), w') => f e w'
  | r => r

/-- `let _ = ..`. -/
def ignore (act : Op σ ε Unit) : Op σ ε Unit := recover act fun _ => pure ()

def orStop : Except ε α → Op σ ε α
  | .ok a => pure a
  | .error e => Action.fail (.error e)

/-- Run an operation from its first call on. -/
def perform (op : Op σ ε α) (d : σ) : Option (Except (Stop ε) α × σ) :=
  (op ⟨d, 0⟩).map fun r => (r.1, r.2.disk)

/-! ## How operations end -/

def Does (op : Op σ ε α) (d : σ) (ok : α → σ → Prop) (err : σ → Prop) : Prop :=
  ∀ made, Action.Ends True op ⟨d, made⟩ (fun a w => ok a w.disk) fun _ w => err w.disk

variable {op : Op σ ε α} {d : σ} {ok ok' : α → σ → Prop} {err err' : σ → Prop}

theorem Does.mono (h : Does op d ok err) (hok : ∀ a d', ok a d' → ok' a d')
    (herr : ∀ d', err d' → err' d') : Does op d ok' err' :=
  fun made => (h made).mono (fun a w => hok a w.disk) fun _ w => herr w.disk

theorem Does.pure {a : α} (h : ok a d) : Does (Pure.pure a : Op σ ε α) d ok err :=
  fun _ => Action.Ends.pure h

theorem Does.fail {e : Stop ε} (h : err d) : Does (Action.fail e : Op σ ε α) d ok err :=
  fun _ => Action.Ends.fail h

theorem Does.bind {f : α → Op σ ε β} {M : α → σ → Prop} {ok : β → σ → Prop}
    (h : Does op d M err) (hf : ∀ a d', M a d' → Does (f a) d' ok err) :
    Does (op >>= f) d ok err :=
  fun made => (h made).bind fun a w hw => hf a w.disk hw w.made

theorem Does.recover {f : ε → Op σ ε α} {M : σ → Prop} (h : Does op d ok M)
    (hkill : ∀ d', M d' → err d') (hf : ∀ e d', M d' → Does (f e) d' ok err) :
    Does (recover op f) d ok err := by
  intro made
  have hop := h made
  unfold Action.Ends at hop ⊢
  unfold Crash.recover
  rcases hrun : op ⟨d, made⟩ with _ | ⟨(_ | e) | a, w⟩
  · rw [hrun] at hop
    exact hop
  · rw [hrun] at hop
    exact hkill _ hop
  · rw [hrun] at hop
    exact hf e w.disk hop w.made
  · rw [hrun] at hop
    exact hop

theorem Does.ignore {op : Op σ ε Unit} {P : σ → Prop} (h : Does op d (fun _ => P) P) :
    Does (ignore op) d (fun _ => P) P :=
  h.recover (fun _ hd => hd) fun _ _ hd => Does.pure hd

theorem does_orStop (r : Except ε α) :
    Does (orStop r : Op σ ε α) d (fun a d' => r = .ok a ∧ d' = d) (· = d) := by
  cases r with
  | ok a => exact Does.pure ⟨rfl, rfl⟩
  | error e => exact Does.fail rfl

/-- No call breaks off. -/
def Smooth (plan : Nat → Option (Fault ρ)) : Prop := ∀ n, plan n = none

/-- **The rule of calls.** -/
theorem does_call {plan : Nat → Option (Fault ρ)} {other : ε} {f : σ → Except ε (α × σ)}
    {part : ρ → σ → σ} (hpart : ¬ Smooth plan → ∀ n, err (part n d))
    (herr : ∀ e, f d = .error e → err d) :
    Does (call plan other f part) d (fun a d' => f d = .ok (a, d')) err := by
  intro made
  have hsmooth : ∀ fault, plan made = some fault → ¬ Smooth plan := fun fault hfault hall =>
    nomatch hfault.symm.trans (hall made)
  unfold Action.Ends call
  cases hplan : plan made with
  | some fault =>
    cases fault with
    | fails n => exact hpart (hsmooth _ hplan) n
    | dies n => exact hpart (hsmooth _ hplan) n
  | none =>
    cases hf : f d with
    | error e => simpa [hf] using herr e hf
    | ok r => simp

/-- What an operation is known to do it did when it was performed. -/
theorem Does.performed {r : Except (Stop ε) α} {d' : σ} (h : Does op d ok err)
    (hp : perform op d = some (r, d')) : (∃ a, r = .ok a ∧ ok a d') ∨ ∃ e, r = .error e ∧ err d' := by
  obtain ⟨⟨res, w⟩, hrun, heq⟩ := Option.map_eq_some_iff.1 hp
  cases heq
  cases res with
  | ok a => exact .inl ⟨a, rfl, (h 0).of_ok hrun⟩
  | error e => exact .inr ⟨e, rfl, (h 0).of_error hrun⟩

/-- An operation that is known to do something is performed. -/
theorem Does.returns (h : Does op d ok err) : ∃ r d', perform op d = some (r, d') := by
  obtain ⟨r, hr⟩ := Option.ne_none_iff_exists'.1 ((h 0).returns trivial)
  exact ⟨r.1, r.2.disk, by rw [perform, hr, Option.map_some]⟩

end Arlen.Lib.Crash
