import Mathlib.Data.List.Basic

/-!
# Actions on a state that may fail

An action changes a state and returns a value or an error; one that runs out of
fuel returns nothing at all. `Ends total act s ok err` says how `act` ends when it
is started in `s`: in a value and a state `ok` allows, or in an error and a state
`err` allows. With `total` it does end; without, it need not.
-/

namespace Arlen.Lib

/-- A computation over states `σ` with errors `ε`. -/
def Action (σ ε α : Type) := σ → Option (Except ε α × σ)

namespace Action

variable {σ ε ε' α β : Type}

/-- The action does not return. -/
def outOfFuel : Action σ ε α := fun _ => none

/-- End in an error. -/
def fail (e : ε) : Action σ ε α := fun s => some (.error e, s)

instance : Monad (Action σ ε) where
  pure a := fun s => some (.ok a, s)
  bind act f := fun s =>
    match act s with
    | none => none
    | some (.ok a, s') => f a s'
    | some (.error e, s') => some (.error e, s')

/-- `Result::map_err`. -/
def mapError (f : ε → ε') (act : Action σ ε α) : Action σ ε' α := fun s =>
  match act s with
  | none => none
  | some (.ok a, s') => some (.ok a, s')
  | some (.error e, s') => some (.error (f e), s')

/-- Hand the result of an action on as a value. -/
def attempt (act : Action σ ε α) : Action σ ε' (Except ε α) := fun s =>
  match act s with
  | none => none
  | some (r, s') => some (.ok r, s')

/-- A result that is there already. -/
def ofExcept : Except ε α → Action σ ε α
  | .ok a => pure a
  | .error e => fail e

/-- One action for each member of a list, until one fails. -/
def forEach (l : List α) (f : α → Action σ ε Unit) : Action σ ε Unit :=
  match l with
  | [] => pure ()
  | a :: l => do
    f a
    forEach l f

/-! ## Actions one after the other -/

theorem bind_of_ok {act : Action σ ε α} {f : α → Action σ ε β} {s s' : σ} {a : α}
    (h : act s = some (.ok a, s')) : (act >>= f) s = f a s' := by
  simp only [bind, h]

theorem bind_of_error {act : Action σ ε α} {f : α → Action σ ε β} {s s' : σ} {e : ε}
    (h : act s = some (.error e, s')) : (act >>= f) s = some (.error e, s') := by
  simp only [bind, h]

theorem bind_of_none {act : Action σ ε α} {f : α → Action σ ε β} {s : σ} (h : act s = none) :
    (act >>= f) s = none := by
  simp only [bind, h]

theorem bind_assoc {γ : Type} (act : Action σ ε α) (f : α → Action σ ε β) (g : β → Action σ ε γ) :
    act >>= f >>= g = act >>= fun a => f a >>= g := by
  funext s
  rcases h : act s with _ | ⟨e | a, s'⟩
  · rw [bind_of_none h, bind_of_none (bind_of_none h)]
  · rw [bind_of_error h, bind_of_error (bind_of_error h)]
  · rw [bind_of_ok h]
    simp only [bind, h]

theorem bind_eq_ok {act : Action σ ε α} {f : α → Action σ ε β} {s s'' : σ} {b : β}
    (h : (act >>= f) s = some (.ok b, s'')) :
    ∃ a s', act s = some (.ok a, s') ∧ f a s' = some (.ok b, s'') := by
  rcases hact : act s with _ | ⟨e | a, s'⟩
  · rw [bind_of_none hact] at h
    cases h
  · rw [bind_of_error hact] at h
    cases h
  · rw [bind_of_ok hact] at h
    exact ⟨a, s', rfl, h⟩

theorem mapError_eq_ok {act : Action σ ε α} {f : ε → ε'} {s s' : σ} {a : α}
    (h : act.mapError f s = some (.ok a, s')) : act s = some (.ok a, s') := by
  unfold mapError at h
  rcases hact : act s with _ | ⟨e | a', s''⟩ <;> rw [hact] at h <;> cases h
  rfl

/-- A run that was evaluated to a success. -/
theorem exists_ok_of_map_eq {γ : Type} {a : Action σ ε α} {s : σ} {f : σ → γ} {c : γ}
    (h : (a s).map (fun r => (r.1.isOk, f r.2)) = some (true, c)) :
    ∃ v s', a s = some (.ok v, s') ∧ f s' = c := by
  obtain ⟨⟨r, s'⟩, hr, heq⟩ := Option.map_eq_some_iff.1 h
  obtain ⟨hok, hf⟩ := Prod.mk.inj heq
  cases r with
  | error e => cases hok
  | ok v => exact ⟨v, s', hr, hf⟩

theorem exists_of_map_eq {γ : Type} {a : Action σ ε Unit} {s : σ} {f : σ → γ} {c : γ}
    (h : (a s).map (fun r => (r.1.isOk, f r.2)) = some (true, c)) :
    ∃ s', a s = some (.ok (), s') ∧ f s' = c := by
  obtain ⟨_, s', hr, hf⟩ := exists_ok_of_map_eq h
  exact ⟨s', hr, hf⟩

/-! ## How an action ends -/

def Ends (total : Prop) (act : Action σ ε α) (s : σ) (ok : α → σ → Prop) (err : ε → σ → Prop) :
    Prop :=
  match act s with
  | none => ¬ total
  | some (.ok a, s') => ok a s'
  | some (.error e, s') => err e s'

/-- The action keeps `I`, however it ends. -/
def Keeps (total : Prop) (I : σ → Prop) (act : Action σ ε α) : Prop :=
  ∀ s, I s → Ends total act s (fun _ => I) fun _ => I

variable {total : Prop} {act : Action σ ε α} {s s' : σ} {ok ok' : α → σ → Prop}
  {err err' : ε → σ → Prop}

theorem ends_iff : Ends total act s ok err ↔
    (act s = none → ¬ total) ∧ (∀ a s', act s = some (.ok a, s') → ok a s') ∧
      ∀ e s', act s = some (.error e, s') → err e s' := by
  unfold Ends
  rcases act s with _ | ⟨e | a, s'⟩ <;> simp

theorem Ends.of_ok (h : Ends total act s ok err) {a : α} (hr : act s = some (.ok a, s')) : ok a s' :=
  (ends_iff.1 h).2.1 a s' hr

theorem Ends.of_error (h : Ends total act s ok err) {e : ε} (hr : act s = some (.error e, s')) :
    err e s' :=
  (ends_iff.1 h).2.2 e s' hr

theorem Ends.returns (h : Ends total act s ok err) (ht : total) : act s ≠ none :=
  fun hr => (ends_iff.1 h).1 hr ht

/-- An action that cannot succeed fails. -/
theorem Ends.fails (h : Ends True act s (fun _ _ => False) err) : ∃ e s', act s = some (.error e, s') := by
  rcases hr : act s with _ | ⟨e | a, s'⟩
  · exact absurd hr (h.returns trivial)
  · exact ⟨e, s', rfl⟩
  · exact (h.of_ok hr).elim

theorem Ends.mono (h : Ends total act s ok err) (hok : ∀ a s', ok a s' → ok' a s')
    (herr : ∀ e s', err e s' → err' e s') : Ends total act s ok' err' := by
  unfold Ends at h ⊢
  generalize act s = r at h ⊢
  rcases r with _ | ⟨e | a, s'⟩
  · exact h
  · exact herr e s' h
  · exact hok a s' h

/-- An action that does not fail. -/
theorem Ends.safe (h : Ends total act s ok fun _ _ => False) : Ends total act s ok err :=
  h.mono (fun _ _ ha => ha) fun _ _ hf => hf.elim

theorem Ends.and (h : Ends total act s ok err) (h' : Ends total act s ok' err') :
    Ends total act s (fun a s' => ok a s' ∧ ok' a s') fun e s' => err e s' ∧ err' e s' := by
  unfold Ends at h h' ⊢
  generalize act s = r at h h' ⊢
  rcases r with _ | ⟨e | a, s'⟩
  · exact h
  · exact ⟨h, h'⟩
  · exact ⟨h, h'⟩

/-- What holds for each index holds for all. -/
theorem Ends.all {ι : Type} [Nonempty ι] {ok : ι → α → σ → Prop}
    (h : ∀ i, Ends total act s (ok i) err) : Ends total act s (fun a s' => ∀ i, ok i a s') err := by
  obtain ⟨i⟩ := ‹Nonempty ι›
  exact ends_iff.2 ⟨(ends_iff.1 (h i)).1, fun a s' hr i => (h i).of_ok hr,
    fun e s' hr => (h i).of_error hr⟩

/-- An action ends as it does. -/
theorem Ends.ran : Ends False act s (fun a s' => act s = some (.ok a, s'))
    fun e s' => act s = some (.error e, s') :=
  ends_iff.2 ⟨fun _ h => h, fun _ _ h => h, fun _ _ h => h⟩

theorem Ends.trivial : Ends False act s (fun _ _ => True) fun _ _ => True :=
  ends_iff.2 ⟨fun _ h => h, fun _ _ _ => True.intro, fun _ _ _ => True.intro⟩

theorem Ends.pure {a : α} (h : ok a s) : Ends total (Pure.pure a : Action σ ε α) s ok err := h

theorem Ends.fail {e : ε} (h : err e s) : Ends total (Action.fail e) s ok err := h

theorem Ends.bind {f : α → Action σ ε β} {M : α → σ → Prop} {ok : β → σ → Prop}
    (h : Ends total act s M err) (hf : ∀ a s', M a s' → Ends total (f a) s' ok err) :
    Ends total (act >>= f) s ok err := by
  have hbind : (act >>= f) s = match act s with
      | none => none
      | some (.ok a, s') => f a s'
      | some (.error e, s') => some (.error e, s') := rfl
  unfold Ends at h ⊢
  rw [hbind]
  generalize act s = r at h ⊢
  rcases r with _ | ⟨e | a, s'⟩
  · exact h
  · exact h
  · exact hf a s' h

theorem Ends.mapError {f : ε → ε'} {err : ε' → σ → Prop}
    (h : Ends total act s ok fun e => err (f e)) : Ends total (act.mapError f) s ok err := by
  unfold Ends at h ⊢
  unfold Action.mapError
  generalize act s = r at h ⊢
  rcases r with _ | ⟨e | a, s'⟩ <;> exact h

theorem Ends.attempt {ok : Except ε α → σ → Prop} {err : ε' → σ → Prop}
    (h : Ends total act s (fun a => ok (.ok a)) fun e => ok (.error e)) :
    Ends total (act.attempt : Action σ ε' _) s ok err := by
  unfold Ends at h ⊢
  unfold Action.attempt
  generalize act s = r at h ⊢
  rcases r with _ | ⟨e | a, s'⟩ <;> exact h

theorem Ends.ite {c : Prop} [Decidable c] {act' : Action σ ε α}
    (h : c → Ends total act s ok err) (h' : ¬ c → Ends total act' s ok err) :
    Ends total (if c then act else act') s ok err := by
  split
  · next hc => exact h hc
  · next hc => exact h' hc

/-- **The rule of loops.** `I` is about the members gone through, and a member that
fails ends the loop. -/
theorem Ends.forEach {l : List α} {f : α → Action σ ε Unit} {I : List α → σ → Prop}
    (hstep : ∀ done a rest s, l = done ++ a :: rest → I done s →
      Ends total (f a) s (fun _ => I (done ++ [a])) err) (h : I [] s) :
    Ends total (Action.forEach l f) s (fun _ => I l) err := by
  have loop : ∀ (rest done : List α) (s : σ), l = done ++ rest → I done s →
      Ends total (Action.forEach rest f) s (fun _ => I l) err := by
    intro rest
    induction rest with
    | nil =>
      intro done s hl hI
      rw [List.append_nil] at hl
      rw [hl]
      exact Ends.pure hI
    | cons a rest ih =>
      intro done s hl hI
      refine (hstep done a rest s hl hI).bind fun _ s' hI' => ?_
      exact ih (done ++ [a]) s' (by simpa using hl) hI'
  exact loop l [] s rfl h

/-! ## Keeping an invariant -/

variable {I : σ → Prop}

theorem Keeps.pure (a : α) : Keeps total I (Pure.pure a : Action σ ε α) := fun _ h => Ends.pure h

theorem Keeps.fail (e : ε) : Keeps total I (Action.fail e : Action σ ε α) := fun _ h => Ends.fail h

theorem Keeps.bind {f : α → Action σ ε β} (h : Keeps total I act)
    (hf : ∀ a, Keeps total I (f a)) : Keeps total I (act >>= f) :=
  fun s hs => (h s hs).bind fun a s' hs' => hf a s' hs'

theorem Keeps.mapError {f : ε → ε'} (h : Keeps total I act) : Keeps total I (act.mapError f) :=
  fun s hs => Ends.mapError (h s hs)

theorem Keeps.attempt (h : Keeps total I act) :
    Keeps total I (act.attempt : Action σ ε' (Except ε α)) :=
  fun s hs => Ends.attempt (h s hs)

theorem Keeps.forEach {l : List α} {f : α → Action σ ε Unit} (h : ∀ a ∈ l, Keeps total I (f a)) :
    Keeps total I (Action.forEach l f) :=
  fun _ hs => Ends.forEach (I := fun _ => I)
    (fun _ a _ s hl hI => h a (by simp [hl]) s hI) hs

end Action

end Arlen.Lib
