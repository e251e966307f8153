import Mathlib.Data.List.Basic

/-!
# Taking fallible computations apart

What it means that a computation in `Except` succeeded: every guard passed and
every step returned.
-/

namespace Arlen.Lib

variable {ε α β γ : Type}

theorem throw_bind (e : ε) (f : α → Except ε β) : (throw e : Except ε α) >>= f = .error e := rfl

theorem bind_eq_ok {x : Except ε α} {f : α → Except ε β} {b : β} :
    x >>= f = .ok b ↔ ∃ a, x = .ok a ∧ f a = .ok b := by
  cases x with
  | error e =>
    constructor
    · intro h
      cases h
    · rintro ⟨_, h, _⟩
      cases h
  | ok a =>
    constructor
    · intro h
      exact ⟨a, rfl, h⟩
    · rintro ⟨_, ha, h⟩
      obtain rfl := Except.ok.inj ha
      exact h

theorem bind_eq_error {x : Except ε α} {f : α → Except ε β} {e : ε} :
    x >>= f = .error e ↔ x = .error e ∨ ∃ a, x = .ok a ∧ f a = .error e := by
  cases x with
  | error e' =>
    constructor
    · intro h
      exact .inl (congrArg _ (Except.error.inj h))
    · rintro (h | ⟨_, h, _⟩)
      · obtain rfl := Except.error.inj h
        rfl
      · cases h
  | ok a =>
    constructor
    · intro h
      exact .inr ⟨a, rfl, h⟩
    · rintro (h | ⟨_, ha, h⟩)
      · cases h
      · obtain rfl := Except.ok.inj ha
        exact h

theorem pure_eq_ok {a b : α} : (pure a : Except ε α) = .ok b ↔ a = b :=
  ⟨Except.ok.inj, congrArg _⟩

theorem guard_eq_ok {c : Prop} [Decidable c] {e : ε} {x : Except ε α} {a : α} :
    (if c then .error e else x) = .ok a ↔ ¬ c ∧ x = .ok a := by
  by_cases h : c <;> simp [h]

theorem forM_eq_ok {l : List α} {f : α → Except ε Unit} {u : Unit} :
    l.forM f = .ok u ↔ ∀ a ∈ l, f a = .ok () := by
  induction l with
  | nil => simp [pure, Except.pure]
  | cons a l ih =>
    rw [List.forM, bind_eq_ok, List.forall_mem_cons, ← ih]
    exact ⟨fun ⟨_, h⟩ => h, fun h => ⟨(), h⟩⟩

theorem exists_ok_of_mapM {l : List α} {f : α → Except ε β} {bs : List β} (h : l.mapM f = .ok bs) :
    ∀ a ∈ l, ∃ b, f a = .ok b := by
  induction l generalizing bs with
  | nil => simp
  | cons a l ih =>
    simp only [List.mapM_cons, bind_eq_ok, pure_eq_ok] at h
    obtain ⟨b, hb, bs, hbs, -⟩ := h
    exact List.forall_mem_cons.2 ⟨⟨b, hb⟩, ih hbs⟩

theorem exists_mapM_ok {l : List α} {f : α → Except ε β} (h : ∀ a ∈ l, ∃ b, f a = .ok b) :
    ∃ bs, l.mapM f = .ok bs := by
  induction l with
  | nil => exact ⟨[], rfl⟩
  | cons a l ih =>
    obtain ⟨⟨b, hb⟩, hl⟩ := List.forall_mem_cons.1 h
    obtain ⟨bs, hbs⟩ := ih hl
    exact ⟨b :: bs, by rw [List.mapM_cons, hb, hbs]; rfl⟩

/-- What `f` returns, seen through `g`, is what `g'` says of the argument. -/
theorem map_eq_of_mapM_ok {l : List α} {f : α → Except ε β} {bs : List β} (h : l.mapM f = .ok bs)
    {g : β → γ} {g' : α → γ} (hg : ∀ a b, f a = .ok b → g b = g' a) : bs.map g = l.map g' := by
  induction l generalizing bs with
  | nil =>
    rw [List.mapM_nil, pure_eq_ok] at h
    rw [← h, List.map_nil, List.map_nil]
  | cons a l ih =>
    simp only [List.mapM_cons, bind_eq_ok, pure_eq_ok] at h
    obtain ⟨b, hb, bs, hbs, rfl⟩ := h
    rw [List.map_cons, List.map_cons, hg a b hb, ih hbs]

/-- Whether a list of steps succeeds does not depend on their order. -/
theorem mapM_ok_of_perm {f : α → Except ε β} {l l' : List α} {bs : List β}
    (hperm : l.Perm l') (h : l.mapM f = .ok bs) : ∃ bs', l'.mapM f = .ok bs' ∧ bs'.Perm bs := by
  induction hperm generalizing bs with
  | nil => exact ⟨bs, h, .refl _⟩
  | cons a _ ih =>
    simp only [List.mapM_cons, bind_eq_ok, pure_eq_ok] at h ⊢
    obtain ⟨b, hb, bs, hbs, rfl⟩ := h
    obtain ⟨bs', hbs', hp⟩ := ih hbs
    exact ⟨b :: bs', ⟨b, hb, bs', hbs', rfl⟩, hp.cons b⟩
  | swap a a' l =>
    simp only [List.mapM_cons, bind_eq_ok, pure_eq_ok] at h ⊢
    obtain ⟨b, hb, _, ⟨b', hb', bs, hbs, rfl⟩, rfl⟩ := h
    exact ⟨b' :: b :: bs, ⟨b', hb', _, ⟨b, hb, bs, hbs, rfl⟩, rfl⟩, .swap _ _ _⟩
  | trans _ _ ih ih' =>
    obtain ⟨bs', hbs', hp⟩ := ih h
    obtain ⟨bs'', hbs'', hp'⟩ := ih' hbs'
    exact ⟨bs'', hbs'', hp'.trans hp⟩

end Arlen.Lib
