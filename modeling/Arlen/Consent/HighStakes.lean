import Mathlib.Data.List.Nodup
import Arlen.Consent.Delivery

/-!
# Which dialog answers a request

A requester is answered by the decision on the dialog it parked under, its own
or one it joined. `World.Answers Fit` carries a relation between the dialog and
the request from the moment of parking to the delivery. A high-stakes request
may join a standard dialog, since `sameQuestion` reads neither the kind nor the
tier; it is answered by a dialog of its own kind when no join crosses kinds.
-/

namespace Arlen.Consent

open Arlen.Lib

namespace World

variable {cap : Capability} {w w' : World} {a : Action} {rep : Reply}
  {Fit : PendingRequest → ConsentRequest → Prop}

/-- Every sender, parked, taken or fired, asked for something `Fit` relates to
its dialog. -/
structure Answers (Fit : PendingRequest → ConsentRequest → Prop) (w : World) : Prop where
  parked : ∀ p ∈ w.inner.queue.pending, ∀ x, (p.id, x) ∈ w.inner.waiters.all → Fit p x.request
  taken : ∀ r ∈ w.resolving, ∀ x ∈ r.waiting, Fit r.dialog x.request
  sent : ∀ d ∈ w.delivered, Fit d.dialog d.waiter.request

/-- What parking asks of `Fit`: the dialog a request opens fits it, and so does
the one it joins. -/
def FitsIntake (Fit : PendingRequest → ConsentRequest → Prop) (cap : Capability) (w : World) :
    Action → Prop
  | .intake body app _ =>
    Fit { id := w.inner.queue.nextId, request := requestOf body app
          tier := classify (requestOf body app) cap, seq := w.inner.queue.nextSeq }
        (requestOf body app) ∧
      ∀ p, w.inner.queue.pending.find? (fun p => sameQuestion p.request (requestOf body app)) =
        some p → Fit p (requestOf body app)
  | _ => True

theorem WF.eq_of_id (hw : WF w) {p p' : PendingRequest} (hp : p ∈ w.inner.queue.pending)
    (hp' : p' ∈ w.inner.queue.pending) (h : p.id = p'.id) : p = p' :=
  List.inj_on_of_nodup_map hw.nodup hp hp' h

/-- No sender is parked under an id that was never issued. -/
theorem WF.not_parked (hw : WF w) (x : Waiter) :
    (w.inner.queue.nextId, x) ∉ w.inner.waiters.all := fun h =>
  Nat.lt_irrefl _ (hw.lt _ (hw.keys ▸ mem_keys_of_mem_all h))

theorem Answers.intake (ha : Answers Fit w) (hw : WF w) {body : RequestBody} {app : String}
    {now : Int} (hf : FitsIntake Fit cap w (.intake body app now))
    (h : step cap w (.intake body app now) = some (rep, w')) : Answers Fit w' := by
  simp only [step] at h
  rcases w.inner.intake_cases cap body app now w.chans with
    ⟨b, _, he⟩ | ⟨_, he, _⟩ | ⟨p, hp, hfind, he⟩ | he <;> rw [he] at h <;> cases h
  · exact ⟨ha.parked, ha.taken, ha.sent⟩
  · exact ⟨ha.parked, ha.taken, ha.sent⟩
  · refine ⟨fun p' hp' x hx => ?_, ha.taken, ha.sent⟩
    rcases List.mem_cons.1 ((Waiters.all_park _ _ _).mem_iff.1 hx) with heq | hold
    · simp only [Prod.mk.injEq] at heq
      obtain ⟨hid, rfl⟩ := heq
      exact hw.eq_of_id hp' hp hid ▸ hf.2 p hfind
    · exact ha.parked p' hp' x hold
  · refine ⟨fun p' hp' x hx => ?_, ha.taken, ha.sent⟩
    have hpark := List.mem_cons.1 ((Waiters.all_park _ _ _).mem_iff.1 hx)
    rcases List.mem_append.1 hp' with hp' | hp'
    · -- an older dialog has an older id
      have hlt := hw.lt p'.id (List.mem_map_of_mem hp')
      rcases hpark with heq | hold
      · rw [(Prod.mk.inj heq).1] at hlt
        exact absurd hlt (Nat.lt_irrefl _)
      · exact ha.parked p' hp' x hold
    · cases List.mem_singleton.1 hp'
      rcases hpark with heq | hold
      · cases heq
        exact hf.1
      · exact absurd hold (hw.not_parked x)

theorem Answers.take (ha : Answers Fit w) {id : RequestId} {o : ConsentOutcome} {now : Int}
    (h : step cap w (.take id o now) = some (rep, w')) : Answers Fit w' := by
  obtain ⟨_, rfl⟩ | ⟨dialog, decision, queue, _, hd, rfl⟩ := take_cases h
  · exact ha
  obtain ⟨hr, _, _⟩ := resolveDecision_eq_some hd
  obtain ⟨hmem, hid, _, hpend, _⟩ := ConsentQueue.resolve_eq_some hr
  have hall := Waiters.all_remove w.inner.waiters id
  refine ⟨fun p hp x hx => ?_, fun r hr x hx => ?_, ha.sent⟩
  · refine ha.parked p (List.mem_of_mem_eraseP (hpend ▸ hp)) x ?_
    exact hall.mem_iff.2 (List.mem_append_right _ hx)
  · rcases List.mem_append.1 hr with hr | hr
    · exact ha.taken r hr x hx
    · cases List.mem_singleton.1 hr
      refine ha.parked dialog hmem x (hall.mem_iff.2 (List.mem_append_left _ ?_))
      exact List.mem_map.2 ⟨x, hx, by rw [hid]⟩

theorem Answers.update (ha : Answers Fit w) (id : RequestId) (f : Resolving → Resolving)
    (hf : ∀ r, ((f r).dialog, (f r).waiting) = (r.dialog, r.waiting))
    (hi : w'.inner.queue = w.inner.queue ∧ w'.inner.waiters = w.inner.waiters)
    (hr : w'.resolving = (w.update id f).resolving) (hd : w'.delivered = w.delivered) :
    Answers Fit w' := by
  refine ⟨hi.1 ▸ hi.2 ▸ ha.parked, fun r hm x hx => ?_, hd ▸ ha.sent⟩
  rw [hr] at hm
  obtain ⟨r0, hr0, rfl⟩ := List.mem_map.1 hm
  have hsame := Prod.mk.injEq .. ▸ hf r0
  split at hx
  · next hid =>
    simp only [hid, ↓reduceIte, hsame.1]
    exact ha.taken r0 hr0 x (hsame.2 ▸ hx)
  · next hid =>
    simp only [hid, ↓reduceIte]
    exact ha.taken r0 hr0 x hx

theorem Answers.step (ha : Answers Fit w) (hw : WF w) (hf : FitsIntake Fit cap w a)
    (h : step cap w a = some (rep, w')) : Answers Fit w' := by
  cases a with
  | intake body app now => exact ha.intake hw hf h
  | take id o now => exact ha.take h
  | audit id ok =>
    obtain ⟨_, rfl⟩ := audit_cases h
    exact ha.update id (fun r => { r with audited := some ok }) (fun _ => rfl) ⟨rfl, rfl⟩ rfl rfl
  | remember id =>
    obtain ⟨r, g, _, _, _, rfl⟩ := remember_cases h
    exact ha.update id (fun r => { r with recorded := true }) (fun _ => rfl) ⟨rfl, rfl⟩ rfl rfl
  | send id =>
    obtain ⟨r, hr, _, _, rfl⟩ := send_cases h
    refine ⟨ha.parked, fun r' hr' => ha.taken r' (List.mem_of_mem_eraseP hr'), fun d hd => ?_⟩
    rcases List.mem_append.1 hd with hd | hd
    · exact ha.sent d hd
    · obtain ⟨x, hx, rfl⟩ := List.mem_map.1 hd
      exact ha.taken r (inFlight_mem hr).1 x hx
  | revoke handle =>
    obtain ⟨_, _, rfl⟩ | ⟨g, gs, _, _, rfl⟩ := revoke_cases h
    · exact ha
    · exact ⟨ha.parked, ha.taken, ha.sent⟩
  | gesture recipient path ok =>
    obtain ⟨_, rfl⟩ := gesture_cases h
    split <;> exact ⟨ha.parked, ha.taken, ha.sent⟩
  | confer g =>
    obtain ⟨_, _, rfl⟩ := confer_cases h
    exact ⟨ha.parked, ha.taken, ha.sent⟩

end World

/-- A relation that every intake of a run respects holds of every answer. -/
theorem answers_of_run {cap : Capability} {ok : World → Action → Prop}
    {Fit : PendingRequest → ConsentRequest → Prop}
    (hfit : ∀ {τ w a}, (broker cap).Run ok τ w → ok w a → w.FitsIntake Fit cap a) {τ : Trace}
    {w : World} (h : (broker cap).Run ok τ w) : w.Answers Fit := by
  induction h with
  | start => exact ⟨by simp [broker], by simp [broker], by simp [broker]⟩
  | step hrun hok hs ih => exact ih.step (wf_of_run hrun) (hfit hrun hok) hs

/-! ## The tier of a pending dialog -/

/-- Each pending dialog shows the tier of the request that opened it. -/
def World.Tiered (cap : Capability) (w : World) : Prop :=
  ∀ p ∈ w.inner.queue.pending, p.tier = classify p.request cap

theorem World.Tiered.step {cap : Capability} {w w' : World} {a : Action} {rep : Reply}
    (hi : Tiered cap w) (h : step cap w a = some (rep, w')) : Tiered cap w' := by
  cases a with
  | intake body app now =>
    simp only [World.step] at h
    rcases w.inner.intake_cases cap body app now w.chans with
      ⟨b, _, he⟩ | ⟨_, he, _⟩ | ⟨p, _, _, he⟩ | he <;> rw [he] at h <;> cases h
    · exact hi
    · exact hi
    · exact hi
    · intro p hp
      rcases List.mem_append.1 hp with hp | hp
      · exact hi p hp
      · cases List.mem_singleton.1 hp
        rfl
  | take id o now =>
    obtain ⟨_, rfl⟩ | ⟨dialog, decision, queue, _, hd, rfl⟩ := take_cases h
    · exact hi
    · obtain ⟨_, _, _, hpend, _⟩ := ConsentQueue.resolve_eq_some (resolveDecision_eq_some hd).1
      exact fun p hp => hi p (List.mem_of_mem_eraseP (hpend ▸ hp))
  | _ =>
    have hq := (step_frame h (by simp) (by simp)).1
    exact fun p hp => hi p (hq ▸ hp)

theorem tiered_of_run {cap : Capability} {ok : World → Action → Prop} {τ : Trace} {w : World}
    (h : (broker cap).Run ok τ w) : w.Tiered cap :=
  h.inv (I := fun _ w => w.Tiered cap) (by simp [broker, World.Tiered]) fun hi _ hs => hi.step hs

/-! ## High-stakes requests -/

/-- No high-stakes request joins a dialog for another kind. -/
def kindsApart (cap : Capability) (w : World) : Action → Prop
  | .intake body app _ =>
    classify (requestOf body app) cap = .highStakes →
      ∀ p ∈ w.inner.queue.pending.find? (fun p => sameQuestion p.request (requestOf body app)),
        p.request.kind = (requestOf body app).kind
  | _ => True

instance (cap : Capability) (w : World) : (a : Action) → Decidable (kindsApart cap w a)
  | .intake body app _ =>
    inferInstanceAs (Decidable (classify (requestOf body app) cap = .highStakes →
      ∀ p ∈ w.inner.queue.pending.find? (fun p => sameQuestion p.request (requestOf body app)),
        p.request.kind = (requestOf body app).kind))
  | .take .. | .audit .. | .remember .. | .send .. | .revoke .. | .gesture .. | .confer .. =>
    .isTrue trivial

/-- The dialog is high-stakes and of the request's kind, if the request is
high-stakes. -/
def InKind (cap : Capability) (p : PendingRequest) (r : ConsentRequest) : Prop :=
  classify r cap = .highStakes → p.tier = .highStakes ∧ p.request.kind = r.kind

theorem kindsApart_fits {cap : Capability} {ok : World → Action → Prop} {τ : Trace} {w : World}
    {a : Action} (h : (broker cap).Run ok τ w) (ha : kindsApart cap w a) :
    w.FitsIntake (InKind cap) cap a := by
  cases a with
  | intake body app now =>
    refine ⟨fun hs => ⟨hs, rfl⟩, fun p hp hs => ?_⟩
    have hk := ha hs p hp
    have hq : sameQuestion p.request (requestOf body app) = true := by
      simpa using List.find?_some hp
    -- a joined request is not externally triggered, so its kind is what makes it high-stakes
    have hext : (requestOf body app).triggeredByExternalContent = false := by
      simp only [sameQuestion, Bool.and_eq_true, Bool.not_eq_true'] at hq
      exact hq.1.1.1.2
    have hconf : p.request.kind.alwaysRequiresConfirmation = true := by
      rcases classify_eq_highStakes.1 hs with h | h
      · rw [hk, h]
      · rw [hext] at h; cases h
    refine ⟨?_, hk⟩
    rw [tiered_of_run h p (List.mem_of_find?_eq_some hp)]
    exact classify_eq_highStakes.2 (.inl hconf)
  | _ => trivial

/-- **High-stakes answers, when kinds stay apart.** In a run where no
high-stakes request joins a dialog for another kind, a high-stakes requester is
allowed only by a dialog that was itself high-stakes and of the same kind. -/
theorem highStakes_answered_in_kind {cap : Capability} {τ : Trace} {w : World}
    (h : (broker cap).Run (kindsApart cap) τ w) :
    ∀ d ∈ w.delivered, classify d.waiter.request cap = .highStakes → d.outcome.allowed = true →
      d.dialog.tier = .highStakes ∧ d.dialog.request.kind = d.waiter.request.kind :=
  fun d hd hs _ => (answers_of_run kindsApart_fits h).sent d hd hs

/-- A request to delete what `tidyUp` would only move. -/
def deleteAll : RequestBody := { tidyUp with kind := .permanentDelete, summary := "delete all" }

/-- A deletion allowed by a dialog of its own. -/
theorem highStakes_answered_in_kind_delete : ∃ τ w,
    (broker suggestOnly).Run (kindsApart suggestOnly) τ w ∧
      ∃ d ∈ w.delivered, d.waiter.request = requestOf deleteAll "files" ∧
        d.outcome = .allowedOnce ∧ d.dialog.tier = .highStakes ∧
        d.dialog.request.kind = .permanentDelete := by
  obtain ⟨τ, w, he, d, hd, hr, ho, hs⟩ : ∃ τ w,
      (broker suggestOnly).exec (kindsApart suggestOnly) {}
        [.intake deleteAll "files" 0, .take 0 .allowedOnce 1, .audit 0 true, .send 0] =
          some (τ, w) ∧
      ∃ d ∈ w.delivered, d.waiter.request = requestOf deleteAll "files" ∧
        d.outcome = .allowedOnce ∧ classify d.waiter.request suggestOnly = .highStakes :=
    ⟨_, _, rfl, _, List.mem_singleton.2 rfl, rfl, rfl, rfl⟩
  have hrun := Machine.run_of_exec he
  have hk := highStakes_answered_in_kind hrun d hd hs (by rw [ho]; rfl)
  exact ⟨τ, w, hrun, d, hd, hr, ho, hk.1, by rw [hk.2, hr]; rfl⟩

/-- A deletion joins the pending ordinary request of the same requester, class
and scope, and is allowed by the decision on that standard dialog. -/
theorem highStakes_answered_by_standard : ¬ ∀ (cap : Capability) (τ : Trace) (w : World),
    (broker cap).Run Machine.anyStep τ w →
    ∀ d ∈ w.delivered, classify d.waiter.request cap = .highStakes → d.outcome.allowed = true →
      d.dialog.tier = .highStakes ∧ d.dialog.request.kind = d.waiter.request.kind := by
  intro hall
  obtain ⟨τ, w, he, d, hd, hs, ha, ht⟩ : ∃ τ w,
      (broker suggestOnly).exec Machine.anyStep {}
        [.intake tidyUp "files" 0, .intake deleteAll "files" 1, .take 0 .allowedOnce 2,
          .audit 0 true, .send 0] = some (τ, w) ∧
      ∃ d ∈ w.delivered, classify d.waiter.request suggestOnly = .highStakes ∧
        d.outcome.allowed = true ∧ d.dialog.tier = .standard :=
    ⟨_, _, rfl, _, List.mem_cons_of_mem _ List.mem_cons_self, by decide, rfl, rfl⟩
  have := (hall suggestOnly τ w (Machine.run_of_exec he) d hd hs ha).1
  rw [ht] at this
  cases this

end Arlen.Consent
