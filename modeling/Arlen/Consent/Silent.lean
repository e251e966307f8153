import Arlen.Consent.Delivery

/-!
# What a silent grant rests on

An intake is granted without a dialog when the capability lets it proceed or a
remembered grant covers it. `World.Accounted` carries, for each grant in the
store, the place in the trace where it was recorded, the audited decision or
gesture it came from, and that its handle was not revoked after.
-/

namespace Arlen.Consent

open Arlen.Lib

/-- A decision the user took to outlast its occurrence, on a fully reversible
kind: `g` is the grant it mints. -/
structure Decided (dialog : PendingRequest) (o : ConsentOutcome) (now : Int) (g : ConsentGrant) :
    Prop where
  outlasts : o = .allowedRemembered ∧ g.lifetime = .persistent ∨
    o = .allowedForWindow ∧ g.lifetime = .until (saturatingAdd now gestureWindowMicros)
  reversible : Reversibility.of dialog.request.kind = .reversible
  recipient : g.recipient = dialog.request.requester.grantRecipient
  cls : g.cls = dialog.request.cls
  scope : g.scope = dialog.request.scope

theorem decided_of_mint {p : PendingRequest} {o : ConsentOutcome} {now : Int} {g : ConsentGrant}
    (h : mintGrant p (gateRemember p.request.kind o) now = some g) : Decided p o now g := by
  obtain ⟨hm, hrec, hcls, hscope⟩ := mintGrant_eq_some h
  obtain ⟨ho, hrev⟩ := gateRemember_mintsGrant hm
  rw [ho] at h hm
  refine ⟨?_, hrev, hrec, hcls, hscope⟩
  cases o with
  | allowedRemembered => cases h; exact .inl ⟨rfl, rfl⟩
  | allowedForWindow => cases h; exact .inr ⟨rfl, rfl⟩
  | allowedOnce => cases hm
  | denied => cases hm

/-- After the trace `τ`, the step `e` records `g`: for a decision taken and
audited in `τ`, or for a gesture audited in `τ`. -/
def Records (τ : Trace) (g : ConsentGrant) : Action × Reply → Prop
  | (.remember id, .remembered g') => g' = g ∧ ∃ o now dialog decision,
    (.take id o now, .taken dialog decision) ∈ τ ∧ (.audit id true, .audited) ∈ τ ∧
      decision.grant = some g ∧ Decided dialog o now g
  | (.confer g', .conferred) => g' = g ∧ ∃ recipient path,
    (.gesture recipient path true, .gesture true) ∈ τ ∧ g = conferFromGesture recipient path
  | _ => False

/-- `g` was recorded at some step of the trace, and its handle was not revoked
after that step. -/
def Remembered (τ : Trace) (g : ConsentGrant) : Prop :=
  ∃ τ₁ e τ₂, τ = τ₁ ++ e :: τ₂ ∧ Records τ₁ g e ∧
    ∀ e' ∈ τ₂, e'.1 ≠ .revoke g.revocationHandle

theorem Remembered.last {τ : Trace} {g : ConsentGrant} {e : Action × Reply} (h : Records τ g e) :
    Remembered (τ ++ [e]) g :=
  ⟨τ, e, [], rfl, h, by simp⟩

theorem Remembered.snoc {τ : Trace} {g : ConsentGrant} (h : Remembered τ g) {e : Action × Reply}
    (he : e.1 ≠ .revoke g.revocationHandle) : Remembered (τ ++ [e]) g := by
  obtain ⟨τ₁, e', τ₂, rfl, hrec, hno⟩ := h
  refine ⟨τ₁, e', τ₂ ++ [e], by simp, hrec, fun e'' he'' => ?_⟩
  rcases List.mem_append.1 he'' with h | h
  · exact hno e'' h
  · rw [List.mem_singleton.1 h]
    exact he

namespace World

variable {cap : Capability} {w w' : World} {a : Action} {rep : Reply} {τ : Trace}

/-- What the trace says of every stored grant and of every one on its way in. -/
structure Accounted (τ : Trace) (w : World) : Prop where
  handles : (GrantStore.handles w.inner.grants).Nodup
  stored : ∀ g ∈ w.inner.grants, Remembered τ g
  calls : ∀ r ∈ w.resolving, ∃ o now,
    (.take r.dialog.id o now, .taken r.dialog r.decision) ∈ τ ∧
      r.decision.grant = mintGrant r.dialog (gateRemember r.dialog.request.kind o) now ∧
      (r.audited = some true → (.audit r.dialog.id true, .audited) ∈ τ)
  gestures : ∀ g ∈ w.conferring, ∃ recipient path,
    (.gesture recipient path true, .gesture true) ∈ τ ∧ g = conferFromGesture recipient path

/-- What the trace says of a call stays said. -/
theorem Accounted.calls_snoc (ha : Accounted τ w) (e : Action × Reply) :
    ∀ r ∈ w.resolving, ∃ o now,
      (.take r.dialog.id o now, .taken r.dialog r.decision) ∈ τ ++ [e] ∧
        r.decision.grant = mintGrant r.dialog (gateRemember r.dialog.request.kind o) now ∧
        (r.audited = some true → (.audit r.dialog.id true, .audited) ∈ τ ++ [e]) := by
  intro r hr
  obtain ⟨o, now, ht, hg, haud⟩ := ha.calls r hr
  exact ⟨o, now, List.mem_append_left _ ht, hg, fun h => List.mem_append_left _ (haud h)⟩

theorem Accounted.gestures_snoc (ha : Accounted τ w) (e : Action × Reply) :
    ∀ g ∈ w.conferring, ∃ recipient path,
      (.gesture recipient path true, .gesture true) ∈ τ ++ [e] ∧
        g = conferFromGesture recipient path := by
  intro g hg
  obtain ⟨recipient, path, hm, heq⟩ := ha.gestures g hg
  exact ⟨recipient, path, List.mem_append_left _ hm, heq⟩

/-- A step other than a revocation that leaves the grants alone. -/
theorem Accounted.stored_snoc (ha : Accounted τ w) {e : Action × Reply}
    (he : ∀ handle, e.1 ≠ .revoke handle) : ∀ g ∈ w.inner.grants, Remembered (τ ++ [e]) g :=
  fun g hg => (ha.stored g hg).snoc (he _)

/-- A step that records a grant the trace accounts for. -/
theorem Accounted.stored_record (ha : Accounted τ w) {g : ConsentGrant} {e : Action × Reply}
    (he : ∀ handle, e.1 ≠ .revoke handle) (hrec : Records τ g e) :
    ∀ g' ∈ w.inner.grants.record g, Remembered (τ ++ [e]) g' := by
  intro g' hg'
  rcases GrantStore.mem_record hg' with rfl | hg'
  · exact .last hrec
  · exact ha.stored_snoc he g' hg'

theorem Accounted.intake (ha : Accounted τ w) {body : RequestBody} {app : String} {now : Int}
    (h : step cap w (.intake body app now) = some (rep, w')) :
    Accounted (τ ++ [(.intake body app now, rep)]) w' := by
  have hg : w'.inner.grants = w.inner.grants ∧ w'.resolving = w.resolving ∧
      w'.conferring = w.conferring := by
    simp only [step] at h
    rcases w.inner.intake_cases cap body app now w.chans with
      ⟨b, _, he⟩ | ⟨_, he, _⟩ | ⟨p, _, _, he⟩ | he <;> rw [he] at h <;> cases h <;>
      exact ⟨rfl, rfl, rfl⟩
  exact ⟨hg.1 ▸ ha.handles, hg.1 ▸ ha.stored_snoc (by simp), hg.2.1 ▸ ha.calls_snoc _,
    hg.2.2 ▸ ha.gestures_snoc _⟩

theorem Accounted.take (ha : Accounted τ w) {id : RequestId} {o : ConsentOutcome} {now : Int}
    (h : step cap w (.take id o now) = some (rep, w')) :
    Accounted (τ ++ [(.take id o now, rep)]) w' := by
  obtain ⟨_, rfl⟩ | ⟨dialog, decision, queue, rfl, hd, rfl⟩ := take_cases h
  · exact ⟨ha.handles, ha.stored_snoc (by simp), ha.calls_snoc _, ha.gestures_snoc _⟩
  obtain ⟨hr, _, hgrant⟩ := resolveDecision_eq_some hd
  obtain ⟨_, hid, _⟩ := ConsentQueue.resolve_eq_some hr
  refine ⟨ha.handles, ha.stored_snoc (by simp), fun r hr => ?_, ha.gestures_snoc _⟩
  rcases List.mem_append.1 hr with hr | hr
  · exact ha.calls_snoc _ r hr
  · cases List.mem_singleton.1 hr
    exact ⟨o, now, by simp [hid], hgrant, fun h => nomatch h⟩

/-- A change in place of a call's audit or record flag. -/
theorem Accounted.calls_update (ha : Accounted τ w) (id : RequestId) (f : Resolving → Resolving)
    {e : Action × Reply} (hf : ∀ r, ((f r).dialog, (f r).decision) = (r.dialog, r.decision))
    (haud : ∀ r ∈ w.resolving, r.dialog.id = id → (f r).audited = some true →
      (.audit id true, .audited) ∈ τ ++ [e]) :
    ∀ r ∈ (w.update id f).resolving, ∃ o now,
      (.take r.dialog.id o now, .taken r.dialog r.decision) ∈ τ ++ [e] ∧
        r.decision.grant = mintGrant r.dialog (gateRemember r.dialog.request.kind o) now ∧
        (r.audited = some true → (.audit r.dialog.id true, .audited) ∈ τ ++ [e]) := by
  intro r hr
  obtain ⟨r0, hr0, rfl⟩ := List.mem_map.1 hr
  obtain ⟨o, now, ht, hg, ha0⟩ := ha.calls_snoc e r0 hr0
  obtain ⟨hdialog, hdecision⟩ := Prod.mk.inj (hf r0)
  by_cases hid : r0.dialog.id = id
  · simp only [hid, ↓reduceIte, hdialog, hdecision] at ht ⊢
    exact ⟨o, now, ht, hg, haud r0 hr0 hid⟩
  · simp only [hid, ↓reduceIte]
    exact ⟨o, now, ht, hg, ha0⟩

theorem Accounted.remember (ha : Accounted τ w) {id : RequestId}
    (h : step cap w (.remember id) = some (rep, w')) :
    Accounted (τ ++ [(.remember id, rep)]) w' := by
  obtain ⟨r, g, hr, hg, rfl, rfl⟩ := remember_cases h
  obtain ⟨hmem, hid⟩ := inFlight_mem hr
  -- only an audited call has a grant to record
  have haud : r.audited = some true := by
    by_contra hne
    simp [Resolving.grant, hne] at hg
  have hdec : r.decision.grant = some g := by simpa [Resolving.grant, haud] using hg
  obtain ⟨o, now, ht, hmint, hheard⟩ := ha.calls r hmem
  have hrec : Records τ g (.remember id, .remembered g) :=
    ⟨rfl, o, now, r.dialog, r.decision, hid ▸ ht, hid ▸ hheard haud, hdec,
      decided_of_mint (hmint ▸ hdec)⟩
  refine ⟨GrantStore.nodup_record ha.handles g, ha.stored_record (by simp) hrec, ?_,
    ha.gestures_snoc _⟩
  refine ha.calls_update id (fun r => { r with recorded := true }) (fun _ => rfl) ?_
  intro r' hr' hid' haud'
  obtain ⟨_, _, _, _, hheard'⟩ := ha.calls r' hr'
  exact List.mem_append_left _ (hid' ▸ hheard' haud')

theorem Accounted.step (ha : Accounted τ w) (h : step cap w a = some (rep, w')) :
    Accounted (τ ++ [(a, rep)]) w' := by
  cases a with
  | intake body app now => exact ha.intake h
  | take id o now => exact ha.take h
  | remember id => exact ha.remember h
  | audit id ok =>
    obtain ⟨rfl, rfl⟩ := audit_cases h
    refine ⟨ha.handles, ha.stored_snoc (by simp), ?_, ha.gestures_snoc _⟩
    refine ha.calls_update id (fun r => { r with audited := some ok }) (fun _ => rfl) ?_
    intro r _ _ hok
    cases hok
    exact List.mem_append_right _ (List.mem_singleton.2 rfl)
  | send id =>
    obtain ⟨r, _, _, rfl, rfl⟩ := send_cases h
    exact ⟨ha.handles, ha.stored_snoc (by simp),
      fun r' hr' => ha.calls_snoc _ r' (List.mem_of_mem_eraseP hr'), ha.gestures_snoc _⟩
  | revoke handle =>
    obtain ⟨rfl, hnone, rfl⟩ | ⟨g, gs, rfl, hsome, rfl⟩ := revoke_cases h
    · refine ⟨ha.handles, fun g hg => (ha.stored g hg).snoc fun he => ?_, ha.calls_snoc _,
        ha.gestures_snoc _⟩
      cases he
      exact absurd hnone (GrantStore.revoke_ne_none hg)
    · obtain ⟨hleft, hnodup⟩ := GrantStore.revoke_eq_some ha.handles hsome
      refine ⟨hnodup, fun g' hg' => ?_, ha.calls_snoc _, ha.gestures_snoc _⟩
      refine (ha.stored g' (hleft g' hg').1).snoc fun he => (hleft g' hg').2 ?_
      cases he
      rfl
  | gesture recipient path ok =>
    obtain ⟨rfl, rfl⟩ := gesture_cases h
    cases ok with
    | false => exact ⟨ha.handles, ha.stored_snoc (by simp), ha.calls_snoc _, ha.gestures_snoc _⟩
    | true =>
      refine ⟨ha.handles, ha.stored_snoc (by simp), ha.calls_snoc _, fun g hg => ?_⟩
      rcases List.mem_append.1 hg with hg | hg
      · exact ha.gestures_snoc _ g hg
      · exact ⟨recipient, path, by simp, List.mem_singleton.1 hg⟩
  | confer g =>
    obtain ⟨hg, rfl, rfl⟩ := confer_cases h
    have hrec : Records τ g (.confer g, .conferred) := ⟨rfl, ha.gestures g hg⟩
    exact ⟨GrantStore.nodup_record ha.handles g, ha.stored_record (by simp) hrec,
      ha.calls_snoc _, fun g' hg' => ha.gestures_snoc _ g' (List.mem_of_mem_erase hg')⟩

end World

theorem accounted_of_run {cap : Capability} {ok : World → Action → Prop} {τ : Trace} {w : World}
    (h : (broker cap).Run ok τ w) : w.Accounted τ :=
  h.inv (I := fun τ w => w.Accounted τ)
    ⟨by simp [broker, GrantStore.handles], by simp [broker], by simp [broker], by simp [broker]⟩
    fun ha _ hs => ha.step hs

/-- Where a stored grant comes from: a decision on a fully reversible kind, or a
gesture. -/
theorem Remembered.origin {τ : Trace} {g : ConsentGrant} (h : Remembered τ g) :
    (∃ id o now dialog decision, (.take id o now, .taken dialog decision) ∈ τ ∧
        decision.grant = some g ∧ Reversibility.of dialog.request.kind = .reversible) ∨
      ∃ recipient path, (.gesture recipient path true, .gesture true) ∈ τ ∧
        g = conferFromGesture recipient path := by
  obtain ⟨τ₁, ⟨a, rep⟩, τ₂, rfl, hrec, _⟩ := h
  unfold Records at hrec
  split at hrec
  · obtain ⟨_, o, now, dialog, decision, ht, _, hg, hd⟩ := hrec
    exact .inl ⟨_, o, now, dialog, decision, List.mem_append_left _ ht, hg, hd.reversible⟩
  · obtain ⟨_, recipient, path, hm, hg⟩ := hrec
    exact .inr ⟨recipient, path, List.mem_append_left _ hm, hg⟩
  · exact hrec.elim

/-- **A silent grant rests on the capability or on a remembered grant.** After
every run, a non-check intake is granted silently only if `decide` lets its
attested requester proceed, or it is standard, not externally triggered, and
covered by a live grant for exactly its recipient, class and scope that was
recorded after an audited outlasting decision or gesture and whose handle was
not revoked since. And every stored grant was minted for a fully reversible
kind or by a gesture. -/
theorem silent_rests_on_grant {cap : Capability} {τ : Trace} {w : World}
    (h : (broker cap).Run Machine.anyStep τ w) :
    (∀ body app now w', body.checkOnly = false →
      (broker cap).step w (.intake body app now) = some (.intake .silentGranted, w') →
      cap.decide (requestOf body app).requester.grantRecipient body.kind
          body.triggeredByExternalContent = .proceed ∨
        (classify (requestOf body app) cap = .standard ∧
          body.triggeredByExternalContent = false ∧
          ∃ g ∈ w.inner.grants,
            (g.recipient, g.cls, g.scope) =
              ((requestOf body app).requester.grantRecipient, body.cls, body.scope) ∧
            Remembered τ g ∧ ∀ e, g.lifetime = .until e → now < e)) ∧
    ∀ g ∈ w.inner.grants,
      (∃ id o now dialog decision, (.take id o now, .taken dialog decision) ∈ τ ∧
        decision.grant = some g ∧ Reversibility.of dialog.request.kind = .reversible) ∨
      ∃ recipient path, (.gesture recipient path true, .gesture true) ∈ τ ∧
        g = conferFromGesture recipient path := by
  have ha := accounted_of_run h
  refine ⟨fun body app now w' hcheck hs => ?_, fun g hg => (ha.stored g hg).origin⟩
  simp only [broker, World.step] at hs
  rcases w.inner.intake_cases cap body app now w.chans with
    ⟨b, hc, _⟩ | ⟨_, he, hwhy⟩ | ⟨p, _, _, he⟩ | he
  · rw [hcheck] at hc; cases hc
  · rcases hwhy with hsilent | ⟨hstd, hext, hcov⟩
    · exact .inl (classify_eq_silent.1 hsilent)
    · obtain ⟨g, hg, h1, h2, h3, hlive⟩ := GrantStore.exists_of_covers hcov
      refine .inr ⟨hstd, hext, g, hg, ?_, ha.stored g hg, hlive⟩
      rw [h1, h2, h3]
      rfl
  · rw [he] at hs; cases hs
  · rw [he] at hs; cases hs

/-- A repeat of a remembered request is granted silently, by its grant. -/
theorem silent_rests_on_grant_repeat : ∃ τ w w',
    (broker suggestOnly).step w (.intake tidyUp "files" 9) = some (.intake .silentGranted, w') ∧
      ∃ g ∈ w.inner.grants, Remembered τ g ∧ g.recipient = "files" := by
  obtain ⟨τ, w, he, w', hs⟩ : ∃ τ w, (broker suggestOnly).exec Machine.anyStep {}
      [.intake tidyUp "files" 0, .take 0 .allowedRemembered 1, .audit 0 true, .remember 0,
        .send 0] = some (τ, w) ∧
      ∃ w', (broker suggestOnly).step w (.intake tidyUp "files" 9) =
        some (.intake .silentGranted, w') :=
    ⟨_, _, rfl, _, rfl⟩
  refine ⟨τ, w, w', hs, ?_⟩
  rcases (silent_rests_on_grant (Machine.run_of_exec he)).1 tidyUp "files" 9 w' rfl hs with
    hp | ⟨_, _, g, hg, hkey, hrem, _⟩
  · exact absurd hp (by decide)
  · exact ⟨g, hg, hrem, congrArg Prod.fst hkey⟩

end Arlen.Consent
