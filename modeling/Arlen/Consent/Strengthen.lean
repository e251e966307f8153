import Arlen.Consent.Grant
import Mathlib.Data.List.Nodup

/-!
# Consenting again

`GrantStore.record` replaces what stands under the new grant's handle. A store the
broker builds holds under each handle a grant the handle was made for, so what
recording takes away is at most one grant's coverage, and the new grant makes up for
it exactly when it is for the same recipient, class and scope and lasts as long.
-/

namespace Arlen.Consent

/-- A grant the broker records: minted from a decision or conferred by a gesture. -/
inductive Produced : ConsentGrant → Prop where
  | minted {p : PendingRequest} {o : ConsentOutcome} {now : Int} {g : ConsentGrant} :
      mintGrant p o now = some g → Produced g
  | conferred (recipient path : String) : Produced (conferFromGesture recipient path)

/-- The stores the broker comes to. -/
inductive GrantStore.Reachable : GrantStore → Prop where
  | empty : Reachable []
  | record {gs : GrantStore} {g : ConsentGrant} : Reachable gs → Produced g → Reachable (gs.record g)
  | revoke {gs gs' : GrantStore} {handle : String} {r : ConsentGrant} : Reachable gs →
      gs.revoke handle = some (r, gs') → Reachable gs'

namespace ConsentGrant

/-- The grant carries the handle of its own recipient, class and scope. -/
def OwnHandle (g : ConsentGrant) : Prop :=
  g.revocationHandle = Consent.revocationHandle g.recipient g.cls g.scope

/-- The grant is for the request and its window is open. -/
structure Covers (g : ConsentGrant) (r : ConsentRequest) (now : Int) : Prop where
  recipient : g.recipient = r.requester.grantRecipient
  cls : g.cls = r.cls
  scope : g.scope = r.scope
  stillOpen : ∀ e, g.lifetime = .until e → now < e

/-- The two grants are for the same recipient, class and scope. -/
structure SameKey (g h : ConsentGrant) : Prop where
  recipient : g.recipient = h.recipient
  cls : g.cls = h.cls
  scope : g.scope = h.scope

/-- The grant closes no earlier than the other. -/
def LastsAsLong (g h : ConsentGrant) : Prop :=
  ∀ e, g.lifetime = .until e → ∃ e', h.lifetime = .until e' ∧ e' ≤ e

end ConsentGrant

open ConsentGrant

variable {gs : GrantStore} {g old : ConsentGrant} {r : ConsentRequest} {now : Int}

theorem Produced.ownHandle (h : Produced g) : g.OwnHandle := by
  cases h with
  | minted h =>
    unfold mintGrant at h
    split at h
    · cases h
    · cases h
      rfl
  | conferred recipient path => rfl

namespace GrantStore

theorem covers_iff : gs.covers r now = true ↔ ∃ g ∈ gs, g.Covers r now := by
  constructor
  · intro h
    obtain ⟨g, hg, h1, h2, h3, h4⟩ := exists_of_covers h
    exact ⟨g, hg, h1, h2, h3, h4⟩
  · rintro ⟨g, hg, h1, h2, h3, h4⟩
    refine List.any_eq_true.2 ⟨g, hg, ?_⟩
    cases hl : g.lifetime with
    | «until» e => simp [h1, h2, h3, GrantLifetime.expiresAtMicros, h4 e hl]
    | persistent | session => simp [h1, h2, h3, GrantLifetime.expiresAtMicros]

theorem mem_record_self (gs : GrantStore) (g : ConsentGrant) : g ∈ gs.record g := by
  induction gs with
  | nil => simp [record]
  | cons x gs ih =>
    unfold record
    split
    · exact List.mem_cons_self
    · exact List.mem_cons_of_mem _ ih

/-- What stands under another handle stays. -/
theorem mem_record_of_ne (h : old ∈ gs) (hne : old.revocationHandle ≠ g.revocationHandle) :
    old ∈ gs.record g := by
  induction gs with
  | nil => cases h
  | cons x gs ih =>
    unfold record
    split
    · next hx =>
      rcases List.mem_cons.1 h with rfl | h
      · exact absurd hx hne
      · exact List.mem_cons_of_mem _ h
    · rcases List.mem_cons.1 h with rfl | h
      · exact List.mem_cons_self
      · exact List.mem_cons_of_mem _ (ih h)

/-- Behind recording, only the new grant stands under its handle. -/
theorem eq_of_mem_record (hn : (handles gs).Nodup) (h : old ∈ gs.record g)
    (heq : old.revocationHandle = g.revocationHandle) : old = g := by
  have hnd := nodup_record hn g
  exact List.inj_on_of_nodup_map hnd h (mem_record_self gs g) heq

/-- What holds of every store the broker comes to. -/
structure Sound (gs : GrantStore) : Prop where
  nodup : (handles gs).Nodup
  ownHandle : ∀ g ∈ gs, g.OwnHandle

theorem Reachable.sound (h : Reachable gs) : Sound gs := by
  induction h with
  | empty => exact ⟨List.nodup_nil, nofun⟩
  | record _ hp ih =>
    refine ⟨nodup_record ih.nodup _, fun x hx => ?_⟩
    rcases mem_record hx with rfl | hx
    · exact hp.ownHandle
    · exact ih.ownHandle x hx
  | revoke _ hr ih =>
    obtain ⟨hmem, hnd⟩ := revoke_eq_some ih.nodup hr
    exact ⟨hnd, fun x hx => ih.ownHandle x (hmem x hx).1⟩

end GrantStore

/-! ## What one grant covers -/

theorem ConsentGrant.SameKey.covers (hkey : old.SameKey g) (hlast : g.LastsAsLong old) (h : old.Covers r now) :
    g.Covers r now := by
  obtain ⟨h1, h2, h3⟩ := hkey
  obtain ⟨hr, hc, hs, hopen⟩ := h
  refine ⟨h1.symm.trans hr, h2.symm.trans hc, h3.symm.trans hs, fun e he => ?_⟩
  obtain ⟨e', he', hle⟩ := hlast e he
  have := hopen e' he'
  omega

/-- A request for exactly the grant's recipient, class and scope. -/
def ConsentGrant.request (g : ConsentGrant) : ConsentRequest where
  requester := { appId := g.recipient }
  cls := g.cls
  kind := .ordinary
  triggeredByExternalContent := false
  summary := g.summary
  scope := g.scope
  recipient := none
  preview := none
  targets := []
  total := none

/-- A moment at which the grant's window is open. -/
def ConsentGrant.openAt (g : ConsentGrant) : Int :=
  match g.lifetime with
  | .until e => e - 1
  | _ => 0

theorem covers_request (h : ∀ e, g.lifetime = .until e → now < e) : g.Covers g.request now :=
  ⟨rfl, rfl, rfl, h⟩

theorem covers_request_openAt (g : ConsentGrant) : g.Covers g.request g.openAt := by
  refine covers_request fun e he => ?_
  unfold ConsentGrant.openAt
  rw [he]
  show e - 1 < e
  omega

/-- A grant for another key covers none of its requests. -/
theorem ConsentGrant.Covers.sameKey (h : g.Covers old.request now) : old.SameKey g :=
  ⟨h.recipient.symm, h.cls.symm, h.scope.symm⟩

/-- **Recording strengthens the store** exactly when the grant it replaces, if any, is for
the same recipient, class and scope and closes no later than the new one. -/
theorem record_strengthens_iff (hgs : GrantStore.Reachable gs) (hg : Produced g) :
    (∀ r now, gs.covers r now = true → (gs.record g).covers r now = true) ↔
      ∀ old ∈ gs, old.revocationHandle = g.revocationHandle → old.SameKey g ∧ g.LastsAsLong old := by
  have hsound := hgs.sound
  constructor
  · intro h old hold hhandle
    -- a request for the replaced grant alone is covered afterwards by the new one alone
    have honly : ∀ now, old.Covers old.request now → g.Covers old.request now := by
      intro now hc
      obtain ⟨x, hx, hxc⟩ := GrantStore.covers_iff.1
        (h old.request now (GrantStore.covers_iff.2 ⟨old, hold, hc⟩))
      obtain ⟨k1, k2, k3⟩ := hxc.sameKey
      have hxh : x.revocationHandle = g.revocationHandle := by
        have hxOwn : x.OwnHandle := by
          rcases GrantStore.mem_record hx with rfl | hx
          · exact hg.ownHandle
          · exact hsound.ownHandle x hx
        rw [hxOwn, ← hhandle, hsound.ownHandle old hold, k1, k2, k3]
      exact GrantStore.eq_of_mem_record hsound.nodup hx hxh ▸ hxc
    refine ⟨(honly _ (covers_request_openAt old)).sameKey, fun e he => ?_⟩
    -- at the moment the new grant closes, the replaced one must be closed too
    by_contra hno
    have hopen : old.Covers old.request e := by
      refine covers_request fun e' he' => ?_
      by_contra hle
      exact hno ⟨e', he', Int.not_lt.1 hle⟩
    exact absurd ((honly e hopen).stillOpen e he) (by omega)
  · intro h r now hc
    obtain ⟨old, hold, hcov⟩ := GrantStore.covers_iff.1 hc
    refine GrantStore.covers_iff.2 ?_
    by_cases hhandle : old.revocationHandle = g.revocationHandle
    · obtain ⟨hkey, hlast⟩ := h old hold hhandle
      exact ⟨g, GrantStore.mem_record_self gs g, hkey.covers hlast hcov⟩
    · exact ⟨old, GrantStore.mem_record_of_ne hold hhandle, hcov⟩

/-! ## A window in place of a remembered grant -/

/-- A request of `app` for the path, in the queue. -/
def askedFor (path : String) : PendingRequest where
  id := 0
  request := (conferFromGesture "app" path).request
  tier := .standard
  seq := 0

/-- A gesture for a path the app was allowed for good takes nothing away. -/
theorem gesture_over_remembered :
    ∃ first, mintGrant (askedFor "/p/f.txt") .allowedRemembered 0 = some first ∧
      ∀ r now, GrantStore.covers (GrantStore.record [] first) r now = true →
        GrantStore.covers ((GrantStore.record [] first).record (conferFromGesture "app" "/p/f.txt"))
          r now = true := by
  have hfirst : mintGrant (askedFor "/p/f.txt") .allowedRemembered 0 = some _ := rfl
  refine ⟨_, hfirst,
    (record_strengthens_iff (.record .empty (.minted hfirst)) (.conferred _ _)).2 ?_⟩
  intro old hold _
  obtain rfl := List.mem_singleton.1 hold
  exact ⟨⟨rfl, rfl, rfl⟩, fun e he => by cases he⟩

/-- **Consenting again for a window takes a remembered grant away**: behind the window the
request is covered no more. -/
theorem window_over_remembered :
    ∃ first second, mintGrant (askedFor "/p/f.txt") .allowedRemembered 0 = some first ∧
      mintGrant (askedFor "/p/f.txt") .allowedForWindow 0 = some second ∧
      GrantStore.Reachable (GrantStore.record [] first) ∧
      GrantStore.covers (GrantStore.record [] first) (askedFor "/p/f.txt").request
        gestureWindowMicros = true ∧
      GrantStore.covers ((GrantStore.record [] first).record second) (askedFor "/p/f.txt").request
        gestureWindowMicros = false := by
  have hfirst : mintGrant (askedFor "/p/f.txt") .allowedRemembered 0 = some _ := rfl
  refine ⟨_, _, hfirst, rfl, .record .empty (.minted hfirst), ?_, ?_⟩
  · decide +kernel
  · decide +kernel

end Arlen.Consent
