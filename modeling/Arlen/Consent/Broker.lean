import Arlen.Lib.Machine
import Arlen.Consent.Grant

/-!
# The running broker (`consent-broker/src/daemon.rs`)

`SharedState` as a machine whose steps are its lock sections and the audit
awaits between them. `intake` and `revoke` are one lock section each. A
`resolve` call is taken apart: `take` removes the dialog and its waiters under
the lock, `audit` is the submission coming back, `remember` records the grant
under the lock, `send` fires the one-shots. A gesture is audited first
(`gesture`) and recorded after (`confer`). Any number of calls may be between
two of their steps.

A one-shot channel is a number from the supply `chans`. A `Waiter` is its
sender, carrying also the request that parked it; a `Delivery` is what a sender
was fired with. These annotations are read by no step.
-/

namespace Arlen.Consent

open Arlen.Lib

structure Waiter where
  chan : Nat
  request : ConsentRequest
  deriving DecidableEq, Repr

/-- The waiters map: the senders parked under each pending id. -/
abbrev Waiters := List (RequestId × List Waiter)

namespace Waiters

/-- `entry(id).or_default().push(tx)`. -/
def park : Waiters → RequestId → Waiter → Waiters
  | [], id, x => [(id, [x])]
  | (k, xs) :: ws, id, x =>
    if k = id then (k, xs ++ [x]) :: ws else (k, xs) :: park ws id x

/-- `HashMap::remove`. -/
def remove : Waiters → RequestId → Option (List Waiter) × Waiters
  | [], _ => (none, [])
  | (k, xs) :: ws, id =>
    if k = id then (some xs, ws) else ((remove ws id).1, (k, xs) :: (remove ws id).2)

def keys (ws : Waiters) : List RequestId := ws.map Prod.fst

/-- Every parked sender, with the id it is parked under. -/
def all (ws : Waiters) : List (RequestId × Waiter) := ws.flatMap fun e => e.2.map (e.1, ·)

end Waiters

/-- What the mutex guards. -/
structure Inner where
  queue : ConsentQueue := {}
  waiters : Waiters := []
  grants : GrantStore := []
  deriving DecidableEq, Repr

inductive IntakeOutcome where
  | silentGranted
  | pending (id : RequestId) (joined : Bool) (decision : Nat)
  | coverage (covered : Bool)
  deriving DecidableEq, Repr

/-- The request an intake is about: the body under its attested requester. -/
def requestOf (body : RequestBody) (attestedAppId : String) : ConsentRequest :=
  assemble body (resolveRequester attestedAppId body.onBehalfOf)

/-- `SharedState::intake`; `chan` is the channel made if the request parks. -/
def Inner.intake (inner : Inner) (capability : Capability) (body : RequestBody)
    (attestedAppId : String) (nowMicros : Int) (chan : Nat) : IntakeOutcome × Inner :=
  let request := requestOf body attestedAppId
  if body.checkOnly then
    (.coverage (inner.grants.covers request nowMicros), inner)
  else if classify request capability = .standard ∧ !request.triggeredByExternalContent ∧
      inner.grants.covers request nowMicros then
    (.silentGranted, inner)
  else
    match inner.queue.enqueue request capability with
    | (.silentGrant, queue) => (.silentGranted, { inner with queue })
    | (.queued id, queue) =>
      (.pending id false chan,
        { inner with queue, waiters := inner.waiters.park id { chan, request } })
    | (.alreadyPending id, queue) =>
      (.pending id true chan,
        { inner with queue, waiters := inner.waiters.park id { chan, request } })

/-- A `resolve` call past its first lock section. `audited` is what the audit
submission came back with, `recorded` whether the grant has been recorded. -/
structure Resolving where
  dialog : PendingRequest
  decision : ResolvedDecision
  waiting : List Waiter
  audited : Option Bool := none
  recorded : Bool := false
  deriving DecidableEq, Repr

namespace Resolving

/-- What the waiters are told: the decision if it was audited, else a denial. -/
def reply (r : Resolving) : ConsentOutcome :=
  if r.audited = some true then r.decision.reply else .denied

/-- The grant to record: the decision's, if it was audited. -/
def grant (r : Resolving) : Option ConsentGrant :=
  if r.audited = some true then r.decision.grant else none

/-- The call has nothing left to do but fire the one-shots. -/
def ready (r : Resolving) : Bool := r.audited.isSome && (r.recorded || r.grant.isNone)

end Resolving

/-- One outcome sent on one channel, and the dialog it answers. -/
structure Delivery where
  waiter : Waiter
  outcome : ConsentOutcome
  dialog : PendingRequest
  deriving DecidableEq, Repr

structure World where
  inner : Inner := {}
  chans : Nat := 0
  resolving : List Resolving := []
  /-- Audited gestures whose grant is not recorded yet. -/
  conferring : List ConsentGrant := []
  delivered : List Delivery := []
  deriving DecidableEq, Repr

inductive Action where
  | intake (body : RequestBody) (attestedAppId : String) (nowMicros : Int)
  | take (id : RequestId) (outcome : ConsentOutcome) (nowMicros : Int)
  | audit (id : RequestId) (ok : Bool)
  | remember (id : RequestId)
  | send (id : RequestId)
  | revoke (handle : String)
  | gesture (recipient path : String) (ok : Bool)
  | confer (grant : ConsentGrant)
  deriving DecidableEq, Repr

/-- The replies to the actions; `unknown` and `resolved` are `ResolveResult`. -/
inductive Reply where
  | intake (outcome : IntakeOutcome)
  | unknown
  | taken (dialog : PendingRequest) (decision : ResolvedDecision)
  | audited
  | remembered (grant : ConsentGrant)
  | resolved (audited : Bool) (reply : ConsentOutcome) (grant : Option ConsentGrant)
  | revoked (ok : Bool)
  | gesture (ok : Bool)
  | conferred
  deriving DecidableEq, Repr

namespace World

def inFlight (w : World) (id : RequestId) : Option Resolving :=
  w.resolving.find? fun r => r.dialog.id == id

/-- Change the in-flight call of `id` in place. -/
def update (w : World) (id : RequestId) (f : Resolving → Resolving) : World :=
  { w with resolving := w.resolving.map fun r => if r.dialog.id = id then f r else r }

def step (capability : Capability) (w : World) : Action → Option (Reply × World)
  | .intake body app now =>
    some (.intake (w.inner.intake capability body app now w.chans).1,
      { w with
        inner := (w.inner.intake capability body app now w.chans).2
        chans := w.chans + 1 })
  | .take id outcome now =>
    match resolveDecision w.inner.queue id outcome now with
    | none => some (.unknown, w)
    | some (dialog, decision, queue) =>
      some (.taken dialog decision,
        { w with
          inner := { w.inner with queue, waiters := (w.inner.waiters.remove id).2 }
          resolving := w.resolving ++
            [{ dialog, decision, waiting := (w.inner.waiters.remove id).1.getD [] }] })
  | .audit id ok =>
    match w.inFlight id with
    | none => none
    | some r =>
      if r.audited.isSome then none
      else some (.audited, w.update id fun r => { r with audited := some ok })
  | .remember id =>
    match w.inFlight id with
    | none => none
    | some r =>
      match r.grant with
      | none => none
      | some g =>
        if r.recorded then none
        else
          let w' := w.update id fun r => { r with recorded := true }
          some (.remembered g, { w' with inner := { w'.inner with grants := w'.inner.grants.record g } })
  | .send id =>
    match w.inFlight id with
    | none => none
    | some r =>
      if r.ready then
        some (.resolved (r.audited == some true) r.reply r.grant,
          { w with
            resolving := w.resolving.eraseP fun r => r.dialog.id == id
            delivered := w.delivered ++
              r.waiting.map fun x => { waiter := x, outcome := r.reply, dialog := r.dialog } })
      else none
  | .revoke handle =>
    match w.inner.grants.revoke handle with
    | none => some (.revoked false, w)
    | some (_, grants) => some (.revoked true, { w with inner := { w.inner with grants } })
  | .gesture recipient path ok =>
    if ok then
      some (.gesture true, { w with conferring := w.conferring ++ [conferFromGesture recipient path] })
    else some (.gesture false, w)
  | .confer g =>
    if g ∈ w.conferring then
      some (.conferred,
        { w with
          inner := { w.inner with grants := w.inner.grants.record g }
          conferring := w.conferring.erase g })
    else none

end World

/-- The broker over a system capability, fresh from `SharedState::new`. -/
def broker (capability : Capability) : Machine World Action Reply where
  init := {}
  step := World.step capability

/-! ## The waiters map -/

namespace Waiters

theorem keys_park (ws : Waiters) (id : RequestId) (x : Waiter) :
    keys (park ws id x) = if id ∈ keys ws then keys ws else keys ws ++ [id] := by
  induction ws with
  | nil => simp [park, keys]
  | cons e ws ih =>
    obtain ⟨k, xs⟩ := e
    unfold park
    by_cases hk : k = id
    · simp [hk, keys]
    · simp only [hk, ↓reduceIte]
      simp only [keys, List.map_cons, List.mem_cons, Ne.symm hk, false_or] at ih ⊢
      rw [ih]
      by_cases hm : id ∈ ws.map Prod.fst <;> simp [hm]

theorem all_park (ws : Waiters) (id : RequestId) (x : Waiter) :
    (all (park ws id x)).Perm ((id, x) :: all ws) := by
  induction ws with
  | nil => simp [park, all]
  | cons e ws ih =>
    obtain ⟨k, xs⟩ := e
    unfold park
    by_cases hk : k = id
    · subst hk
      simp only [↓reduceIte, all, List.flatMap_cons, List.map_append, List.map_cons,
        List.map_nil, List.append_assoc, List.cons_append, List.nil_append]
      exact List.perm_middle
    · simp only [hk, ↓reduceIte, all, List.flatMap_cons] at ih ⊢
      exact (ih.append_left _).trans List.perm_middle

theorem keys_remove (ws : Waiters) (id : RequestId) :
    keys (remove ws id).2 = (keys ws).erase id := by
  induction ws with
  | nil => rfl
  | cons e ws ih =>
    obtain ⟨k, xs⟩ := e
    unfold remove
    by_cases hk : k = id
    · simp [hk, keys]
    · simp only [hk, ↓reduceIte]
      simp only [keys, List.map_cons] at ih ⊢
      rw [ih, List.erase_cons_tail (by simpa using hk)]

/-- Removing an id takes out exactly the senders parked under it. -/
theorem all_remove (ws : Waiters) (id : RequestId) :
    (all ws).Perm (((remove ws id).1.getD []).map (id, ·) ++ all (remove ws id).2) := by
  induction ws with
  | nil => simp [remove, all]
  | cons e ws ih =>
    obtain ⟨k, xs⟩ := e
    unfold remove
    by_cases hk : k = id
    · subst hk
      simp [all]
    · simp only [hk, ↓reduceIte, all, List.flatMap_cons] at ih ⊢
      exact (ih.append_left _).trans (List.perm_append_comm_assoc _ _ _)

end Waiters

/-! ## What a step can do -/

/-- An intake answers a check, grants silently, joins the pending same
question, or opens a dialog under a fresh id. -/
theorem Inner.intake_cases (inner : Inner) (cap : Capability) (body : RequestBody) (app : String)
    (now : Int) (chan : Nat) :
    (∃ b, body.checkOnly = true ∧ inner.intake cap body app now chan = (.coverage b, inner)) ∨
    (body.checkOnly = false ∧ inner.intake cap body app now chan = (.silentGranted, inner) ∧
      (classify (requestOf body app) cap = .silent ∨
        classify (requestOf body app) cap = .standard ∧
        (requestOf body app).triggeredByExternalContent = false ∧
        inner.grants.covers (requestOf body app) now = true)) ∨
    (∃ p ∈ inner.queue.pending,
      inner.queue.pending.find? (fun p => sameQuestion p.request (requestOf body app)) = some p ∧
      inner.intake cap body app now chan =
        (.pending p.id true chan,
          { inner with waiters := inner.waiters.park p.id { chan, request := requestOf body app } })) ∨
    (inner.intake cap body app now chan =
        (.pending inner.queue.nextId false chan,
          { inner with
            queue := inner.queue.push (requestOf body app) (classify (requestOf body app) cap)
            waiters := inner.waiters.park inner.queue.nextId
              { chan, request := requestOf body app } })) := by
  unfold Inner.intake
  by_cases hc : body.checkOnly = true
  · exact .inl ⟨_, hc, by simp only [hc, ↓reduceIte]; rfl⟩
  · simp only [hc, ↓reduceIte, Bool.false_eq_true]
    right
    split
    · next hg =>
      obtain ⟨h1, h2, h3⟩ := hg
      exact .inl ⟨trivial, rfl, .inr ⟨h1, by simpa using h2, h3⟩⟩
    · rcases inner.queue.enqueue_cases (requestOf body app) cap with
        ⟨hs, he⟩ | ⟨p, hp, hf, _, he⟩ | ⟨_, he⟩
      · exact .inl ⟨trivial, by rw [he], .inl hs⟩
      · exact .inr (.inl ⟨p, hp, hf, by rw [he]⟩)
      · exact .inr (.inr (by rw [he]))

/-- The first match, taken out of its list. -/
theorem perm_find_eraseP {α : Type} {p : α → Bool} {l : List α} {a : α}
    (h : l.find? p = some a) : l.Perm (a :: l.eraseP p) := by
  obtain ⟨ha, l1, l2, rfl, h1⟩ := List.find?_eq_some_iff_append.1 h
  rw [List.eraseP_append_right _ (by simpa using h1), List.eraseP_cons_of_pos ha]
  exact List.perm_middle

namespace World

variable {cap : Capability} {w w' : World} {id : RequestId} {r : Resolving}

theorem inFlight_mem (h : w.inFlight id = some r) : r ∈ w.resolving ∧ r.dialog.id = id :=
  ⟨List.mem_of_find?_eq_some h, by simpa using List.find?_some h⟩

/-- A `take` of an unknown id changes nothing; otherwise the dialog and its
waiters move into a resolving call. -/
theorem take_cases {o : ConsentOutcome} {now : Int} {rep : Reply}
    (h : step cap w (.take id o now) = some (rep, w')) :
    (rep = .unknown ∧ w' = w) ∨
    ∃ dialog decision queue, rep = .taken dialog decision ∧
      resolveDecision w.inner.queue id o now = some (dialog, decision, queue) ∧
      w' = { w with
        inner := { w.inner with queue, waiters := (w.inner.waiters.remove id).2 }
        resolving := w.resolving ++
          [{ dialog, decision, waiting := (w.inner.waiters.remove id).1.getD [] }] } := by
  simp only [step] at h
  split at h
  · cases h; exact .inl ⟨rfl, rfl⟩
  · next dialog decision queue hd =>
    cases h
    exact .inr ⟨dialog, decision, queue, rfl, hd, rfl⟩

theorem audit_cases {ok : Bool} {rep : Reply} (h : step cap w (.audit id ok) = some (rep, w')) :
    rep = .audited ∧ w' = w.update id fun r => { r with audited := some ok } := by
  simp only [step] at h
  split at h
  · cases h
  · split at h
    · cases h
    · cases h; exact ⟨rfl, rfl⟩

theorem remember_cases {rep : Reply} (h : step cap w (.remember id) = some (rep, w')) :
    ∃ r g, w.inFlight id = some r ∧ r.grant = some g ∧ rep = .remembered g ∧
      w' = { w.update id fun r => { r with recorded := true } with
        inner := { w.inner with grants := w.inner.grants.record g } } := by
  simp only [step] at h
  split at h
  · cases h
  · next r hr =>
    split at h
    · cases h
    · next g hg =>
      split at h
      · cases h
      · cases h; exact ⟨r, g, hr, hg, rfl, rfl⟩

theorem send_cases {rep : Reply} (h : step cap w (.send id) = some (rep, w')) :
    ∃ r, w.inFlight id = some r ∧ r.ready = true ∧
      rep = .resolved (r.audited == some true) r.reply r.grant ∧
      w' = { w with
        resolving := w.resolving.eraseP fun r => r.dialog.id == id
        delivered := w.delivered ++
          r.waiting.map fun x => { waiter := x, outcome := r.reply, dialog := r.dialog } } := by
  simp only [step] at h
  split at h
  · cases h
  · next r hr =>
    split at h
    · next hready => cases h; exact ⟨r, hr, hready, rfl, rfl⟩
    · cases h

theorem revoke_cases {handle : String} {rep : Reply}
    (h : step cap w (.revoke handle) = some (rep, w')) :
    (rep = .revoked false ∧ w.inner.grants.revoke handle = none ∧ w' = w) ∨
    ∃ g grants, rep = .revoked true ∧ w.inner.grants.revoke handle = some (g, grants) ∧
      w' = { w with inner := { w.inner with grants } } := by
  simp only [step] at h
  split at h
  · next hn => cases h; exact .inl ⟨rfl, hn, rfl⟩
  · next g grants hg => cases h; exact .inr ⟨g, grants, rfl, hg, rfl⟩

theorem gesture_cases {recipient path : String} {ok : Bool} {rep : Reply}
    (h : step cap w (.gesture recipient path ok) = some (rep, w')) :
    rep = .gesture ok ∧ w' = if ok then
      { w with conferring := w.conferring ++ [conferFromGesture recipient path] } else w := by
  simp only [step] at h
  split at h
  · next hok => cases h; simp [hok]
  · next hok => cases h; simp [hok]

theorem confer_cases {g : ConsentGrant} {rep : Reply}
    (h : step cap w (.confer g) = some (rep, w')) :
    g ∈ w.conferring ∧ rep = .conferred ∧
      w' = { w with
        inner := { w.inner with grants := w.inner.grants.record g }
        conferring := w.conferring.erase g } := by
  simp only [step] at h
  split at h
  · next hg => cases h; exact ⟨hg, rfl, rfl⟩
  · cases h

/-- A change in place that keeps what `f` reads keeps `f` of every call. -/
theorem map_update {β : Type} (f : Resolving → β) {g : Resolving → Resolving}
    (hg : ∀ r, f (g r) = f r) : (w.update id g).resolving.map f = w.resolving.map f := by
  simp only [update, List.map_map]
  refine List.map_congr_left fun r _ => ?_
  simp only [Function.comp_apply]
  split
  · exact hg r
  · rfl

end World

end Arlen.Consent
