import Arlen.Consent.Broker

/-!
# Every parked requester is answered once

The bookkeeping invariant of the broker (`World.Booked`). Each id ever queued is
pending, being resolved, or finished, one of these at a time. Each sender ever
parked sits in the waiters map, in a resolving call, or among the deliveries, in
exactly one place.
-/

namespace Arlen.Consent

open Arlen.Lib

/-- The ids pending in the queue, in queue order. -/
def ConsentQueue.ids (q : ConsentQueue) : List RequestId := q.pending.map PendingRequest.id

theorem ConsentQueue.ids_push (q : ConsentQueue) (r : ConsentRequest) (t : SeverityTier) :
    (q.push r t).ids = q.ids ++ [q.nextId] := by
  simp [ids, push]

theorem ConsentQueue.ids_resolve {q q' : ConsentQueue} {id : RequestId} {o o' : ConsentOutcome}
    {p : PendingRequest} (h : q.resolve id o = some (p, o', q')) : q'.ids = q.ids.erase id := by
  obtain ⟨_, _, _, hq, _⟩ := ConsentQueue.resolve_eq_some h
  rw [ConsentQueue.ids, hq, ConsentQueue.ids]
  induction q.pending with
  | nil => rfl
  | cons p ps ih =>
    by_cases hp : p.id = id
    · simp [hp]
    · rw [List.eraseP_cons_of_neg (by simpa using hp), List.map_cons, List.map_cons,
        List.erase_cons_tail (by simpa using hp), ih]

namespace World

variable {cap : Capability} {w w' : World} {a : Action} {rep : Reply}

/-! ## The waiters map and the queue agree -/

/-- **The waiters map and the queue hold the same ids**, each once, all issued. -/
structure WF (w : World) : Prop where
  keys : w.inner.waiters.keys = w.inner.queue.ids
  nodup : w.inner.queue.ids.Nodup
  lt : ∀ id ∈ w.inner.queue.ids, id < w.inner.queue.nextId

/-- Only `intake` and `take` touch the queue or the waiters map. -/
theorem step_frame (h : step cap w a = some (rep, w'))
    (hi : ∀ body app now, a ≠ .intake body app now) (ht : ∀ id o now, a ≠ .take id o now) :
    w'.inner.queue = w.inner.queue ∧ w'.inner.waiters = w.inner.waiters := by
  cases a with
  | intake body app now => exact absurd rfl (hi body app now)
  | take id o now => exact absurd rfl (ht id o now)
  | audit id ok => obtain ⟨_, rfl⟩ := audit_cases h; exact ⟨rfl, rfl⟩
  | remember id => obtain ⟨r, g, _, _, _, rfl⟩ := remember_cases h; exact ⟨rfl, rfl⟩
  | send id => obtain ⟨r, _, _, _, rfl⟩ := send_cases h; exact ⟨rfl, rfl⟩
  | revoke handle =>
    obtain ⟨_, _, rfl⟩ | ⟨g, gs, _, _, rfl⟩ := revoke_cases h
    · exact ⟨rfl, rfl⟩
    · exact ⟨rfl, rfl⟩
  | gesture recipient path ok =>
    obtain ⟨_, rfl⟩ := gesture_cases h
    split <;> exact ⟨rfl, rfl⟩
  | confer g => obtain ⟨_, _, rfl⟩ := confer_cases h; exact ⟨rfl, rfl⟩

theorem WF.intake (hw : WF w) (body : RequestBody) (app : String) (now : Int) (n : Nat) :
    WF { w with inner := (w.inner.intake cap body app now w.chans).2, chans := n } := by
  obtain ⟨hk, hn, hl⟩ := hw
  rcases w.inner.intake_cases cap body app now w.chans with
    ⟨b, _, he⟩ | ⟨_, he, _⟩ | ⟨p, hp, _, he⟩ | he
  · rw [he]; exact ⟨hk, hn, hl⟩
  · rw [he]; exact ⟨hk, hn, hl⟩
  · rw [he]
    have hmem : p.id ∈ w.inner.queue.ids := List.mem_map_of_mem hp
    exact ⟨by simp only [Waiters.keys_park, hk, hmem, ↓reduceIte], hn, hl⟩
  · rw [he]
    have hfresh : w.inner.queue.nextId ∉ w.inner.queue.ids := fun h => Nat.lt_irrefl _ (hl _ h)
    refine ⟨?_, ?_, ?_⟩
    · simp only [Waiters.keys_park, hk, hfresh, ↓reduceIte, ConsentQueue.ids_push]
    · simp only [ConsentQueue.ids_push]
      simpa [List.nodup_append] using ⟨hn, fun a ha e => hfresh (e ▸ ha)⟩
    · intro id hid
      simp only [ConsentQueue.ids_push, List.mem_append, List.mem_singleton] at hid
      rcases hid with h | rfl
      · exact Nat.lt_succ_of_lt (hl id h)
      · exact Nat.lt_succ_self _

theorem WF.step (hw : WF w) (h : step cap w a = some (rep, w')) : WF w' := by
  cases a with
  | intake body app now => cases h; exact hw.intake body app now _
  | take id o now =>
    obtain ⟨_, rfl⟩ | ⟨dialog, decision, queue, _, hd, rfl⟩ := take_cases h
    · exact hw
    · obtain ⟨hr, _, _⟩ := resolveDecision_eq_some hd
      have hids := ConsentQueue.ids_resolve hr
      obtain ⟨_, _, _, _, hnext⟩ := ConsentQueue.resolve_eq_some hr
      refine ⟨?_, ?_, ?_⟩
      · simp only [Waiters.keys_remove, hw.keys, hids]
      · exact hids ▸ hw.nodup.erase id
      · intro i hi
        simp only [hids, hnext] at hi ⊢
        exact hw.lt i (List.mem_of_mem_erase hi)
  | _ =>
    obtain ⟨hq, hws⟩ := step_frame h (by simp) (by simp)
    exact ⟨by rw [hq, hws, hw.keys], hq ▸ hw.nodup, hq ▸ hw.lt⟩

end World

theorem wf_of_run {cap : Capability} {ok : World → Action → Prop} {τ : List (Action × Reply)}
    {w : World} (h : (broker cap).Run ok τ w) : w.WF :=
  h.inv (I := fun _ w => w.WF) ⟨rfl, by simp [broker, ConsentQueue.ids],
    by simp [broker, ConsentQueue.ids]⟩ fun hw _ hs => hw.step hs

/-! ## What a trace says -/

abbrev Trace := List (Action × Reply)

/-- The ids dialogs were opened under, in order. -/
def queuedIds (τ : Trace) : List RequestId := τ.filterMap fun
  | (_, .intake (.pending id false _)) => some id
  | _ => none

/-- The ids taken out of the queue by a decision. -/
def takenIds (τ : Trace) : List RequestId := τ.filterMap fun
  | (_, .taken dialog _) => some dialog.id
  | _ => none

/-- The ids whose resolve call has run to its end. -/
def finishedIds (τ : Trace) : List RequestId := τ.filterMap fun
  | (.send id, _) => some id
  | _ => none

/-- The requesters told `Pending { id }`, each with its channel and request. -/
def issued (τ : Trace) : List (RequestId × Waiter) := τ.filterMap fun
  | (.intake body app _, .intake (.pending id _ chan)) =>
    some (id, { chan, request := requestOf body app })
  | _ => none

section Snoc

variable (τ τ' : Trace)

@[simp] theorem queuedIds_append : queuedIds (τ ++ τ') = queuedIds τ ++ queuedIds τ' := by
  simp [queuedIds]

@[simp] theorem takenIds_append : takenIds (τ ++ τ') = takenIds τ ++ takenIds τ' := by
  simp [takenIds]

@[simp] theorem finishedIds_append : finishedIds (τ ++ τ') = finishedIds τ ++ finishedIds τ' := by
  simp [finishedIds]

@[simp] theorem issued_append : issued (τ ++ τ') = issued τ ++ issued τ' := by
  simp [issued]

end Snoc

/-- The decision that was made on a dialog: the user's choice, as `resolve_decision` gates it. -/
def DecidedOn (τ : Trace) (dialog : PendingRequest) (decision : ResolvedDecision) : Prop :=
  ∃ outcome now, (.take dialog.id outcome now, .taken dialog decision) ∈ τ ∧
    decision.reply = gateRemember dialog.request.kind outcome

/-- What a requester is to be told of a decision: a denial if its audit failed. -/
def answer (audited : Bool) (decision : ResolvedDecision) : ConsentOutcome :=
  if audited then decision.reply else .denied

theorem DecidedOn.append {τ : Trace} {dialog : PendingRequest} {decision : ResolvedDecision}
    (h : DecidedOn τ dialog decision) (τ' : Trace) : DecidedOn (τ ++ τ') dialog decision := by
  obtain ⟨o, now, hm, hreply⟩ := h
  exact ⟨o, now, List.mem_append_left _ hm, hreply⟩

namespace World

variable {cap : Capability} {w w' : World} {a : Action} {rep : Reply} {τ : Trace}

def resolvingIds (w : World) : List RequestId := w.resolving.map fun r => r.dialog.id

/-- Where every sender is: in the waiters map, in a resolving call, or fired. -/
def placed (w : World) : List (RequestId × Waiter) :=
  w.inner.waiters.all ++ w.resolving.flatMap (fun r => r.waiting.map (r.dialog.id, ·)) ++
    w.delivered.map fun d => (d.dialog.id, d.waiter)

/-- What was sent on a channel. -/
def sentTo (w : World) (chan : Nat) : List Delivery :=
  w.delivered.filter fun d => d.waiter.chan == chan

/-- The outcome that was sent is the answer to the decision made on the dialog and to what its
audit came back with, and the one the resolve call returned. -/
def Answered (τ : Trace) (d : Delivery) : Prop :=
  ∃ decision audited grant, DecidedOn τ d.dialog decision ∧
    (.audit d.dialog.id audited, .audited) ∈ τ ∧ d.outcome = answer audited decision ∧
      (.send d.dialog.id, .resolved audited d.outcome grant) ∈ τ

/-- The bookkeeping of a run. -/
structure Booked (τ : Trace) (w : World) : Prop where
  wf : w.WF
  queued : queuedIds τ = List.range w.inner.queue.nextId
  ids : (w.inner.queue.ids ++ takenIds τ).Perm (List.range w.inner.queue.nextId)
  taken : (takenIds τ).Perm (w.resolvingIds ++ finishedIds τ)
  placed : w.placed.Perm (issued τ)
  chans : ((issued τ).map fun e => e.2.chan).Nodup
  chans_lt : ∀ e ∈ issued τ, e.2.chan < w.chans
  decided : ∀ r ∈ w.resolving, DecidedOn τ r.dialog r.decision
  heard : ∀ r ∈ w.resolving, ∀ b, r.audited = some b → (.audit r.dialog.id b, .audited) ∈ τ
  sent : ∀ d ∈ w.delivered, Answered τ d

theorem Answered.append {d : Delivery} (h : Answered τ d) (τ' : Trace) :
    Answered (τ ++ τ') d := by
  obtain ⟨decision, audited, grant, hdecided, haudit, hanswer, hsend⟩ := h
  exact ⟨decision, audited, grant, hdecided.append τ', List.mem_append_left _ haudit, hanswer,
    List.mem_append_left _ hsend⟩

theorem Booked.init (cap : Capability) : Booked [] (broker cap).init where
  wf := ⟨rfl, by simp [broker, ConsentQueue.ids], by simp [broker, ConsentQueue.ids]⟩
  queued := rfl
  ids := .refl _
  taken := .refl _
  placed := .refl _
  chans := .nil
  chans_lt := by simp [issued]
  decided := by simp [broker]
  heard := by simp [broker]
  sent := by simp [broker]

/-- A step that moves no id and no sender keeps the books. -/
theorem Booked.quiet (hb : Booked τ w) (hwf : w'.WF) (e : Action × Reply)
    (hq : w'.inner.queue = w.inner.queue) (hws : w'.inner.waiters = w.inner.waiters)
    (hr : w'.resolving.map (fun r => (r.dialog, r.decision, r.waiting)) =
      w.resolving.map (fun r => (r.dialog, r.decision, r.waiting)))
    (hd : w'.delivered = w.delivered) (hc : w.chans ≤ w'.chans)
    (hheard : ∀ r ∈ w'.resolving, ∀ b, r.audited = some b →
      (.audit r.dialog.id b, .audited) ∈ τ ++ [e])
    (h1 : queuedIds [e] = []) (h2 : takenIds [e] = []) (h3 : finishedIds [e] = [])
    (h4 : issued [e] = []) : Booked (τ ++ [e]) w' := by
  have hids : w'.resolvingIds = w.resolvingIds := by
    simpa [resolvingIds, List.map_map, Function.comp_def] using
      congrArg (List.map fun p => PendingRequest.id p.1) hr
  have hpl : w'.placed = w.placed := by
    have := congrArg (List.flatMap fun p : PendingRequest × ResolvedDecision × List Waiter =>
      p.2.2.map (p.1.id, ·)) hr
    simp only [List.flatMap_map] at this
    simp only [World.placed, hws, hd, this]
  exact {
    wf := hwf
    queued := by rw [hq, queuedIds_append, h1, List.append_nil, hb.queued]
    ids := by rw [hq, takenIds_append, h2, List.append_nil]; exact hb.ids
    taken := by
      rw [takenIds_append, h2, finishedIds_append, h3, List.append_nil, List.append_nil, hids]
      exact hb.taken
    placed := by rw [hpl, issued_append, h4, List.append_nil]; exact hb.placed
    chans := by rw [issued_append, h4, List.append_nil]; exact hb.chans
    chans_lt := by
      rw [issued_append, h4, List.append_nil]
      exact fun e he => Nat.lt_of_lt_of_le (hb.chans_lt e he) hc
    decided := fun r hr' => by
      obtain ⟨r', hr', heq⟩ := List.mem_map.1 (hr ▸ List.mem_map_of_mem hr' :
        (r.dialog, r.decision, r.waiting) ∈
          w.resolving.map fun r => (r.dialog, r.decision, r.waiting))
      simp only [Prod.mk.injEq] at heq
      obtain ⟨hdialog, hdecision, -⟩ := heq
      rw [← hdialog, ← hdecision]
      exact (hb.decided r' hr').append [e]
    heard := hheard
    sent := fun d hd' => (hb.sent d (hd ▸ hd')).append [e] }

/-- Parking under `id` adds one sender. -/
theorem Booked.park (hb : Booked τ w) {id : RequestId} {x : Waiter} {e : Action × Reply}
    (hws : w'.inner.waiters = w.inner.waiters.park id x) (hr : w'.resolving = w.resolving)
    (hd : w'.delivered = w.delivered) (hi : issued [e] = [(id, x)]) :
    w'.placed.Perm (issued (τ ++ [e])) := by
  have hpl : w'.placed.Perm ((id, x) :: w.placed) := by
    simp only [World.placed, hws, hr, hd]
    exact ((Waiters.all_park _ _ _).append_right _).append_right _
  rw [issued_append, hi]
  exact hpl.trans ((hb.placed.cons _).trans (List.perm_append_singleton _ _).symm)

/-- The channel of a newly parked sender is fresh. -/
theorem Booked.park_chans (hb : Booked τ w) {id : RequestId} {x : Waiter} {e : Action × Reply}
    (hx : x.chan = w.chans) (hi : issued [e] = [(id, x)]) :
    ((issued (τ ++ [e])).map fun e => e.2.chan).Nodup ∧
      ∀ e' ∈ issued (τ ++ [e]), e'.2.chan < w.chans + 1 := by
  rw [issued_append, hi]
  refine ⟨?_, ?_⟩
  · rw [List.map_append, List.nodup_append]
    refine ⟨hb.chans, by simp, ?_⟩
    intro c hc c' hc' heq
    obtain ⟨e', he', rfl⟩ := List.mem_map.1 hc
    have := hb.chans_lt e' he'
    simp only [List.map_cons, List.map_nil, List.mem_singleton] at hc'
    omega
  · intro e' he'
    rcases List.mem_append.1 he' with h | h
    · exact Nat.lt_succ_of_lt (hb.chans_lt e' h)
    · rw [List.mem_singleton.1 h]
      exact hx ▸ Nat.lt_succ_self _

theorem Booked.intake (hb : Booked τ w) {body : RequestBody} {app : String} {now : Int}
    (h : step cap w (.intake body app now) = some (rep, w')) :
    Booked (τ ++ [(.intake body app now, rep)]) w' := by
  have hwf := hb.wf.step h
  simp only [step] at h
  have hheard : ∀ {e : Action × Reply}, ∀ r ∈ w.resolving, ∀ b, r.audited = some b →
      (.audit r.dialog.id b, .audited) ∈ τ ++ [e] :=
    fun r hr b h => List.mem_append_left _ (hb.heard r hr b h)
  have hsent : ∀ {e : Action × Reply}, ∀ d ∈ w.delivered, Answered (τ ++ [e]) d :=
    fun d hd => (hb.sent d hd).append _
  have hdecided : ∀ {e : Action × Reply}, ∀ r ∈ w.resolving,
      DecidedOn (τ ++ [e]) r.dialog r.decision := fun r hr => (hb.decided r hr).append _
  rcases w.inner.intake_cases cap body app now w.chans with
    ⟨b, _, he⟩ | ⟨_, he, _⟩ | ⟨p, hp, _, he⟩ | he <;> rw [he] at h <;> cases h
  · exact hb.quiet hwf _ rfl rfl rfl rfl (Nat.le_succ _) hheard rfl rfl rfl rfl
  · exact hb.quiet hwf _ rfl rfl rfl rfl (Nat.le_succ _) hheard rfl rfl rfl rfl
  · obtain ⟨hchans, hlt⟩ := hb.park_chans
      (e := (.intake body app now, .intake (.pending p.id true w.chans)))
      (x := { chan := w.chans, request := requestOf body app }) rfl rfl
    exact {
      wf := hwf
      queued := by simpa [queuedIds] using hb.queued
      ids := by simpa [takenIds] using hb.ids
      taken := by
        rw [takenIds_append, finishedIds_append]
        show (takenIds τ ++ []).Perm (w.resolvingIds ++ (finishedIds τ ++ []))
        simpa using hb.taken
      placed := hb.park rfl rfl rfl rfl
      chans := hchans, chans_lt := hlt
      decided := hdecided, heard := hheard, sent := hsent }
  · obtain ⟨hchans, hlt⟩ := hb.park_chans
      (e := (.intake body app now, .intake (.pending w.inner.queue.nextId false w.chans)))
      (x := { chan := w.chans, request := requestOf body app }) rfl rfl
    have hn : ((w.inner.queue.push (requestOf body app) (classify (requestOf body app) cap)).nextId)
        = w.inner.queue.nextId + 1 := rfl
    exact {
      wf := hwf
      queued := by
        rw [queuedIds_append, hb.queued, hn, List.range_succ]
        rfl
      ids := by
        rw [takenIds_append, ConsentQueue.ids_push, hn, List.range_succ, List.append_assoc]
        refine (List.perm_middle.trans ?_).trans (List.perm_append_singleton _ _).symm
        show (w.inner.queue.nextId :: (w.inner.queue.ids ++ (takenIds τ ++ []))).Perm _
        simpa using hb.ids
      taken := by
        rw [takenIds_append, finishedIds_append]
        show (takenIds τ ++ []).Perm (w.resolvingIds ++ (finishedIds τ ++ []))
        simpa using hb.taken
      placed := hb.park rfl rfl rfl rfl
      chans := hchans, chans_lt := hlt
      decided := hdecided, heard := hheard, sent := hsent }

theorem Booked.take (hb : Booked τ w) {id : RequestId} {o : ConsentOutcome} {now : Int}
    (h : step cap w (.take id o now) = some (rep, w')) :
    Booked (τ ++ [(.take id o now, rep)]) w' := by
  have hwf := hb.wf.step h
  obtain ⟨rfl, rfl⟩ | ⟨dialog, decision, queue, rfl, hd, rfl⟩ := take_cases h
  · exact hb.quiet hwf _ rfl rfl rfl rfl (Nat.le_refl _)
      (fun r hr b h => List.mem_append_left _ (hb.heard r hr b h)) rfl rfl rfl rfl
  obtain ⟨hr, hreply, _⟩ := resolveDecision_eq_some hd
  have hids := ConsentQueue.ids_resolve hr
  obtain ⟨hmem, hid, _, _, hnext⟩ := ConsentQueue.resolve_eq_some hr
  have hin : id ∈ w.inner.queue.ids := hid ▸ List.mem_map_of_mem hmem
  have hissued : issued (τ ++ [(.take id o now, .taken dialog decision)]) = issued τ := by
    rw [issued_append]
    exact List.append_nil _
  -- the id moves from the queue to the resolving calls, and its senders with it
  exact {
    wf := hwf
    queued := by
      rw [queuedIds_append, hb.queued, hnext]
      simp [queuedIds]
    ids := by
      simp only [takenIds_append, hids, hnext]
      refine List.Perm.trans ?_ hb.ids
      have : takenIds [(Action.take id o now, Reply.taken dialog decision)] = [id] := by
        simp [takenIds, hid]
      rw [this, ← List.append_assoc]
      refine (List.perm_append_singleton _ _).trans ?_
      exact (List.perm_cons_erase hin).symm.append_right _
    taken := by
      simp only [takenIds_append, finishedIds_append, resolvingIds, List.map_append, List.map_cons,
        List.map_nil]
      have h2 : finishedIds [(Action.take id o now, Reply.taken dialog decision)] = [] := rfl
      rw [h2, List.append_nil, List.append_assoc]
      refine (hb.taken.append_right _).trans ?_
      rw [List.append_assoc]
      exact List.perm_append_comm.append_left _
    placed := by
      rw [hissued]
      refine List.Perm.trans ?_ hb.placed
      simp only [World.placed, List.flatMap_append, List.flatMap_cons, List.flatMap_nil,
        List.append_nil, hid]
      refine List.Perm.append_right _ ?_
      refine List.Perm.trans ?_ ((Waiters.all_remove w.inner.waiters id).symm.append_right _)
      rw [List.append_assoc]
      refine List.Perm.trans ?_ (List.perm_append_comm_assoc _ _ _)
      exact List.perm_append_comm.append_left _
    chans := by
      rw [hissued]
      exact hb.chans
    chans_lt := by
      rw [hissued]
      exact hb.chans_lt
    decided := by
      intro r hr
      rcases List.mem_append.1 hr with hr | hr
      · exact (hb.decided r hr).append _
      · rw [List.mem_singleton.1 hr]
        exact ⟨o, now, List.mem_append_right _ (List.mem_singleton.2 (by rw [hid])), hreply⟩
    heard := by
      intro r hr b hb'
      rcases List.mem_append.1 hr with hr | hr
      · exact List.mem_append_left _ (hb.heard r hr b hb')
      · rw [List.mem_singleton.1 hr] at hb'; cases hb'
    sent := fun d hd' => (hb.sent d hd').append _ }

theorem Booked.send (hb : Booked τ w) {id : RequestId}
    (h : step cap w (.send id) = some (rep, w')) : Booked (τ ++ [(.send id, rep)]) w' := by
  have hwf := hb.wf.step h
  obtain ⟨r, hr, hready, rfl, rfl⟩ := send_cases h
  have hid := (inFlight_mem hr).2
  have hperm : w.resolving.Perm (r :: w.resolving.eraseP fun r => r.dialog.id == id) :=
    perm_find_eraseP hr
  have hissued : ∀ rep, issued (τ ++ [(.send id, rep)]) = issued τ := by
    intro rep
    rw [issued_append]
    exact List.append_nil _
  exact {
    wf := hwf
    queued := by
      rw [queuedIds_append, hb.queued]
      simp [queuedIds]
    ids := by simpa [takenIds] using hb.ids
    taken := by
      rw [takenIds_append, finishedIds_append]
      show (takenIds τ ++ []).Perm (_ ++ (finishedIds τ ++ [id]))
      rw [List.append_nil]
      refine hb.taken.trans ?_
      rw [← List.append_assoc]
      refine List.Perm.trans ?_ (List.perm_append_singleton _ _).symm
      have := (hperm.map fun r => r.dialog.id).append_right (finishedIds τ)
      simpa [resolvingIds, hid] using this
    placed := by
      rw [hissued]
      refine List.Perm.trans ?_ hb.placed
      have hflat := hperm.flatMap_right fun r => r.waiting.map (r.dialog.id, ·)
      simp only [World.placed, List.map_append, List.map_map, List.append_assoc]
      refine List.Perm.append_left _ ?_
      refine List.Perm.trans ?_ (hflat.symm.append_right _)
      simp only [List.flatMap_cons, List.append_assoc]
      refine List.Perm.trans ?_ (List.perm_append_comm_assoc _ _ _)
      refine List.Perm.append_left _ ?_
      exact List.perm_append_comm
    chans := by
      rw [hissued]
      exact hb.chans
    chans_lt := by
      rw [hissued]
      exact hb.chans_lt
    decided := fun r' hr' => (hb.decided r' (List.mem_of_mem_eraseP hr')).append _
    heard := fun r' hr' b hb' =>
      List.mem_append_left _ (hb.heard r' (List.mem_of_mem_eraseP hr') b hb')
    sent := by
      intro d hd
      rcases List.mem_append.1 hd with hd | hd
      · exact (hb.sent d hd).append _
      · obtain ⟨x, _, rfl⟩ := List.mem_map.1 hd
        -- a call that is ready has heard from the audit
        obtain ⟨b, haud⟩ := Option.isSome_iff_exists.1 (Bool.and_eq_true_iff.1 hready).1
        have hmem := (inFlight_mem hr).1
        refine ⟨r.decision, b, r.grant, (hb.decided r hmem).append _,
          List.mem_append_left _ (hb.heard r hmem b haud), ?_, ?_⟩
        · cases b <;> simp [Resolving.reply, answer, haud]
        · refine List.mem_append_right _ (List.mem_singleton.2 ?_)
          cases b <;> simp [haud, hid] }

/-- A change in place of a call's audit or record flag keeps the books. -/
theorem Booked.update (hb : Booked τ w) (id : RequestId) (f : Resolving → Resolving)
    {e : Action × Reply} (hf : ∀ r, ((f r).dialog, (f r).decision, (f r).waiting) =
      (r.dialog, r.decision, r.waiting))
    (hwf : w'.WF) (hq : w'.inner.queue = w.inner.queue)
    (hws : w'.inner.waiters = w.inner.waiters) (hr : w'.resolving = (w.update id f).resolving)
    (hd : w'.delivered = w.delivered) (hc : w.chans ≤ w'.chans)
    (hheard : ∀ r ∈ w.resolving, ∀ b, r.dialog.id = id → (f r).audited = some b →
      (.audit id b, .audited) ∈ τ ++ [e])
    (h1 : queuedIds [e] = []) (h2 : takenIds [e] = []) (h3 : finishedIds [e] = [])
    (h4 : issued [e] = []) : Booked (τ ++ [e]) w' := by
  refine hb.quiet hwf e hq hws ?_ hd hc ?_ h1 h2 h3 h4
  · rw [hr]
    exact map_update _ hf
  · intro r hr' b hb'
    rw [hr] at hr'
    obtain ⟨r0, hr0, rfl⟩ := List.mem_map.1 hr'
    by_cases hid : r0.dialog.id = id
    · simp only [hid, ↓reduceIte] at hb' ⊢
      have := congrArg (fun p => PendingRequest.id p.1) (hf r0)
      simp only [hid] at this
      rw [this]
      exact hheard r0 hr0 b hid hb'
    · simp only [hid, ↓reduceIte] at hb' ⊢
      exact List.mem_append_left _ (hb.heard r0 hr0 b hb')

theorem Booked.step (hb : Booked τ w) (h : step cap w a = some (rep, w')) :
    Booked (τ ++ [(a, rep)]) w' := by
  have hwf := hb.wf.step h
  have hheard : ∀ {e : Action × Reply}, ∀ r ∈ w.resolving, ∀ b, r.audited = some b →
      (.audit r.dialog.id b, .audited) ∈ τ ++ [e] :=
    fun r hr b h => List.mem_append_left _ (hb.heard r hr b h)
  cases a with
  | intake body app now => exact hb.intake h
  | take id o now => exact hb.take h
  | send id => exact hb.send h
  | audit id ok =>
    obtain ⟨rfl, rfl⟩ := audit_cases h
    refine hb.update id (fun r => { r with audited := some ok }) (fun _ => rfl) hwf
      rfl rfl rfl rfl (Nat.le_refl _) ?_ rfl rfl rfl rfl
    intro r _ b _ hb'
    cases hb'
    exact List.mem_append_right _ (List.mem_singleton.2 rfl)
  | remember id =>
    obtain ⟨r, g, _, _, rfl, rfl⟩ := remember_cases h
    refine hb.update id (fun r => { r with recorded := true }) (fun _ => rfl) hwf
      rfl rfl rfl rfl (Nat.le_refl _) ?_ rfl rfl rfl rfl
    intro r hr b hid hb'
    exact List.mem_append_left _ (hid ▸ hb.heard r hr b hb')
  | revoke handle =>
    obtain ⟨rfl, _, rfl⟩ | ⟨g, gs, rfl, _, rfl⟩ := revoke_cases h
    · exact hb.quiet hwf _ rfl rfl rfl rfl (Nat.le_refl _) hheard rfl rfl rfl rfl
    · exact hb.quiet hwf _ rfl rfl rfl rfl (Nat.le_refl _) hheard rfl rfl rfl rfl
  | gesture recipient path ok =>
    obtain ⟨rfl, rfl⟩ := gesture_cases h
    cases ok
    · exact hb.quiet hwf _ rfl rfl rfl rfl (Nat.le_refl _) hheard rfl rfl rfl rfl
    · exact hb.quiet hwf _ rfl rfl rfl rfl (Nat.le_refl _) hheard rfl rfl rfl rfl
  | confer g =>
    obtain ⟨_, rfl, rfl⟩ := confer_cases h
    exact hb.quiet hwf _ rfl rfl rfl rfl (Nat.le_refl _) hheard rfl rfl rfl rfl

/-! ## The answer of a requester -/

/-- A list with distinct keys holds one element of each key. -/
theorem filter_key_eq {α : Type} {f : α → Nat} {l : List α} {a : α} (hn : (l.map f).Nodup)
    (ha : a ∈ l) : (l.filter fun x => f x == f a) = [a] := by
  induction l with
  | nil => cases ha
  | cons b l ih =>
    rw [List.map_cons, List.nodup_cons] at hn
    obtain ⟨hb, hn⟩ := hn
    rcases List.mem_cons.1 ha with rfl | ha
    · have hnone : (l.filter fun x => f x == f a) = [] := by
        refine List.filter_eq_nil_iff.2 fun x hx he => hb ?_
        exact List.mem_map.2 ⟨x, hx, by simpa using he⟩
      simp [hnone]
    · have hne : f b ≠ f a := fun he => hb (he ▸ List.mem_map_of_mem ha)
      simpa [hne] using ih hn ha

theorem Booked.placed_chans (hb : Booked τ w) : (w.placed.map fun e => e.2.chan).Nodup :=
  (hb.placed.map _).nodup_iff.2 hb.chans

/-- A fired channel was fired once. -/
theorem Booked.sentTo_eq (hb : Booked τ w) {d : Delivery} (hd : d ∈ w.delivered) :
    w.sentTo d.waiter.chan = [d] := by
  refine filter_key_eq (f := fun d => d.waiter.chan) ?_ hd
  have := hb.placed_chans
  simp only [World.placed, List.map_append, List.map_map] at this
  exact (List.nodup_append.1 this).2.1

/-- A sender still held, by the waiters map or by a resolving call, has not been
fired. -/
theorem Booked.sentTo_held (hb : Booked τ w) {id : RequestId} {x : Waiter}
    (hx : (id, x) ∈ w.inner.waiters.all ∨ ∃ r ∈ w.resolving, r.dialog.id = id ∧ x ∈ r.waiting) :
    w.sentTo x.chan = [] := by
  have hn := hb.placed_chans
  simp only [World.placed, List.map_append, List.map_map] at hn
  have hdis := (List.nodup_append.1 hn).2.2
  refine List.filter_eq_nil_iff.2 fun d hd he => ?_
  have hc : d.waiter.chan = x.chan := by simpa using he
  refine hdis x.chan ?_ d.waiter.chan (List.mem_map.2 ⟨d, hd, rfl⟩) hc.symm
  rcases hx with hx | ⟨r, hr, rfl, hx⟩
  · exact List.mem_append_left _ (List.mem_map.2 ⟨_, hx, rfl⟩)
  · refine List.mem_append_right _ (List.mem_map.2 ⟨(r.dialog.id, x), ?_, rfl⟩)
    exact List.mem_flatMap.2 ⟨r, hr, List.mem_map.2 ⟨x, hx, rfl⟩⟩

theorem mem_keys_of_mem_all {ws : Waiters} {id : RequestId} {x : Waiter}
    (h : (id, x) ∈ ws.all) : id ∈ ws.keys := by
  obtain ⟨e, he, hm⟩ := List.mem_flatMap.1 h
  obtain ⟨_, _, heq⟩ := List.mem_map.1 hm
  cases heq
  exact List.mem_map_of_mem he

/-- An id whose call has ended is in no other place. -/
theorem Booked.finished_only (hb : Booked τ w) {id : RequestId} (hf : id ∈ finishedIds τ) :
    id ∉ w.inner.queue.ids ∧ id ∉ w.resolvingIds := by
  have hn : (w.inner.queue.ids ++ (w.resolvingIds ++ finishedIds τ)).Nodup :=
    ((hb.taken.append_left _).symm.trans hb.ids).nodup_iff.2 List.nodup_range
  obtain ⟨_, hn2, hd1⟩ := List.nodup_append.1 hn
  refine ⟨fun h => hd1 id h id (List.mem_append_right _ hf) rfl, fun h => ?_⟩
  exact (List.nodup_append.1 hn2).2.2 id h id hf rfl

/-- Only finished calls have delivered. -/
theorem Booked.delivered_finished (hb : Booked τ w) {d : Delivery} (hd : d ∈ w.delivered) :
    d.dialog.id ∈ finishedIds τ := by
  obtain ⟨_, _, _, _, _, _, hm⟩ := hb.sent d hd
  exact List.mem_filterMap.2 ⟨_, hm, rfl⟩

end World

theorem answer_allowed {audited : Bool} {decision : ResolvedDecision}
    (h : (answer audited decision).allowed = true) : audited = true := by
  cases audited with
  | true => rfl
  | false => cases h

/-- **Each parked requester is answered once.** In every run: the waiters map
and the queue hold the same ids; no id is issued twice or resolved twice; a
requester told `Pending { id }` has been sent exactly one outcome if the resolve
call of `id` has ended, namely the answer to the decision that was made on `id`
(a denial where its audit failed), which is what that call returned, and an allow
among them only after the decision's audit submission succeeded; before that it
has been sent nothing and its sender is still parked or held by the call. -/
theorem parked_answered_once {cap : Capability} {τ : Trace} {w : World}
    (h : (broker cap).Run Machine.anyStep τ w) :
    (∀ id, id ∈ w.inner.waiters.keys ↔ id ∈ w.inner.queue.ids) ∧
    (queuedIds τ).Nodup ∧ (takenIds τ).Nodup ∧
    ∀ id x, (id, x) ∈ issued τ →
      (id ∈ finishedIds τ → ∃ d, w.sentTo x.chan = [d] ∧ d.waiter = x ∧ d.dialog.id = id ∧
        (∃ decision audited grant, DecidedOn τ d.dialog decision ∧ (.audit id audited, .audited) ∈ τ ∧
          d.outcome = answer audited decision ∧
            (.send id, .resolved audited d.outcome grant) ∈ τ) ∧
        (d.outcome.allowed = true → (.audit id true, .audited) ∈ τ)) ∧
      (id ∉ finishedIds τ → w.sentTo x.chan = [] ∧
        ((id, x) ∈ w.inner.waiters.all ∨
          ∃ r ∈ w.resolving, r.dialog.id = id ∧ x ∈ r.waiting)) := by
  have hb : World.Booked τ w := h.inv (World.Booked.init cap) fun hb _ hs => hb.step hs
  refine ⟨fun id => by rw [hb.wf.keys], hb.queued ▸ List.nodup_range,
    (List.nodup_append.1 (hb.ids.nodup_iff.2 List.nodup_range)).2.1, ?_⟩
  intro id x hx
  have hpl := hb.placed.mem_iff.2 hx
  rw [World.placed, List.mem_append, List.mem_append] at hpl
  -- where the sender is decides whether its call has ended
  rcases hpl with (hall | hres) | hdel
  · have hnf : id ∉ finishedIds τ := fun hf =>
      (hb.finished_only hf).1 (hb.wf.keys ▸ World.mem_keys_of_mem_all hall)
    exact ⟨fun hf => absurd hf hnf, fun _ => ⟨hb.sentTo_held (.inl hall), .inl hall⟩⟩
  · obtain ⟨r, hr, hm⟩ := List.mem_flatMap.1 hres
    obtain ⟨y, hy, heq⟩ := List.mem_map.1 hm
    cases heq
    have hnf : r.dialog.id ∉ finishedIds τ := fun hf =>
      (hb.finished_only hf).2 (List.mem_map.2 ⟨r, hr, rfl⟩)
    exact ⟨fun hf => absurd hf hnf,
      fun _ => ⟨hb.sentTo_held (.inr ⟨r, hr, rfl, hy⟩), .inr ⟨r, hr, rfl, hy⟩⟩⟩
  · obtain ⟨d, hd, heq⟩ := List.mem_map.1 hdel
    cases heq
    obtain ⟨decision, b, g, hdecided, haudit, hanswer, hm⟩ := hb.sent d hd
    refine ⟨fun _ => ⟨d, hb.sentTo_eq hd, rfl, rfl,
        ⟨decision, b, g, hdecided, haudit, hanswer, hm⟩, fun hallowed => ?_⟩,
      fun hnf => absurd (hb.delivered_finished hd) hnf⟩
    rw [hanswer] at hallowed
    exact answer_allowed hallowed ▸ haudit

/-- A system in which no application acts on its own. -/
def suggestOnly : Capability := { actions := { defaultMode := .suggest, autonomousApps := [] } }

/-- An ordinary request to tidy up a folder. -/
def tidyUp : RequestBody :=
  { cls := .agentAction, kind := .ordinary, summary := "tidy up", scope := some "/home/docs" }

/-- Two requesters share one dialog that the user allows once: both are told so. -/
theorem parked_answered_once_joined : ∃ τ w, (broker suggestOnly).Run Machine.anyStep τ w ∧
    ∃ d d', w.sentTo 0 = [d] ∧ w.sentTo 1 = [d'] ∧ d.outcome = .allowedOnce ∧
      d'.outcome = .allowedOnce ∧ (.audit 0 true, .audited) ∈ τ := by
  obtain ⟨τ, w, he, h₀, h₁, hf, hall⟩ : ∃ τ w, (broker suggestOnly).exec Machine.anyStep {}
      [.intake tidyUp "files" 0, .intake tidyUp "files" 1, .take 0 .allowedOnce 2, .audit 0 true,
        .send 0] = some (τ, w) ∧
      (0, ⟨0, requestOf tidyUp "files"⟩) ∈ issued τ ∧
      (0, ⟨1, requestOf tidyUp "files"⟩) ∈ issued τ ∧ 0 ∈ finishedIds τ ∧
      ∀ d ∈ w.delivered, d.outcome = .allowedOnce :=
    ⟨_, _, rfl, by decide, by decide, by decide, by decide⟩
  have hrun := Machine.run_of_exec he
  obtain ⟨-, -, -, hanswers⟩ := parked_answered_once hrun
  obtain ⟨d, hd, -, -, -, -⟩ := (hanswers 0 _ h₀).1 hf
  obtain ⟨d', hd', -, -, -, hallowed⟩ := (hanswers 0 _ h₁).1 hf
  have hmem : ∀ {chan d}, w.sentTo chan = [d] → d.outcome = .allowedOnce := fun hs =>
    hall _ (List.mem_of_mem_filter (hs ▸ List.mem_singleton_self _))
  exact ⟨τ, w, hrun, d, d', hd, hd', hmem hd, hmem hd', hallowed (by rw [hmem hd']; rfl)⟩

end Arlen.Consent
