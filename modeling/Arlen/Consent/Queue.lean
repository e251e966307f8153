import Arlen.Consent.Request

/-!
# The pending-consent queue (`consent-broker/src/queue.rs`)

One dialog is shown at a time, so requests that need one queue up. A request
asking the same question as a pending one joins it instead of being queued
again; `sameQuestion` compares the requester, the class and the scope, never
the kind, the tier or the summary. The `u64` counters are naturals.
-/

namespace Arlen.Consent

/-- A broker-assigned identifier for one pending request. -/
abbrev RequestId := Nat

structure PendingRequest where
  id : RequestId
  request : ConsentRequest
  tier : SeverityTier
  seq : Nat
  deriving DecidableEq, Repr

def tierRank : SeverityTier → Nat
  | .silent => 0
  | .standard => 1
  | .highStakes => 2

structure ConsentQueue where
  pending : List PendingRequest := []
  nextId : Nat := 0
  nextSeq : Nat := 0
  deriving DecidableEq, Repr

inductive Enqueued where
  | queued (id : RequestId)
  | alreadyPending (id : RequestId)
  | silentGrant
  deriving DecidableEq, Repr

def sameQuestion (a b : ConsentRequest) : Bool :=
  !a.triggeredByExternalContent && !b.triggeredByExternalContent &&
    a.requester.displayId == b.requester.displayId && a.cls == b.cls && a.scope == b.scope

namespace ConsentQueue

/-- Queue a classified request under the next id. -/
def push (q : ConsentQueue) (request : ConsentRequest) (tier : SeverityTier) : ConsentQueue where
  pending := q.pending ++ [{ id := q.nextId, request, tier, seq := q.nextSeq }]
  nextId := q.nextId + 1
  nextSeq := q.nextSeq + 1

def enqueue (q : ConsentQueue) (request : ConsentRequest) (capability : Capability) :
    Enqueued × ConsentQueue :=
  let tier := classify request capability
  if tier = .silent then (.silentGrant, q)
  else
    match q.pending.find? fun p => sameQuestion p.request request with
    | some p => (.alreadyPending p.id, q)
    | none => (.queued q.nextId, q.push request tier)

/-- The dialog to show now: the highest tier, the earliest within a tier. -/
def front (q : ConsentQueue) : Option PendingRequest :=
  q.pending.foldl (fun best p =>
    match best with
    | none => some p
    | some b =>
      -- `max_by` keeps `b` only when it compares greater; the later `seq` loses a tie of tiers
      if tierRank p.tier < tierRank b.tier ∨ tierRank p.tier = tierRank b.tier ∧ b.seq < p.seq
      then some b else some p) none

/-- Remove the request with this id; `none` when it is not pending. -/
def resolve (q : ConsentQueue) (id : RequestId) (outcome : ConsentOutcome) :
    Option (PendingRequest × ConsentOutcome × ConsentQueue) :=
  match q.pending.find? fun p => p.id == id with
  | none => none
  | some p => some (p, outcome, { q with pending := q.pending.eraseP fun p => p.id == id })

/-! ## What the operations can do -/

/-- Enqueueing grants silently, joins the pending same question, or queues
under a fresh id. -/
theorem enqueue_cases (q : ConsentQueue) (r : ConsentRequest) (cap : Capability) :
    (classify r cap = .silent ∧ q.enqueue r cap = (.silentGrant, q)) ∨
    (∃ p ∈ q.pending, q.pending.find? (fun p => sameQuestion p.request r) = some p ∧
      classify r cap ≠ .silent ∧ q.enqueue r cap = (.alreadyPending p.id, q)) ∨
    (classify r cap ≠ .silent ∧
      q.enqueue r cap = (.queued q.nextId, q.push r (classify r cap))) := by
  by_cases hs : classify r cap = .silent
  · exact .inl ⟨hs, by simp [enqueue, hs]⟩
  · right
    cases hf : q.pending.find? fun p => sameQuestion p.request r with
    | some p =>
      exact .inl ⟨p, List.mem_of_find?_eq_some hf, rfl, hs, by simp [enqueue, hs, hf]⟩
    | none => exact .inr ⟨hs, by simp [enqueue, hs, hf]⟩

/-- Resolving removes the pending request it returns, which has the given id. -/
theorem resolve_eq_some {q q' : ConsentQueue} {id : RequestId} {o o' : ConsentOutcome}
    {p : PendingRequest} (h : q.resolve id o = some (p, o', q')) :
    p ∈ q.pending ∧ p.id = id ∧ o' = o ∧ q'.pending = q.pending.eraseP (fun p => p.id == id) ∧
      q'.nextId = q.nextId := by
  unfold resolve at h
  split at h
  · cases h
  · next p' hf =>
    simp only [Option.some.injEq, Prod.mk.injEq] at h
    obtain ⟨rfl, rfl, rfl⟩ := h
    exact ⟨List.mem_of_find?_eq_some hf, by simpa using List.find?_some hf, rfl, rfl, rfl⟩

end ConsentQueue

end Arlen.Consent
