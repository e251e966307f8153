import Mathlib.Algebra.Group.Int.Defs
import Arlen.Consent.Queue

/-!
# Remembered grants (`consent-broker/src/{grant,control}.rs`, `GrantStore`)

A decision that outlasts its occurrence mints a grant, keyed by a revocation
handle over (recipient, class, scope); so does a gesture. `resolveDecision`
gates a remembered or windowed allow on the kind being fully reversible.
-/

namespace Arlen.Consent

/-- `i64::MAX`. -/
def i64Max : Int := 2 ^ 63 - 1

/-- `i64::saturating_add` of a non-negative amount. -/
def saturatingAdd (a b : Int) : Int := min (a + b) i64Max

inductive GrantLifetime where
  | until (atMicros : Int)
  | persistent
  | session
  deriving DecidableEq, Repr

def GrantLifetime.expiresAtMicros : GrantLifetime → Option Int
  | .until at_ => some at_
  | .persistent | .session => none

def gestureWindowMicros : Int := 5 * 60 * 1000000

structure ConsentGrant where
  recipient : String
  cls : ConsentClass
  scope : Option String
  summary : String
  revocationHandle : String
  lifetime : GrantLifetime
  deriving DecidableEq, Repr

def revocationHandle (recipient : String) (cls : ConsentClass) (scope : Option String) : String :=
  let scope := scope.getD ""
  s!"{recipient}|{cls.asKey}|{scope.utf8ByteSize}:{scope}"

def mintGrant (pending : PendingRequest) (outcome : ConsentOutcome) (nowMicros : Int) :
    Option ConsentGrant :=
  if !outcome.mintsGrant then none
  else
    let recipient := pending.request.requester.grantRecipient
    let cls := pending.request.cls
    let scope := pending.request.scope
    some {
      recipient, cls, scope
      summary := pending.request.summary
      revocationHandle := Consent.revocationHandle recipient cls scope
      lifetime := match outcome with
        | .allowedForWindow => .until (saturatingAdd nowMicros gestureWindowMicros)
        | _ => .persistent }

def conferFromGesture (recipient path : String) : ConsentGrant where
  recipient := recipient
  cls := .capabilityGrant
  scope := some path
  summary := s!"you opened {path} with this app"
  revocationHandle := Consent.revocationHandle recipient .capabilityGrant (some path)
  lifetime := .session

/-! ## The decision -/

structure ResolvedDecision where
  recipient : String
  reply : ConsentOutcome
  mediatedBy : Option String
  grant : Option ConsentGrant
  deriving DecidableEq, Repr

def gateRemember (kind : ActionKind) (outcome : ConsentOutcome) : ConsentOutcome :=
  if outcome = .allowedRemembered ∨ outcome = .allowedForWindow then
    if Reversibility.of kind ≠ .reversible then .allowedOnce else outcome
  else outcome

/-- Besides the decision and the new queue this returns the request that was
removed, which the source drops. -/
def resolveDecision (q : ConsentQueue) (id : RequestId) (outcome : ConsentOutcome)
    (nowMicros : Int) : Option (PendingRequest × ResolvedDecision × ConsentQueue) :=
  match q.resolve id outcome with
  | none => none
  | some (pending, outcome, q') =>
    let outcome := gateRemember pending.request.kind outcome
    some (pending,
      { recipient := pending.request.requester.grantRecipient
        reply := outcome
        mediatedBy := pending.request.requester.mediator
        grant := mintGrant pending outcome nowMicros }, q')

theorem resolveDecision_eq_some {q q' : ConsentQueue} {id : RequestId} {o : ConsentOutcome}
    {now : Int} {p : PendingRequest} {d : ResolvedDecision}
    (h : resolveDecision q id o now = some (p, d, q')) :
    q.resolve id o = some (p, o, q') ∧ d.reply = gateRemember p.request.kind o ∧
      d.grant = mintGrant p (gateRemember p.request.kind o) now := by
  unfold resolveDecision at h
  split at h
  · cases h
  · next p' o' q'' hr =>
    simp only [Option.some.injEq, Prod.mk.injEq] at h
    obtain ⟨rfl, rfl, rfl⟩ := h
    obtain ⟨_, _, rfl, _, _⟩ := ConsentQueue.resolve_eq_some hr
    exact ⟨hr, rfl, rfl⟩

/-- A minted grant names the request's own recipient, class and scope, carries
the handle of that triple, and was minted by an outlasting allow. -/
theorem mintGrant_eq_some {p : PendingRequest} {o : ConsentOutcome} {now : Int}
    {g : ConsentGrant} (h : mintGrant p o now = some g) :
    o.mintsGrant = true ∧ g.recipient = p.request.requester.grantRecipient ∧
      g.cls = p.request.cls ∧ g.scope = p.request.scope := by
  unfold mintGrant at h
  split at h
  · cases h
  · next hm =>
    simp only [Option.some.injEq] at h
    subst h
    exact ⟨by simpa using hm, rfl, rfl, rfl⟩

/-- What survives the gate as an outlasting allow is the user's own choice, on
a fully reversible kind. -/
theorem gateRemember_mintsGrant {kind : ActionKind} {o : ConsentOutcome}
    (h : (gateRemember kind o).mintsGrant = true) :
    gateRemember kind o = o ∧ Reversibility.of kind = .reversible := by
  unfold gateRemember at h ⊢
  by_cases ho : o = .allowedRemembered ∨ o = .allowedForWindow
  · by_cases hk : Reversibility.of kind = .reversible
    · simp [ho, hk]
    · simp [ho, hk, ConsentOutcome.mintsGrant] at h
  · simp only [ho, ↓reduceIte] at h
    cases o <;> simp_all [ConsentOutcome.mintsGrant]

/-! ## The grant store -/

/-- The remembered grants, in the order they were first recorded. -/
abbrev GrantStore := List ConsentGrant

namespace GrantStore

/-- A repeat replaces the grant under its handle. -/
def record : GrantStore → ConsentGrant → GrantStore
  | [], grant => [grant]
  | g :: gs, grant =>
    if g.revocationHandle = grant.revocationHandle then grant :: gs else g :: record gs grant

def covers (gs : GrantStore) (request : ConsentRequest) (nowMicros : Int) : Bool :=
  gs.any fun g =>
    g.recipient == request.requester.grantRecipient && g.cls == request.cls &&
      g.scope == request.scope &&
      (match g.lifetime.expiresAtMicros with
       | none => true
       | some e => decide (nowMicros < e))

/-- Forget the grant under `handle`, returning it. -/
def revoke : GrantStore → String → Option (ConsentGrant × GrantStore)
  | [], _ => none
  | g :: gs, handle =>
    if g.revocationHandle = handle then some (g, gs)
    else
      match revoke gs handle with
      | none => none
      | some (r, gs') => some (r, g :: gs')

/-- The handles of a store, which `record` keeps distinct. -/
def handles (gs : GrantStore) : List String := gs.map ConsentGrant.revocationHandle

theorem mem_record {gs : GrantStore} {grant g : ConsentGrant} (h : g ∈ record gs grant) :
    g = grant ∨ g ∈ gs := by
  induction gs with
  | nil => simpa [record] using h
  | cons x gs ih =>
    unfold record at h
    split at h
    · simp only [List.mem_cons] at h ⊢
      rcases h with h | h
      · exact .inl h
      · exact .inr (.inr h)
    · simp only [List.mem_cons] at h ⊢
      rcases h with h | h
      · exact .inr (.inl h)
      · exact (ih h).imp_right .inr

theorem handles_record (gs : GrantStore) (grant : ConsentGrant) :
    handles (record gs grant) =
      if grant.revocationHandle ∈ handles gs then handles gs
      else handles gs ++ [grant.revocationHandle] := by
  induction gs with
  | nil => simp [record, handles]
  | cons x gs ih =>
    unfold record
    by_cases hx : x.revocationHandle = grant.revocationHandle
    · simp [hx, handles]
    · simp only [hx, ↓reduceIte]
      simp only [handles, List.map_cons, List.mem_cons] at ih ⊢
      rw [ih]
      by_cases hm : grant.revocationHandle ∈ gs.map ConsentGrant.revocationHandle
      · simp [hm]
      · simp [hm, Ne.symm hx]

theorem nodup_record {gs : GrantStore} (h : (handles gs).Nodup) (grant : ConsentGrant) :
    (handles (record gs grant)).Nodup := by
  rw [handles_record]
  split
  · exact h
  · next hm => simpa [List.nodup_append] using ⟨h, fun a ha e => hm (e ▸ ha)⟩

/-- Revoking leaves grants that were there, none of them under the handle. -/
theorem revoke_eq_some {gs gs' : GrantStore} {handle : String} {r : ConsentGrant}
    (hn : (handles gs).Nodup) (h : revoke gs handle = some (r, gs')) :
    (∀ g ∈ gs', g ∈ gs ∧ g.revocationHandle ≠ handle) ∧ (handles gs').Nodup := by
  induction gs generalizing gs' with
  | nil => cases h
  | cons x gs ih =>
    simp only [handles, List.map_cons, List.nodup_cons] at hn
    obtain ⟨hx, hn⟩ := hn
    unfold revoke at h
    split at h
    · next he =>
      simp only [Option.some.injEq, Prod.mk.injEq] at h
      obtain ⟨rfl, rfl⟩ := h
      refine ⟨fun g hg => ⟨List.mem_cons_of_mem _ hg, fun e => hx ?_⟩, hn⟩
      exact List.mem_map.2 ⟨g, hg, e.trans he.symm⟩
    · next he =>
      split at h
      · cases h
      · next r' gs'' hr =>
        simp only [Option.some.injEq, Prod.mk.injEq] at h
        obtain ⟨rfl, rfl⟩ := h
        obtain ⟨hmem, hnd⟩ := ih hn hr
        refine ⟨fun g hg => ?_, ?_⟩
        · rcases List.mem_cons.1 hg with rfl | hg
          · exact ⟨List.mem_cons_self, he⟩
          · exact ⟨List.mem_cons_of_mem _ (hmem g hg).1, (hmem g hg).2⟩
        · simp only [handles, List.map_cons, List.nodup_cons]
          refine ⟨fun hc => hx ?_, hnd⟩
          obtain ⟨g, hg, e⟩ := List.mem_map.1 hc
          exact List.mem_map.2 ⟨g, (hmem g hg).1, e⟩

/-- The handle of a stored grant is known. -/
theorem revoke_ne_none {gs : GrantStore} {g : ConsentGrant} (h : g ∈ gs) :
    revoke gs g.revocationHandle ≠ none := by
  induction gs with
  | nil => cases h
  | cons x gs ih =>
    unfold revoke
    by_cases hx : x.revocationHandle = g.revocationHandle
    · simp [hx]
    · rcases List.mem_cons.1 h with rfl | h
      · exact absurd rfl hx
      · simp only [hx, ↓reduceIte]
        cases hr : revoke gs g.revocationHandle with
        | none => exact absurd hr (ih h)
        | some r => simp

/-- A covered request has a live grant for exactly its recipient, class and
scope. -/
theorem exists_of_covers {gs : GrantStore} {r : ConsentRequest} {now : Int}
    (h : covers gs r now = true) :
    ∃ g ∈ gs, g.recipient = r.requester.grantRecipient ∧ g.cls = r.cls ∧ g.scope = r.scope ∧
      ∀ e, g.lifetime = .until e → now < e := by
  unfold covers at h
  obtain ⟨g, hg, hc⟩ := List.any_eq_true.1 h
  simp only [Bool.and_eq_true, beq_iff_eq] at hc
  obtain ⟨⟨⟨h1, h2⟩, h3⟩, h4⟩ := hc
  refine ⟨g, hg, h1, h2, h3, fun e he => ?_⟩
  simpa [he, GrantLifetime.expiresAtMicros] using h4

end GrantStore

end Arlen.Consent
