import Arlen.Capsule.Grant
import Arlen.Capsule.Ledger
import Arlen.Capsule.Slice
import Arlen.Forage.Store
import Arlen.Lib.Machine

/-!
# The capsule daemon

`capsuled` serves a frozen slice to whoever presents a signed grant for it: signature and
expiry first, then the ledger's gate, and only then the slice. Requests are handled side
by side, so what a request does under the ledger's lock and what it does with the store
are two steps, and a `Task` is a request between them. The store is also used by others.
A process that is killed, and one that is stopped, drops its tasks.
-/

namespace Arlen.Capsule

open Arlen.Lib Crash Arlen.Forage

structure MintParams where
  scope : CapsuleScope
  audienceHex : String
  expiresAtMicros : Int
  maxOps : Nat
  originatingUser : String
  label : String
  scopeSummary : String
deriving DecidableEq

inductive Refusal where
  | badSignature
  | expired
  | revoked
  | exhausted
  | unknown
  | unavailable
deriving DecidableEq

def refusalLabel : Refusal → String
  | .badSignature => "refused:bad-signature"
  | .expired => "refused:expired"
  | .revoked => "refused:revoked"
  | .exhausted => "refused:exhausted"
  | .unknown => "refused:unknown"
  | .unavailable => "refused:unavailable"

/-- The owner a capsule's slice is rooted to. -/
def capsuleOwner (handle : String) : Store.Owner := ("capsule:" ++ handle).toList

section

variable (verify : Bytes → Bytes → Bool) (sign : Bytes → Bytes) (sha256 : Bytes → Digest)

def signGrant (grant : CapsuleGrant) : Bytes := sign grant.canonicalBytes

/-- `verify_grant` under the originator's key; a signature that is not 64 valid bytes does
not verify. -/
def verifyGrant (signed : SignedGrant) : Bool := verify signed.grant.canonicalBytes signed.signature

def refuseVerdict : ConsumeVerdict → Except Refusal Unit
  | .allowed => .ok ()
  | .revoked => .error .revoked
  | .exhausted => .error .exhausted
  | .unknown => .error .unknown

/-- `serve_capsule_read` up to the ledger's gate. -/
def gateRead (signed : SignedGrant) (now : Int) (env : LedgerEnv) : LedgerOp (Except Refusal Unit) :=
  if verifyGrant verify signed = false then pure (.error .badSignature)
  else if signed.grant.expiresAtMicros ≤ now then pure (.error .expired)
  else
    recover (do
      let verdict ← RevocationFile.consume env signed.grant.revocationHandle signed.grant.maxOps
      return refuseVerdict verdict) fun _ => pure (.error .unavailable)

/-- The rest of it: the slice is read. -/
def readSlice (grant : CapsuleGrant) (env : Store.Env) : Store.Op (Except Refusal Bytes) :=
  match Store.ContentHash.parse grant.sliceHash.toList with
  | .error _ => pure (.error .unavailable)
  | .ok hash =>
    recover (do
      let bytes ← Store.read sha256 env hash
      return .ok bytes) fun _ => pure (.error .unavailable)

/-- What the grant of a freshly minted capsule says. -/
def MintParams.grant (params : MintParams) (hash : Store.ContentHash) (handle : String) :
    CapsuleGrant where
  scope := params.scope
  sliceHash := String.ofList hash.digits
  audienceHex := params.audienceHex
  expiresAtMicros := params.expiresAtMicros
  maxOps := params.maxOps
  originatingUser := params.originatingUser
  revocationHandle := handle

def MintParams.toMeta (params : MintParams) (now : Int) : CapsuleMeta where
  label := params.label
  audience := "this machine"
  scope := params.scopeSummary
  expiryMicros := params.expiresAtMicros
  maxOps := params.maxOps
  mintedAtMicros := now

/-! ## The daemon -/

/-- How a `submit` to the audit daemon ends: acknowledged; failed, with the entry recorded or
not; or with the process killed, before the entry is recorded or behind it. -/
inductive Submit where
  | acknowledged
  | failed (recorded : Bool)
  | killed (recorded : Bool)
deriving DecidableEq, Repr

def Submit.records : Submit → Bool
  | .acknowledged => true
  | .failed recorded | .killed recorded => recorded

/-- A request between its two steps. -/
inductive Task where
  /-- The read was let through and counted. -/
  | admitted (grant : CapsuleGrant)
  /-- The slice was stored, its handle is not in the ledger yet. -/
  | stored (hash : Store.ContentHash) (handle : String) (params : MintParams)
  /-- The ledger has the capsule revoked, its slice is still rooted. -/
  | revoked (handle : String)
deriving DecidableEq

structure Daemon where
  ledger : LedgerDir
  store : Store.Vol
  tasks : List Task
  /-- The outcomes of the `CapsuleRead` events that were recorded. -/
  audit : List String

inductive Act where
  | present (signed : SignedGrant) (now : Int) (env : LedgerEnv) (submit : Submit)
  | deliver (grant : CapsuleGrant) (env : Store.Env) (submit : Submit)
  | mintPut (slice : FrozenSlice) (params : MintParams) (fresh : Bytes) (env : Store.Env)
  | mintRegister (hash : Store.ContentHash) (handle : String) (params : MintParams) (now : Int)
    (env : LedgerEnv)
  | revoke (handle : String) (env : LedgerEnv)
  | release (handle : String) (env : Store.Env)
  /-- Somebody else uses the store. -/
  | store (act : Store.Act)
  | restart
  | powerLoss (found : Store.Loc → Nat) (garbage : Store.Loc → Bytes)
    (foundLedger : LedgerLoc → Nat) (garbageLedger : LedgerLoc → Option RevocationLedger)

inductive Reply where
  | admitted
  | served (bytes : Bytes)
  | auditUnavailable
  | refused (r : Refusal)
  | stored (hash : Store.ContentHash)
  | minted (hash : Store.ContentHash) (signed : SignedGrant)
  /-- `ledger.revoke` returned. -/
  | recorded
  | revoked
  | failed
  | killed
  | store (r : Store.Reply)
  | done

/-- The entry of a `CapsuleRead`, if it is recorded. -/
def Daemon.submitted (s : Daemon) (submit : Submit) (outcome : String) : Daemon :=
  { s with audit := s.audit ++ if submit.records then [outcome] else [] }

/-- The end of `handle_request`: a slice goes out once it is acknowledged that it does, and a
refusal however its entry fares. -/
def respond (submit : Submit) (s : Daemon) : Except Refusal Bytes → Reply × Daemon
  | .ok bytes =>
    let s := s.submitted submit "served"
    match submit with
    | .acknowledged => (.served bytes, s)
    | .failed _ => (.auditUnavailable, s)
    | .killed _ => (.killed, { s with tasks := [] })
  | .error r =>
    let s := s.submitted submit (refusalLabel r)
    match submit with
    | .acknowledged | .failed _ => (.refused r, s)
    | .killed _ => (.killed, { s with tasks := [] })

/-- A step that failed answers so; one that was killed takes the daemon with it. -/
def finish {ε α : Type} (s : Daemon) (ok : α → Reply × Daemon) :
    Except (Stop ε) α → Reply × Daemon
  | .ok a => ok a
  | .error (.error _) => (.failed, s)
  | .error .killed => (.killed, { s with tasks := [] })

def step (s : Daemon) : Act → Option (Reply × Daemon)
  | .present signed now env submit =>
    (perform (gateRead verify signed now env) s.ledger).map fun p =>
      let s := { s with ledger := p.2 }
      finish s (fun
        | .ok () => (.admitted, { s with tasks := .admitted signed.grant :: s.tasks })
        | .error r => respond submit s (.error r)) p.1
  | .deliver grant env submit =>
    if .admitted grant ∈ s.tasks then
      (perform (readSlice sha256 grant env) s.store).map fun p =>
        let s := { s with store := p.2, tasks := s.tasks.erase (.admitted grant) }
        finish s (respond submit s) p.1
    else none
  | .mintPut slice params fresh env =>
    let handle := hex fresh
    (perform (Store.putReferenced sha256 env slice.canonicalBytes (capsuleOwner handle))
        s.store).map fun p =>
      let s := { s with store := p.2 }
      finish s (fun hash => (.stored hash, { s with tasks := .stored hash handle params :: s.tasks }))
        p.1
  | .mintRegister hash handle params now env =>
    if .stored hash handle params ∈ s.tasks then
      (perform (RevocationFile.registerWithMeta env handle (params.toMeta now)) s.ledger).map
        fun p =>
          let s := { s with ledger := p.2, tasks := s.tasks.erase (.stored hash handle params) }
          let grant := params.grant hash handle
          finish s (fun _ => (.minted hash ⟨grant, signGrant sign grant⟩, s)) p.1
    else none
  | .revoke handle env =>
    (perform (RevocationFile.revoke env handle) s.ledger).map fun p =>
      let s := { s with ledger := p.2 }
      finish s (fun _ => (.recorded, { s with tasks := .revoked handle :: s.tasks })) p.1
  | .release handle env =>
    if .revoked handle ∈ s.tasks then
      (perform (Store.release env (capsuleOwner handle)) s.store).map fun p =>
        let s := { s with store := p.2, tasks := s.tasks.erase (.revoked handle) }
        finish s (fun _ => (.revoked, s)) p.1
    else none
  | .store (.powerLoss _ _) => none
  | .store act =>
    (Store.step sha256 s.store act).map fun p => (.store p.1, { s with store := p.2 })
  | .restart => some (.done, { s with tasks := [] })
  | .powerLoss found garbage foundLedger garbageLedger =>
    some (.done, ⟨LedgerDir.lose s.ledger foundLedger garbageLedger,
      Store.Vol.lose s.store found garbage, [], s.audit⟩)

/-- The daemon, with a new ledger and a new store. -/
def machine : Machine Daemon Act Reply :=
  ⟨⟨Disk.empty, Disk.empty, [], []⟩, step verify sign sha256⟩

end

end Arlen.Capsule
