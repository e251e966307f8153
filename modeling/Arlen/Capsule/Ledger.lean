import Arlen.Lib.Crash
import Arlen.Lib.Disk

/-!
# The revoke and op-count ledger

`RevocationLedger` and the file it is kept in, `RevocationFile`. An operation on the file
holds the lock, so operations come one after the other, but any call of one may fail and
the process may be killed at any call. The directory is synced after the rename, and
whether that worked is not looked at: `dirPlan` says what becomes of those two calls. A
file is the ledger `serde_json` reads from its bytes, if it reads one; what it wrote it
reads back.
-/

namespace Arlen.Capsule

open Arlen.Lib Crash

structure CapsuleMeta where
  label : String
  audience : String
  scope : String
  expiryMicros : Int
  maxOps : Nat
  mintedAtMicros : Int
deriving DecidableEq

structure CapsuleState where
  revoked : Bool := false
  opsUsed : Nat := 0
  mintMeta : Option CapsuleMeta := none
deriving DecidableEq

inductive ConsumeVerdict where
  | allowed
  | revoked
  | exhausted
  | unknown
deriving DecidableEq, Repr

structure RevocationLedger where
  entries : String → Option CapsuleState

namespace RevocationLedger

/-- `RevocationLedger::default`. -/
def empty : RevocationLedger := ⟨fun _ => none⟩

/-- `entry(handle).or_default()`, changed by `f`. -/
def orDefault (l : RevocationLedger) (handle : String) (f : CapsuleState → CapsuleState) :
    RevocationLedger :=
  ⟨fun h => if h = handle then some (f ((l.entries handle).getD {})) else l.entries h⟩

def register (l : RevocationLedger) (handle : String) : RevocationLedger := l.orDefault handle id

def registerWithMeta (l : RevocationLedger) (handle : String) (m : CapsuleMeta) :
    RevocationLedger :=
  l.orDefault handle fun s => if s.mintMeta.isNone then { s with mintMeta := some m } else s

def revoke (l : RevocationLedger) (handle : String) : RevocationLedger :=
  l.orDefault handle fun s => { s with revoked := true }

/-- The gate of a read; `ops_used` is below `max_ops` where it is counted up. -/
def consume (l : RevocationLedger) (handle : String) (maxOps : Nat) :
    ConsumeVerdict × RevocationLedger :=
  match l.entries handle with
  | none => (.unknown, l)
  | some s =>
    if s.revoked then (.revoked, l)
    else if maxOps ≤ s.opsUsed then (.exhausted, l)
    else (.allowed, ⟨fun h => if h = handle then some { s with opsUsed := s.opsUsed + 1 }
      else l.entries h⟩)

/-! ## What each operation does to an entry -/

def ops (l : RevocationLedger) (h : String) : Nat := ((l.entries h).getD {}).opsUsed

def isRevoked (l : RevocationLedger) (h : String) : Bool := ((l.entries h).getD {}).revoked

variable {l l' : RevocationLedger} {h handle : String} {f : CapsuleState → CapsuleState}
  {maxOps : Nat}

theorem entries_orDefault_self : (l.orDefault h f).entries h = some (f ((l.entries h).getD {})) :=
  if_pos rfl

theorem entries_orDefault_of_ne (hne : h ≠ handle) :
    (l.orDefault handle f).entries h = l.entries h := if_neg hne

theorem ops_orDefault (hf : ∀ s, (f s).opsUsed = s.opsUsed) :
    (l.orDefault handle f).ops h = l.ops h := by
  unfold ops
  by_cases heq : h = handle
  · subst heq
    rw [entries_orDefault_self, Option.getD_some, hf]
  · rw [entries_orDefault_of_ne heq]

@[simp] theorem ops_registerWithMeta {m : CapsuleMeta} :
    (l.registerWithMeta handle m).ops h = l.ops h :=
  ops_orDefault fun s => by split <;> rfl

@[simp] theorem ops_revoke : (l.revoke handle).ops h = l.ops h := ops_orDefault fun _ => rfl

theorem isRevoked_registerWithMeta {m : CapsuleMeta} :
    (l.registerWithMeta handle m).isRevoked h = l.isRevoked h := by
  unfold isRevoked registerWithMeta
  by_cases heq : h = handle
  · subst heq
    rw [entries_orDefault_self, Option.getD_some]
    split <;> rfl
  · rw [entries_orDefault_of_ne heq]

theorem isRevoked_revoke_self : (l.revoke h).isRevoked h = true := by
  unfold isRevoked revoke
  rw [entries_orDefault_self, Option.getD_some]

theorem isRevoked_revoke_of_ne (hne : h ≠ handle) :
    (l.revoke handle).isRevoked h = l.isRevoked h := by
  unfold isRevoked revoke
  rw [entries_orDefault_of_ne hne]

theorem isSome_orDefault (hsome : (l.entries h).isSome) :
    ((l.orDefault handle f).entries h).isSome := by
  by_cases heq : h = handle
  · rw [heq, entries_orDefault_self, Option.isSome_some]
  · rwa [entries_orDefault_of_ne heq]

/-- **What the gate lets through**: a registered capsule that is not revoked and below its
bound. One operation is counted. -/
theorem consume_allowed (hc : l.consume handle maxOps = (.allowed, l')) :
    l.isRevoked handle = false ∧ l.ops handle < maxOps ∧ l'.ops handle = l.ops handle + 1 ∧
      ∀ h, l'.isRevoked h = l.isRevoked h ∧ (h ≠ handle → l'.ops h = l.ops h) ∧
        ((l.entries h).isSome → (l'.entries h).isSome) := by
  unfold consume at hc
  cases hentry : l.entries handle with
  | none =>
    rw [hentry] at hc
    cases hc
  | some s =>
    rw [hentry] at hc
    simp only at hc
    by_cases hrevoked : s.revoked
    · rw [if_pos hrevoked] at hc
      cases hc
    · by_cases hops : maxOps ≤ s.opsUsed
      · rw [if_neg hrevoked, if_pos hops] at hc
        cases hc
      · rw [if_neg hrevoked, if_neg hops] at hc
        cases hc
        refine ⟨by simpa [isRevoked, hentry] using hrevoked, by simpa [ops, hentry] using hops,
          by simp [ops, hentry], fun h => ?_⟩
        by_cases heq : h = handle
        · subst heq
          exact ⟨by simp [isRevoked, hentry], fun hne => absurd rfl hne, fun _ => by simp⟩
        · exact ⟨by simp [isRevoked, heq], fun _ => by simp [ops, heq],
            fun hsome => by simpa [heq] using hsome⟩

/-- **What it lets through again.** -/
theorem consume_eq_allowed (hsome : (l.entries handle).isSome) (hrevoked : l.isRevoked handle = false)
    (hops : l.ops handle < maxOps) : (l.consume handle maxOps).1 = .allowed := by
  obtain ⟨s, hs⟩ := Option.isSome_iff_exists.1 hsome
  unfold isRevoked at hrevoked
  unfold ops at hops
  rw [hs, Option.getD_some] at hrevoked hops
  unfold consume
  rw [hs]
  simp only
  rw [if_neg (by simp [hrevoked]), if_neg (by omega)]

end RevocationLedger

/-! ## The file -/

inductive LedgerLoc where
  /-- `revocations.lock`. -/
  | lock
  /-- `revocations.json.tmp`. -/
  | tmp
  /-- `revocations.json`. -/
  | data
deriving DecidableEq

structure LedgerFile where
  content : Option RevocationLedger
  /-- Whether the bytes are on the medium. -/
  synced : Bool

abbrev LedgerDir := Disk LedgerLoc LedgerFile

/-- The kinds of `io::Error` the ledger ends in. -/
inductive LedgerError where
  | invalidData
  | other
deriving DecidableEq

/-- What becomes of the calls: of those whose failure is reported, and of the two that open
and sync the directory. -/
structure LedgerEnv where
  plan : Nat → Option (Fault (Option RevocationLedger))
  dirPlan : Nat → Option (Fault (Option RevocationLedger))

abbrev LedgerOp := Op LedgerDir LedgerError

namespace RevocationFile

variable (env : LedgerEnv)

def look {α : Type} (f : LedgerDir → Except LedgerError α) : LedgerOp α :=
  call env.plan .other (fun d => (f d).map fun a => (a, d)) fun _ d => d

def change (f : LedgerDir → LedgerDir) : LedgerOp Unit :=
  call env.plan .other (fun d => .ok ((), f d)) fun _ d => d

/-- `RevocationFile::lock`: opening the lock file, and waiting for the lock. -/
def lock : LedgerOp Unit := do
  change env fun d => if (d.live .lock).isSome then d else d.set .lock (some ⟨none, false⟩)
  look env fun _ => .ok ()

/-- A ledger that is not there is empty. -/
def readData (d : LedgerDir) : Except LedgerError RevocationLedger :=
  match d.live .data with
  | some ⟨some l, _⟩ => .ok l
  | some ⟨none, _⟩ => .error .invalidData
  | none => .ok .empty

def load : LedgerOp RevocationLedger := look env readData

/-- `OpenOptions::open` with `create` and `truncate`. -/
def openTmp (d : LedgerDir) : LedgerDir :=
  if (d.live .tmp).isSome then d.alter .tmp fun _ => ⟨none, false⟩
  else d.set .tmp (some ⟨none, false⟩)

def writeAll (l : RevocationLedger) : LedgerOp Unit :=
  call env.plan .other (fun d => .ok ((), d.alter .tmp fun _ => ⟨some l, false⟩)) fun landed d =>
    d.alter .tmp fun _ => ⟨landed, false⟩

def renameTmp (d : LedgerDir) : LedgerDir := (d.set .tmp none).set .data (d.live .tmp)

/-- `if let Ok(d) = fs::File::open(&self.dir) { let _ = d.sync_all(); }`. -/
def syncDir : LedgerOp Unit :=
  ignore do
    call env.dirPlan .other (fun d => .ok ((), d)) fun _ d => d
    call env.dirPlan .other (fun d => .ok ((), d.sync fun _ => true)) fun _ d => d

def save (l : RevocationLedger) : LedgerOp Unit := do
  change env openTmp
  writeAll env l
  change env fun d => d.alter .tmp fun file => { file with synced := true }
  change env renameTmp
  syncDir env

/-- Change the ledger under the lock. -/
def update (f : RevocationLedger → RevocationLedger) : LedgerOp Unit := do
  lock env
  let l ← load env
  save env (f l)

def register (handle : String) : LedgerOp Unit := update env fun l => l.register handle

def registerWithMeta (handle : String) (m : CapsuleMeta) : LedgerOp Unit :=
  update env fun l => l.registerWithMeta handle m

def revoke (handle : String) : LedgerOp Unit := update env fun l => l.revoke handle

/-- Only an allowed read changes the ledger. -/
def consume (handle : String) (maxOps : Nat) : LedgerOp ConsumeVerdict := do
  lock env
  let l ← load env
  let (verdict, l) := l.consume handle maxOps
  if verdict = .allowed then save env l
  return verdict

def state (handle : String) : LedgerOp (Option CapsuleState) := do
  lock env
  let l ← load env
  return l.entries handle

end RevocationFile

/-! ## What may be in the file -/

variable {lossy : Prop} {d d' : LedgerDir} {env : LedgerEnv} {P Q : RevocationLedger → Prop}
  {l : RevocationLedger}

/-- The ledger an entry of the directory stands for, when it is the data file. -/
def Reads (v : Option LedgerFile) (l : RevocationLedger) : Prop :=
  (v = none ∧ l = .empty) ∨ v = some ⟨some l, true⟩

theorem Reads.unique {v : Option LedgerFile} {l' : RevocationLedger} (h : Reads v l)
    (h' : Reads v l') : l = l' := by
  rcases h with ⟨rfl, rfl⟩ | rfl
  · rcases h' with ⟨-, rfl⟩ | h'
    · rfl
    · cases h'
  · rcases h' with ⟨h', -⟩ | h'
    · cases h'
    · cases h'
      rfl

/-- The data file reads as a ledger with the property, now and after a loss of power. -/
def Ledgers (lossy : Prop) (d : LedgerDir) (P : RevocationLedger → Prop) : Prop :=
  (∃ l, Reads (d.live .data) l ∧ P l) ∧ (lossy → ∀ v ∈ d.old .data, ∃ l, Reads v l ∧ P l)

theorem Ledgers.mono (h : Ledgers lossy d P) (hpq : ∀ l, P l → Q l) : Ledgers lossy d Q :=
  ⟨h.1.imp fun l hl => ⟨hl.1, hpq l hl.2⟩,
    fun hlossy v hv => (h.2 hlossy v hv).imp fun l hl => ⟨hl.1, hpq l hl.2⟩⟩

theorem Ledgers.and (h : Ledgers lossy d P) (h' : Ledgers lossy d Q) :
    Ledgers lossy d fun l => P l ∧ Q l := by
  have hboth : ∀ v, (∃ l, Reads v l ∧ P l) → (∃ l, Reads v l ∧ Q l) →
      ∃ l, Reads v l ∧ P l ∧ Q l := by
    rintro v ⟨l, hl, hp⟩ ⟨l', hl', hq⟩
    exact ⟨l, hl, hp, hl.unique hl' ▸ hq⟩
  exact ⟨hboth _ h.1 h'.1, fun hlossy v hv => hboth v (h.2 hlossy v hv) (h'.2 hlossy v hv)⟩

/-- Changes elsewhere in the directory. -/
theorem Ledgers.frame (h : Ledgers lossy d P) (hlive : d'.live .data = d.live .data)
    (hold : d'.old .data = d.old .data) : Ledgers lossy d' P := by
  unfold Ledgers
  rwa [hlive, hold]

/-- A ledger is put in place. -/
theorem Ledgers.put (h : Ledgers lossy d P) (hl : P l) :
    Ledgers lossy (d.set .data (some ⟨some l, true⟩)) P := by
  refine ⟨⟨l, .inr Disk.live_set_self, hl⟩, fun hlossy v hv => ?_⟩
  rw [Disk.old_set_self, List.mem_cons] at hv
  rcases hv with rfl | hv
  · exact h.1
  · exact h.2 hlossy v hv

theorem ledgers_sync (h : ∃ l, Reads (d.live .data) l ∧ P l) :
    Ledgers lossy (d.sync fun _ => true) P := by
  refine ⟨h, fun _ v hv => ?_⟩
  rw [Disk.old_sync_of_inside rfl] at hv
  cases hv

/-- What was not synced is anything after a loss of power. -/
def LedgerFile.spoil (garbage : Option RevocationLedger) (file : LedgerFile) : LedgerFile :=
  if file.synced then file else ⟨garbage, true⟩

def LedgerDir.lose (d : LedgerDir) (found : LedgerLoc → Nat)
    (garbage : LedgerLoc → Option RevocationLedger) : LedgerDir :=
  Disk.lose d (fun _ => []) found fun k => LedgerFile.spoil (garbage k)

/-- **Power is lost.** -/
theorem Ledgers.lose (hlossy : lossy) (h : Ledgers lossy d P) {found : LedgerLoc → Nat}
    {garbage : LedgerLoc → Option RevocationLedger} : Ledgers lossy (LedgerDir.lose d found garbage) P := by
  obtain ⟨l, hreads, hl⟩ : ∃ l, Reads (d.pick .data (found .data)) l ∧ P l := by
    rcases d.pick_eq_or_mem .data (found .data) with hp | hp
    · rw [hp]
      exact h.1
    · exact h.2 hlossy _ hp
  refine ⟨⟨l, ?_, hl⟩, fun _ => nofun⟩
  unfold LedgerDir.lose
  rw [Disk.live_lose, if_pos nofun]
  rcases hreads with ⟨hnone, rfl⟩ | hsome
  · exact .inl ⟨by rw [hnone, Option.map_none], rfl⟩
  · exact .inr (by rw [hsome]; rfl)

/-! ## How the operations end -/

namespace RevocationFile

/-- Where power may be lost, the directory is synced when it is asked to be. -/
def Firm (lossy : Prop) (env : LedgerEnv) : Prop :=
  lossy → ∀ n landed, env.dirPlan n ≠ some (.fails landed)

def Unbroken (env : LedgerEnv) : Prop := Smooth env.plan ∧ Smooth env.dirPlan

/-- Where an operation that breaks off leaves the directory. -/
def Left (lossy : Prop) (env : LedgerEnv) (P : RevocationLedger → Prop) (d : LedgerDir) : Prop :=
  Ledgers lossy d P ∧ ¬ Unbroken env

theorem does_look {α : Type} {f : LedgerDir → Except LedgerError α} {a : α} (hf : f d = .ok a)
    (h : Ledgers lossy d P) :
    Does (look env f) d (fun b d' => b = a ∧ d' = d) (Left lossy env P) := by
  have hcall : Does (look env f) d (fun b d' => (f d).map (fun c => (c, d)) = .ok (b, d'))
      (Left lossy env P) := by
    refine does_call (fun hplan _ => ⟨h, fun hall => hplan hall.1⟩) fun e he => ?_
    rw [hf] at he
    cases he
  refine hcall.mono (fun b d' heq => ?_) fun _ h => h
  rw [hf] at heq
  cases heq
  exact ⟨rfl, rfl⟩

theorem does_change (f : LedgerDir → LedgerDir) (h : Ledgers lossy d P) :
    Does (change env f) d (fun _ d' => d' = f d) (Left lossy env P) := by
  have hcall : Does (change env f) d (fun a d' => .ok ((), f d) = Except.ok (a, d'))
      (Left lossy env P) :=
    does_call (fun hplan _ => ⟨h, fun hall => hplan hall.1⟩) fun e he => nomatch he
  refine hcall.mono (fun a d' heq => ?_) fun _ h => h
  cases heq
  rfl

theorem does_lock (h : Ledgers lossy d P) :
    Does (lock env) d (fun _ d' => Ledgers lossy d' P ∧ d'.live .data = d.live .data)
      (Left lossy env P) := by
  refine (does_change _ h).bind fun _ d₁ h₁ => ?_
  have hsame : Ledgers lossy d₁ P ∧ d₁.live .data = d.live .data := by
    subst h₁
    split
    · exact ⟨h, rfl⟩
    · exact ⟨h.frame (by simp) (by simp), by simp⟩
  have hlook : Does (look env fun _ => .ok ()) d₁ (fun b d' => b = () ∧ d' = d₁)
      (Left lossy env P) := does_look rfl hsame.1
  exact hlook.mono (fun _ d₂ h₂ => h₂.2 ▸ hsame) fun _ h => h

theorem does_load (h : Ledgers lossy d P) :
    Does (load env) d (fun l d' => d' = d ∧ Reads (d.live .data) l ∧ P l) (Left lossy env P) := by
  obtain ⟨l, hreads, hl⟩ := h.1
  have hdata : readData d = .ok l := by
    unfold readData
    rcases hreads with ⟨hnone, rfl⟩ | hsome
    · rw [hnone]
    · rw [hsome]
  refine (does_look hdata h).mono (fun a d' ha => ?_) fun _ h => h
  obtain ⟨rfl, rfl⟩ := ha
  exact ⟨rfl, hreads, hl⟩

/-- The directory is synced, or one of the two calls failed and nobody looked. -/
theorem does_syncDir (h : Ledgers lossy d P) (hq : ∃ l, Reads (d.live .data) l ∧ Q l)
    (hfirm : Firm lossy env) :
    Does (syncDir env) d (fun _ d' => Ledgers lossy d' P ∧ Ledgers lossy d' Q)
      (Left lossy env P) := by
  have hsync : Ledgers lossy (d.sync fun _ => true) P ∧ Ledgers lossy (d.sync fun _ => true) Q :=
    ⟨ledgers_sync h.1, ledgers_sync hq⟩
  have hquiet : ¬ lossy → Ledgers lossy d P ∧ Ledgers lossy d Q := fun hl =>
    ⟨h, hq, fun hlossy => absurd hlossy hl⟩
  have hbroken : ∀ n fault, env.dirPlan n = some fault → ¬ Unbroken env := fun n fault hn hall =>
    nomatch hn.symm.trans (hall.2 n)
  intro made
  unfold Action.Ends syncDir ignore recover
  cases hopen : env.dirPlan made with
  | some fault =>
    cases fault with
    | fails landed =>
      by_cases hl : lossy
      · exact absurd hopen (hfirm hl made landed)
      · simpa [call, hopen, bind, pure] using hquiet hl
    | dies landed => simpa [call, hopen, bind] using ⟨h, hbroken _ _ hopen⟩
  | none =>
    cases hdir : env.dirPlan (made + 1) with
    | some fault =>
      cases fault with
      | fails landed =>
        by_cases hl : lossy
        · exact absurd hdir (hfirm hl _ landed)
        · simpa [call, hopen, hdir, bind, pure] using hquiet hl
      | dies landed => simpa [call, hopen, hdir, bind] using ⟨h, hbroken _ _ hdir⟩
    | none => simpa [call, hopen, hdir, bind] using hsync

/-- **A ledger is saved.** Broken off at any call, the file has it or the one before. -/
theorem does_save (h : Ledgers lossy d P) (hp : P l) (hq : Q l) (hfirm : Firm lossy env) :
    Does (save env l) d (fun _ d' => Ledgers lossy d' P ∧ Ledgers lossy d' Q)
      (Left lossy env P) := by
  refine (does_change _ h).bind fun _ d₁ h₁ => ?_
  have hl₁ : Ledgers lossy d₁ P ∧ (d₁.live .tmp).isSome := by
    subst h₁
    unfold openTmp
    split
    · next hsome => exact ⟨h.frame (by simp) (by simp), by simpa using hsome⟩
    · exact ⟨h.frame (by simp) (by simp), by simp⟩
  have hwrite : Does (writeAll env l) d₁ (fun a d' => Except.ok ((), d₁.alter .tmp fun _ => ⟨some l, false⟩) =
      (Except.ok (a, d') : Except LedgerError _)) (Left lossy env P) :=
    does_call (fun hplan n => ⟨hl₁.1.frame (by simp) (by simp), fun hall => hplan hall.1⟩)
      fun e he => nomatch he
  refine hwrite.bind fun _ d₂ h₂ => ?_
  cases h₂
  have hl₂ : Ledgers lossy (d₁.alter .tmp fun _ => ⟨some l, false⟩) P :=
    hl₁.1.frame (by simp) (by simp)
  refine (does_change _ hl₂).bind fun _ d₃ h₃ => ?_
  have hl₃ : Ledgers lossy d₃ P ∧ d₃.live .tmp = some ⟨some l, true⟩ := by
    subst h₃
    refine ⟨hl₂.frame (by simp) (by simp), ?_⟩
    obtain ⟨file, hfile⟩ := Option.isSome_iff_exists.1 hl₁.2
    simp [hfile]
  refine (does_change _ hl₃.1).bind fun _ d₄ h₄ => ?_
  have hl₄ : Ledgers lossy d₄ P ∧ Reads (d₄.live .data) l := by
    subst h₄
    unfold renameTmp
    rw [hl₃.2]
    exact ⟨(hl₃.1.frame (by simp) (by simp)).put hp, .inr Disk.live_set_self⟩
  exact does_syncDir hl₄.1 ⟨l, hl₄.2, hq⟩ hfirm

/-- **The ledger is changed**, or left as it was. -/
theorem does_update {f : RevocationLedger → RevocationLedger} {P' : RevocationLedger → Prop}
    (h : Ledgers lossy d P) (hkeep : ∀ l, P l → P' l) (hp : ∀ l, P l → P' (f l))
    (hq : ∀ l, P l → Q (f l)) (hfirm : Firm lossy env) :
    Does (update env f) d (fun _ d' => Ledgers lossy d' P' ∧ Ledgers lossy d' Q)
      (Left lossy env P') := by
  have hleft : ∀ d', Left lossy env P d' → Left lossy env P' d' := fun _ hl =>
    ⟨hl.1.mono hkeep, hl.2⟩
  refine ((does_lock h).mono (fun _ _ h => h) hleft).bind fun _ d₁ h₁ => ?_
  refine ((does_load h₁.1).mono (fun _ _ h => h) hleft).bind fun l d₂ h₂ => ?_
  obtain ⟨rfl, -, hl⟩ := h₂
  exact does_save (h₁.1.mono hkeep) (hp l hl) (hq l hl) hfirm

/-- **The gate of a read.** -/
theorem does_consume {handle : String} {maxOps : Nat} {P' : RevocationLedger → Prop}
    (h : Ledgers lossy d P) (hkeep : ∀ l, P l → P' l)
    (hp : ∀ l l', P l → l.consume handle maxOps = (.allowed, l') → P' l')
    (hq : ∀ l l', P l → l.consume handle maxOps = (.allowed, l') → Q l') (hfirm : Firm lossy env) :
    Does (consume env handle maxOps) d
      (fun v d' => (∃ l, P l ∧ v = (l.consume handle maxOps).1) ∧ Ledgers lossy d' P' ∧
        (v = .allowed → Ledgers lossy d' Q))
      (Left lossy env P') := by
  have hleft : ∀ d', Left lossy env P d' → Left lossy env P' d' := fun _ hl =>
    ⟨hl.1.mono hkeep, hl.2⟩
  refine ((does_lock h).mono (fun _ _ h => h) hleft).bind fun _ d₁ h₁ => ?_
  refine ((does_load h₁.1).mono (fun _ _ h => h) hleft).bind fun l d₂ h₂ => ?_
  obtain ⟨rfl, -, hl⟩ := h₂
  rcases hc : l.consume handle maxOps with ⟨v, l'⟩
  have hv : ∃ l, P l ∧ v = (l.consume handle maxOps).1 := ⟨l, hl, by rw [hc]⟩
  by_cases hallowed : v = .allowed
  · subst hallowed
    have hsave := does_save (h₁.1.mono hkeep) (hp l l' hl hc) (hq l l' hl hc) hfirm
    exact hsave.bind fun _ d₃ h₃ => Does.pure ⟨hv, h₃.1, fun _ => h₃.2⟩
  · simp only [if_neg hallowed]
    exact Does.pure ⟨hv, h₁.1.mono hkeep, fun hx => absurd hx hallowed⟩

end RevocationFile

end Arlen.Capsule
