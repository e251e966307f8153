import Arlen.Lib.Machine
import Arlen.Lib.Write
import Arlen.Audit.Checkpoint

/-!
# The audit daemon (`audit-daemon/src/{main,ingest/mod}.rs`, `Ledger::append`)

The daemon as a machine over its two durable stores, the table and the
checkpoint file. A step is a start, one `record` call (the ledger mutex makes
appends take turns) or a crash; each carries how its writes went. `main`
attaches no TPM anchor, so the attestation layer of the startup check is inert
and left out; `append` attests through whatever anchor it is given.
-/

namespace Arlen.Audit

open Arlen.Lib

/-- The dependencies of the running daemon. -/
structure DaemonDeps extends Deps where
  request : Serde IngestRequest
  checkpoint : Serde Checkpoint

/-- What survives the process. -/
structure Disk where
  table : Table := []
  checkpoint : Option String := none
  deriving DecidableEq, Repr

/-- `checkpoint::write`: the rename puts the whole text in place. -/
def Disk.writeCheckpoint (D : DaemonDeps) (cp : Checkpoint) (disk : Disk) :
    Except AuditError Disk :=
  .ok { disk with checkpoint := some (D.checkpoint.toStr cp) }

def Disk.insertRow (row : Row) (disk : Disk) : Except AuditError Disk :=
  match disk.table.insert row with
  | .ok table => .ok { disk with table }
  | .error e => .error e

/-! ## Append -/

/-- The attestation of one append. -/
inductive Attest where
  | unanchored
  | signed (signature : Bytes)
  | failed (message : String)
  | crashed
  deriving DecidableEq, Repr

/-- How the writes of one append went. -/
structure AppendIo where
  insert : Write AuditError := .done
  attest : Attest := .unanchored
  checkpoint : Write AuditError := .done
  deriving DecidableEq, Repr

inductive AppendResult where
  | ok (index : Nat)
  | error (e : AuditError)
  | crashed
  deriving DecidableEq, Repr

structure Appended where
  result : AppendResult
  disk : Disk
  head : Head
  deriving DecidableEq, Repr

/-- The checkpoint an append writes for its entry. -/
def AuditEntry.checkpoint (e : AuditEntry) (attestationHex : String) : Checkpoint where
  index := e.index
  entryHashHex := hex e.entryHash.bytes
  attestationHex := attestationHex

/-- The tail of an append, after the row is in: write the checkpoint. -/
def sealCheckpoint (D : DaemonDeps) (disk : Disk) (head : Head) (entry : AuditEntry)
    (attestationHex : String) (io : Write AuditError) : Appended :=
  match io.run (Disk.writeCheckpoint D (entry.checkpoint attestationHex)) disk with
  | .done disk => { result := .ok entry.index, disk, head }
  | .failed e disk => { result := .error e, disk, head }
  | .crashed disk => { result := .crashed, disk, head }

/-- `Ledger::append`: insert the row, advance the head in memory, attest, write
the checkpoint. -/
def append (D : DaemonDeps) (disk : Disk) (head : Head) (s : Submission) (io : AppendIo) :
    Appended :=
  let entry := head.sealEntry D.toDeps s
  match io.insert.run (Disk.insertRow (Row.ofEntry D.toDeps entry)) disk with
  | .failed e disk => { result := .error e, disk, head }
  | .crashed disk => { result := .crashed, disk, head }
  | .done disk =>
    let head := head.advance D.toDeps s
    match io.attest with
    | .unanchored => sealCheckpoint D disk head entry "" io.checkpoint
    | .signed signature => sealCheckpoint D disk head entry (hex signature) io.checkpoint
    | .failed message =>
      { result := .error (.storage s!"TPM head attestation failed: {message}"), disk, head }
    | .crashed => { result := .crashed, disk, head }

/-! ## Startup -/

/-- The second witness: read the checkpoint, look its entry up, compare. -/
def assess (D : DaemonDeps) (disk : Disk) (head : Head) : Except AuditError StartupCheck :=
  let stored := Checkpoint.read D.checkpoint disk.checkpoint
  let entryHashAtCp := match stored with
    | .ok (some cp) => disk.table.entryHashHexAt cp.index
    | _ => .ok none
  match entryHashAtCp with
  | .ok hash => .ok (Checkpoint.assessStartup stored head.forCheckpoint.isNone hash)
  | .error e => .error e

/-- A serving process. While `tampered` is set every append is refused. -/
structure Process where
  head : Head
  tampered : Bool
  deriving DecidableEq, Repr

inductive Reply where
  /-- Serving; `check` is `none` when the chain was already broken. -/
  | started (check : Option StartupCheck)
  | exited (e : AuditError)
  | response (r : IngestResponse)
  | crashed
  deriving DecidableEq, Repr

/-- After a consistent check the checkpoint is rewritten to the live head; if
that fails, ingest is frozen. -/
def reseed (D : DaemonDeps) (disk : Disk) (head : Head) (io : Write AuditError) :
    Reply × Disk × Option Process :=
  match head.forCheckpoint with
  | none => (.started (some .consistent), disk, some ⟨head, false⟩)
  | some (index, entryHashHex) =>
    match io.run (Disk.writeCheckpoint D { index, entryHashHex }) disk with
    | .done disk => (.started (some .consistent), disk, some ⟨head, false⟩)
    | .failed _ disk => (.started (some .consistent), disk, some ⟨head, true⟩)
    | .crashed disk => (.crashed, disk, none)

/-- `main`, up to serving: open, verify the chain, assess the checkpoint. -/
def startup (D : DaemonDeps) (disk : Disk) (io : Write AuditError) :
    Reply × Disk × Option Process :=
  match disk.table.loadHead with
  | .error e => (.exited e, disk, none)
  | .ok head =>
    match disk.table.verify D.toDeps with
    | .error (.chainBroken _ _) => (.started none, disk, some ⟨head, true⟩)
    | .error e => (.exited e, disk, none)
    | .ok _ =>
      match assess D disk head with
      | .error e => (.exited e, disk, none)
      | .ok .consistent => reseed D disk head io
      | .ok .genesis => (.started (some .genesis), disk, some ⟨head, false⟩)
      | .ok (.tampered detail) => (.started (some (.tampered detail)), disk, some ⟨head, true⟩)

/-! ## The machine -/

/-- `sealed` lists the entries that appends have put into the table, as they
hashed them; no step reads it. -/
structure World where
  disk : Disk := {}
  proc : Option Process := none
  sealed : List AuditEntry := []
  deriving DecidableEq, Repr

inductive Action where
  | start (io : Write AuditError)
  | record (actor body : String) (nowMicros : Int) (io : AppendIo)
  | crash
  deriving DecidableEq, Repr

/-- What `record` appends for a request from `actor`. -/
def IngestRequest.submission (r : IngestRequest) (actor : String) (nowMicros : Int) :
    Submission where
  timestampMicros := nowMicros
  kind := r.kind
  actor := actor
  structural := r.structural
  forensic := r.forensic
  callChainId := r.callChainId
  projectId := r.projectId

/-- The submission a `record` call carries to the ledger, or why it does not. -/
def accept (D : DaemonDeps) (p : Process) (actor body : String) (nowMicros : Int) :
    Except String Submission :=
  if p.tampered then
    .error "audit ledger failed integrity verification; refusing new entries"
  else
    match D.request.fromStr body with
    | .error e => .error s!"codec: decode request: {e}"
    | .ok req =>
      match req.validate with
      | .error e => .error e
      | .ok () => .ok (req.submission actor nowMicros)

/-- The world after an append of `s`, with the process as given. -/
def World.appended (D : DaemonDeps) (w : World) (p : Process) (s : Submission) (disk : Disk)
    (proc : Option Process) : World where
  disk := disk
  proc := proc
  sealed :=
    if disk.table = w.disk.table then w.sealed else w.sealed ++ [p.head.sealEntry D.toDeps s]

def World.step (D : DaemonDeps) (w : World) : Action → Option (Reply × World)
  | .start io =>
    match w.proc with
    | some _ => none
    | none =>
      let (reply, disk, proc) := startup D w.disk io
      some (reply, { w with disk, proc })
  | .record actor body nowMicros io =>
    match w.proc with
    | none => none
    | some p =>
      match accept D p actor body nowMicros with
      | .error reason => some (.response (.unavailable reason), w)
      | .ok s =>
        let a := append D w.disk p.head s io
        match a.result with
        | .ok index =>
          some (.response (.appended index), w.appended D p s a.disk (some { p with head := a.head }))
        | .error e =>
          some (.response (.unavailable e.toStr),
            w.appended D p s a.disk (some { p with head := a.head }))
        | .crashed => some (.crashed, w.appended D p s a.disk none)
  | .crash => some (.crashed, { w with proc := none })

/-- The daemon over an empty data directory. -/
def daemon (D : DaemonDeps) : Machine World Action Reply where
  init := {}
  step := World.step D

/-! ## What a step can do -/

/-- The attestation text the checkpoint of an append carries. -/
def Attest.hexText : Attest → String
  | signed signature => hex signature
  | _ => ""

section

variable {D : DaemonDeps} {disk : Disk} {head : Head} {s : Submission} {a : Appended}

/-- A checkpoint write changes nothing but the file, and answers `ok` only once
the file is in place. -/
theorem sealCheckpoint_cases {e : AuditEntry} {att : String} {io : Write AuditError}
    (h : sealCheckpoint D disk head e att io = a) :
    a.head = head ∧
      (a.disk = disk ∧ (∀ i, a.result ≠ .ok i) ∨
        a.disk = { disk with checkpoint := some (D.checkpoint.toStr (e.checkpoint att)) } ∧
          ∀ i, a.result = .ok i → i = e.index) := by
  unfold sealCheckpoint at h
  split at h
  · next d hrun =>
    cases Write.run_done hrun
    subst h
    exact ⟨rfl, .inr ⟨rfl, fun i hi => by cases hi; rfl⟩⟩
  · next err d hrun =>
    subst h
    refine ⟨rfl, ?_⟩
    rcases Write.run_failed hrun with rfl | hw
    · exact .inl ⟨rfl, fun i hi => nomatch hi⟩
    · cases hw
      exact .inr ⟨rfl, fun i hi => nomatch hi⟩
  · next d hrun =>
    subst h
    refine ⟨rfl, ?_⟩
    rcases Write.run_crashed hrun with rfl | hw
    · exact .inl ⟨rfl, fun i hi => nomatch hi⟩
    · cases hw
      exact .inr ⟨rfl, fun i hi => nomatch hi⟩

/-- What an append leaves behind. Either nothing changed; or the row is in and
the checkpoint not, with the head in memory advanced or not; or both are. Only
in the last case can it answer `ok`, with the entry's index. -/
theorem append_cases {io : AppendIo} (h : append D disk head s io = a) :
    (a.disk = disk ∧ a.head = head ∧ ∀ i, a.result ≠ .ok i) ∨
    ∃ disk', disk.insertRow (Row.ofEntry D.toDeps (head.sealEntry D.toDeps s)) = .ok disk' ∧
      (a.head = head ∨ a.head = head.advance D.toDeps s) ∧
      (a.disk = disk' ∧ (∀ i, a.result ≠ .ok i) ∨
        a.disk = { disk' with
          checkpoint := some (D.checkpoint.toStr
            ((head.sealEntry D.toDeps s).checkpoint io.attest.hexText)) } ∧
          ∀ i, a.result = .ok i → i = head.nextIndex) := by
  simp only [append] at h
  split at h
  · next e d hrun =>
    subst h
    rcases Write.run_failed hrun with rfl | hins
    · exact .inl ⟨rfl, rfl, fun i hi => nomatch hi⟩
    · exact .inr ⟨d, hins, .inl rfl, .inl ⟨rfl, fun i hi => nomatch hi⟩⟩
  · next d hrun =>
    subst h
    rcases Write.run_crashed hrun with rfl | hins
    · exact .inl ⟨rfl, rfl, fun i hi => nomatch hi⟩
    · exact .inr ⟨d, hins, .inl rfl, .inl ⟨rfl, fun i hi => nomatch hi⟩⟩
  · next d hrun =>
    refine .inr ⟨d, Write.run_done hrun, ?_⟩
    split at h
    · next hatt =>
      obtain ⟨hh, hcases⟩ := sealCheckpoint_cases h
      exact ⟨.inr hh, hatt ▸ hcases⟩
    · next sig hatt =>
      obtain ⟨hh, hcases⟩ := sealCheckpoint_cases h
      exact ⟨.inr hh, hatt ▸ hcases⟩
    · subst h; exact ⟨.inr rfl, .inl ⟨rfl, fun i hi => nomatch hi⟩⟩
    · subst h; exact ⟨.inr rfl, .inl ⟨rfl, fun i hi => nomatch hi⟩⟩

end

variable {D : DaemonDeps} {w w' : World} {rep : Reply}

theorem start_cases {io : Write AuditError} (h : w.step D (.start io) = some (rep, w')) :
    w.proc = none ∧ ∃ disk proc, startup D w.disk io = (rep, disk, proc) ∧
      w' = { w with disk, proc } := by
  simp only [World.step] at h
  split at h
  · cases h
  · next hp => cases h; exact ⟨hp, _, _, rfl, rfl⟩

/-- A `record` call is refused before the ledger, or is an append whose result
it reports. -/
theorem record_cases {actor body : String} {now : Int} {io : AppendIo}
    (h : w.step D (.record actor body now io) = some (rep, w')) :
    ∃ p, w.proc = some p ∧
      ((∃ reason, rep = .response (.unavailable reason) ∧ w' = w) ∨
        ∃ s a proc, accept D p actor body now = .ok s ∧ append D w.disk p.head s io = a ∧
          w' = w.appended D p s a.disk proc ∧
          (∀ q ∈ proc, q = { p with head := a.head }) ∧
          ∀ i, rep = .response (.appended i) → a.result = .ok i) := by
  simp only [World.step] at h
  split at h
  · cases h
  · next p hp =>
    refine ⟨p, hp, ?_⟩
    split at h
    · next reason _ => cases h; exact .inl ⟨reason, rfl, rfl⟩
    · next s hs =>
      right
      split at h
      · next i hi => cases h; exact ⟨s, _, _, hs, rfl, rfl, by simp, by simpa using hi⟩
      · cases h; exact ⟨s, _, _, hs, rfl, rfl, by simp, by simp⟩
      · cases h; exact ⟨s, _, _, hs, rfl, rfl, by simp, by simp⟩

end Arlen.Audit
