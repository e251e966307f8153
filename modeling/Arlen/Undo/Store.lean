import Arlen.Lib.HashChain
import Arlen.Lib.Lines
import Arlen.Lib.Write
import Arlen.Undo.Log

/-!
# The signer's store (`ai-undo-core/src/undo_log.rs`, `ai-undo-signer/src/{store,checkpoint,key}.rs`)

The log file with one chained line per record, the key file, the head checkpoint
and the operations of `SignerStore` on them. The HMAC and the JSON serialiser
are parameters. The signer's directory is made and clamped before each open and
the key file is a regular file of mode 0600; neither is modelled.
-/

namespace Arlen.Undo

open Arlen.Lib

/-! ## Parameters -/

/-- One line of the log file. -/
structure ChainedLine where
  record : LogRecord
  hash : Digest
  deriving DecidableEq, Repr

structure Checkpoint where
  count : Nat
  headHex : String
  deriving DecidableEq, Repr

structure Deps where
  /-- HMAC-SHA256 of a message under a key. -/
  mac : Bytes → Bytes → Digest
  record : Serde LogRecord
  line : Serde ChainedLine
  checkpoint : Serde Checkpoint
  /-- The characters `Debug` prints as they are, of those it has no short escape for. -/
  printable : Char → Bool
  /-- The signer's state directory. -/
  dir : String

/-- One character of a string, as `Debug` prints it. -/
def escapeDebug (D : Deps) (c : Char) : String :=
  if c.toNat = 0 then "\\0"
  else if c = '\t' then "\\t"
  else if c = '\r' then "\\r"
  else if c = '\n' then "\\n"
  else if c = '"' then "\\\""
  else if c = '\\' then "\\\\"
  else if D.printable c then c.toString
  else "\\u\x7b" ++ String.ofList (Nat.toDigits 16 c.toNat) ++ "\x7d"

/-- A string, as `Debug` prints it. -/
def debugStr (D : Deps) (s : String) : String :=
  "\"" ++ String.join (s.toList.map (escapeDebug D)) ++ "\""

inductive SignerError where
  | keyUnavailable (message : String)
  | storage (message : String)
  | illegalRecord (message : String)
  deriving DecidableEq, Repr

def SignerError.toStr : SignerError → String
  | keyUnavailable message => s!"undo-log signing key unavailable: {message}"
  | storage message => s!"undo-log storage error: {message}"
  | illegalRecord message => s!"undo-log submission rejected: {message}"

/-! ## The chained log file -/

def genesisPrevHash : Digest := .zero

/-- The string a record's hash is taken over. -/
def chainInput (D : Deps) (prevHash : Digest) (record : LogRecord) : Bytes :=
  prevHash.bytes ++ utf8 (D.record.toStr record)

def computeChainHash (D : Deps) (key : Bytes) (prevHash : Digest) (record : LogRecord) : Digest :=
  D.mac key (chainInput D prevHash record)

/-- A 32-byte signing key. -/
@[ext]
structure Key where
  bytes : Bytes
  size : bytes.length = 32
  deriving Repr

instance : DecidableEq Key := fun a b => decidable_of_iff (a.bytes = b.bytes) Key.ext_iff.symm

structure FileUndoLog where
  key : Key
  hashes : List Digest
  log : UndoLog
  deriving DecidableEq, Repr

namespace FileUndoLog

def recordCount (f : FileUndoLog) : Nat := f.hashes.length

def headHash (f : FileUndoLog) : Digest := f.hashes.getLastD genesisPrevHash

def hashAt (f : FileUndoLog) (index : Nat) : Option Digest := f.hashes[index]?

/-- The log after a record is chained to it. -/
def push (D : Deps) (f : FileUndoLog) (record : LogRecord) : FileUndoLog where
  key := f.key
  hashes := f.hashes ++ [computeChainHash D f.key.bytes f.headHash record]
  log := f.log ++ [record]

/-- The line `append_record` writes, with its line feed. -/
def lineFor (D : Deps) (f : FileUndoLog) (record : LogRecord) : String :=
  D.line.toStr ⟨record, computeChainHash D f.key.bytes f.headHash record⟩ ++ "\n"

end FileUndoLog

/-- The loop of `load` over the non-blank lines, from the head before them. -/
def loadFrom (D : Deps) (key : Bytes) :
    Nat → Digest → List String → Except String (List LogRecord × List Digest)
  | _, _, [] => .ok ([], [])
  | i, head, line :: rest =>
    match D.line.fromStr line with
    | .error e => .error e
    | .ok chained =>
      if computeChainHash D key head chained.record ≠ chained.hash then
        .error s!"broken undo-log chain at record {i}"
      else
        match loadFrom D key (i + 1) chained.hash rest with
        | .error e => .error e
        | .ok (records, hashes) => .ok (chained.record :: records, chained.hash :: hashes)

/-- The lines of a log file that hold a record. -/
def recordLines (content : String) : List String := (lines content).filter fun l => !isBlank l

/-- `FileUndoLog::load`. -/
def load (D : Deps) (key : Key) (content : Bytes) : Except String FileUndoLog :=
  match decodeUtf8 content with
  | none => .error "stream did not contain valid UTF-8"
  | some text =>
    match loadFrom D key.bytes 0 genesisPrevHash (recordLines text) with
    | .error e => .error e
    | .ok (records, hashes) => .ok { key, hashes, log := records }

/-! ## The disk -/

/-- What survives the process; `none` where there is no such file. -/
structure Disk where
  key : Option Bytes := none
  log : Option Bytes := none
  checkpoint : Option String := none
  deriving DecidableEq, Repr

/-- The bytes of the log file, none of them before it is created. -/
def Disk.content (disk : Disk) : Bytes := disk.log.getD []

def logHasRecords (disk : Disk) : Bool := disk.content.length > 0

def keyPath (D : Deps) : String := D.dir ++ "/hmac.key"

def checkpointPath (D : Deps) : String := D.dir ++ "/head.checkpoint"

def readKey (D : Deps) (bytes : Bytes) : Except SignerError Key :=
  if h : bytes.length = 32 then .ok ⟨bytes, h⟩
  else .error (.keyUnavailable
    s!"key file {keyPath D} holds {bytes.length} bytes, expected {32}")

/-- `key::load_or_create`; `fresh` is what the system's generator gives. -/
def loadOrCreate (D : Deps) (disk : Disk) (fresh : Key) : Except SignerError Key :=
  match disk.key with
  | some bytes => readKey D bytes
  | none =>
    if logHasRecords disk then
      .error (.keyUnavailable (s!"key file {keyPath D} is missing but the undo-log already holds " ++
        "records; refusing to generate a new key, which would invalidate the chain"))
    else .ok fresh

/-! ## The head checkpoint -/

inductive StartupCheck where
  | consistent
  | genesis
  | tampered (detail : String)
  deriving DecidableEq, Repr

/-- Tampering, whatever the detail. -/
def StartupCheck.isTampered : StartupCheck → Bool
  | tampered _ => true
  | _ => false

namespace Checkpoint

def read (D : Deps) (disk : Disk) : Except SignerError (Option Checkpoint) :=
  match disk.checkpoint with
  | none => .ok none
  | some text =>
    match D.checkpoint.fromStr text with
    | .ok cp => .ok (some cp)
    | .error e => .error (.storage s!"checkpoint at {checkpointPath D} is corrupt: {e}")

/-- The checkpoint of a log's head. -/
def ofLog (f : FileUndoLog) : Checkpoint where
  count := f.recordCount
  headHex := hex f.headHash.bytes

/-- `checkpoint::write`: the rename puts the whole text in place. -/
def write (D : Deps) (cp : Checkpoint) (disk : Disk) : Except SignerError Disk :=
  .ok { disk with checkpoint := some (D.checkpoint.toStr cp) }

/-- The log's hash at the record a checkpoint witnessed. -/
def headAt (f : FileUndoLog) : Except SignerError (Option Checkpoint) → Option String
  | .ok (some cp) => if cp.count ≥ 1 then (f.hashAt (cp.count - 1)).map fun h => hex h.bytes else none
  | _ => none

def assessStartup (read : Except SignerError (Option Checkpoint)) (logEmpty : Bool)
    (headAtCheckpoint : Option String) : StartupCheck :=
  match read with
  | .ok none =>
    if logEmpty then .genesis
    else .tampered ("head checkpoint missing for a non-empty undo-log " ++
      "(the truncation witness was removed)")
  | .ok (some cp) =>
    match headAtCheckpoint with
    | none => .tampered s!"undo-log has no record at checkpoint count {cp.count} (truncated)"
    | some hash =>
      if hash ≠ cp.headHex then
        .tampered (s!"undo-log head hash at checkpoint count {cp.count} does not match the " ++
          "checkpoint (checkpoint or log mutated)")
      else .consistent
  | .error e => .tampered s!"head checkpoint present but unreadable: {e.toStr}"

end Checkpoint

/-! ## Opening -/

/-- How a call that writes ends. -/
inductive Outcome (α : Type) where
  | ok (a : α)
  | error (e : SignerError)
  | crashed
  deriving DecidableEq, Repr

/-- The startup check of a loaded log against the checkpoint file. -/
def assess (D : Deps) (disk : Disk) (f : FileUndoLog) : StartupCheck :=
  let read := Checkpoint.read D disk
  Checkpoint.assessStartup read (f.recordCount = 0) (Checkpoint.headAt f read)

/-- The end of an open: a log with records has its checkpoint put at its head. -/
def reseed (D : Deps) (disk : Disk) (f : FileUndoLog) (io : Write SignerError) :
    Outcome FileUndoLog × Disk :=
  if f.recordCount > 0 then
    match io.run (Checkpoint.write D (.ofLog f)) disk with
    | .done disk => (.ok f, disk)
    | .failed e disk => (.error e, disk)
    | .crashed disk => (.crashed, disk)
  else (.ok f, disk)

/-- The files an open finds or makes before it loads. -/
def Disk.prepare (disk : Disk) (key : Key) : Disk :=
  { disk with key := some key.bytes, log := some disk.content }

/-- `SignerStore::open_in`. -/
def openIn (D : Deps) (disk : Disk) (fresh : Key) (io : Write SignerError) :
    Outcome FileUndoLog × Disk :=
  match loadOrCreate D disk fresh with
  | .error e => (.error e, disk)
  | .ok key =>
    let disk := disk.prepare key
    match load D key disk.content with
    | .error e => (.error (.storage s!"opening the chained undo-log: {e}"), disk)
    | .ok f =>
      match assess D disk f with
      | .tampered detail => (.error (.storage s!"undo-log integrity: {detail}"), disk)
      | .genesis => reseed D disk f io
      | .consistent => reseed D disk f io

/-! ## Sealing -/

/-- How the writes of one sealing go. -/
structure SealIo where
  append : AppendWrite String := .done
  checkpoint : Write SignerError := .done
  deriving DecidableEq, Repr

structure Sealed where
  outcome : Outcome Unit
  disk : Disk
  store : FileUndoLog
  deriving DecidableEq, Repr

/-- The append and the checkpoint of `submit_created` and `transition`. The log
in memory takes the record only when its write and fsync went through. -/
def sealRecord (D : Deps) (what : String) (disk : Disk) (f : FileUndoLog) (record : LogRecord)
    (io : SealIo) : Sealed :=
  match disk.log with
  | none =>
    { outcome := .error (.storage
        s!"appending an undo-log {what}: No such file or directory (os error 2)")
      disk, store := f }
  | some content =>
    match io.append.run (utf8 (f.lineFor D record)) content with
    | .failed e log =>
      { outcome := .error (.storage s!"appending an undo-log {what}: {e}")
        disk := { disk with log := some log }, store := f }
    | .crashed log => { outcome := .crashed, disk := { disk with log := some log }, store := f }
    | .done log =>
      let f := f.push D record
      match io.checkpoint.run (Checkpoint.write D (.ofLog f)) { disk with log := some log } with
      | .done disk => { outcome := .ok (), disk, store := f }
      | .failed e disk => { outcome := .error e, disk, store := f }
      | .crashed disk => { outcome := .crashed, disk, store := f }

/-- The seal time: microseconds since the epoch, 0 when the clock is before it. -/
def sealTime (now : Option Nat) : Int :=
  match now with
  | some micros => asI64 micros
  | none => 0

/-- A request refused before anything is written. -/
def refuse (disk : Disk) (f : FileUndoLog) (message : String) : Sealed :=
  { outcome := .error (.illegalRecord message), disk, store := f }

def submitCreated (D : Deps) (disk : Disk) (f : FileUndoLog) (entry : UndoEntry)
    (now : Option Nat) (io : SealIo) : Sealed :=
  if (f.log.entry entry.opId).isSome then
    refuse disk f s!"op_id {debugStr D entry.opId} already has a sealed entry"
  else sealRecord D "entry" disk f (.created entry (sealTime now)) io

def transition (D : Deps) (disk : Disk) (f : FileUndoLog) (opId : String) (state : UndoState)
    (io : SealIo) : Sealed :=
  match f.log.currentState opId with
  | none => refuse disk f s!"no sealed entry for op_id {debugStr D opId} to transition"
  | some (.error e) =>
    refuse disk f s!"op_id {debugStr D opId} chain is already corrupt: {e}"
  | some (.ok current) =>
    if current.canTransitionTo state then
      sealRecord D "transition" disk f (.transition opId state) io
    else
      refuse disk f (s!"illegal transition {current.debug} -> {state.debug} for op_id " ++
        debugStr D opId)

end Arlen.Undo
