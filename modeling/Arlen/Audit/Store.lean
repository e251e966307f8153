import Mathlib.Data.List.Sort
import Arlen.Audit.Entry

/-!
# The ledger store (`audit-daemon/src/ledger/store.rs`)

The table `audit_entries` and the operations on it: the `INSERT` of an append,
the chain head read at open, the hash lookup of the startup witness and the
verifier. A `NOT NULL` column holds a `SqlValue`, a nullable one an `Option`;
the text of a database error is the database's own and only stands in here.
-/

namespace Arlen.Audit

open Arlen.Lib

inductive AuditError where
  | storage (message : String)
  | ledgerFull
  | chainBroken (index : Nat) (detail : String)
  deriving DecidableEq, Repr

def AuditError.toStr : AuditError → String
  | storage message => s!"ledger storage: {message}"
  | ledgerFull => "audit ledger is full"
  | chainBroken index detail => s!"audit chain broken at index {index}: {detail}"

/-! ## Rows -/

/-- A value a database column can hold. `badText` is text that is not UTF-8. -/
inductive SqlValue where
  | integer (i : Int)
  | real
  | text (s : String)
  | badText (b : Bytes)
  | blob (b : Bytes)
  deriving DecidableEq, Repr

structure Row where
  /-- `INTEGER PRIMARY KEY`: a 64-bit integer whatever is written to it. -/
  idx : Int
  timestamp : SqlValue
  kind : SqlValue
  actor : SqlValue
  structural : SqlValue
  forensic : Option SqlValue
  callChainId : Option SqlValue
  projectId : Option SqlValue
  prevHash : SqlValue
  entryHash : SqlValue
  deriving DecidableEq, Repr

namespace SqlValue

/-- The error of a `try_get` at the wrong type. -/
def mismatch (column : String) : AuditError := .storage s!"error decoding column {column}"

def getInt (column : String) : SqlValue → Except AuditError Int
  | integer i => .ok i
  | _ => .error (mismatch column)

def getString (column : String) : SqlValue → Except AuditError String
  | text s => .ok s
  | _ => .error (mismatch column)

def getOptString (column : String) : Option SqlValue → Except AuditError (Option String)
  | none => .ok none
  | some v => (getString column v).map some

/-- Bytes are read from text as well as from a blob. -/
def getBytes (column : String) : SqlValue → Except AuditError Bytes
  | blob b => .ok b
  | text s => .ok (utf8 s)
  | badText b => .ok b
  | _ => .error (mismatch column)

end SqlValue

/-- A hash column of the wrong length is a corrupt ledger. -/
def toHash (b : Bytes) : Except AuditError Digest :=
  match Digest.ofBytes? b with
  | some d => .ok d
  | none => .error (.storage s!"corrupt hash column: expected 32 bytes, found {b.length}")

def decodeForensic (D : Deps) : Option String → Except AuditError (Option ForensicRecord)
  | none => .ok none
  | some j =>
    match D.forensic.fromStr j with
    | .ok f => .ok (some f)
    | .error e => .error (.storage s!"decode forensic: {e}")

def decodeRow (D : Deps) (row : Row) : Except AuditError AuditEntry := do
  let timestamp ← SqlValue.getInt "timestamp" row.timestamp
  let kindStr ← SqlValue.getString "kind" row.kind
  let kind ← match AuditKind.fromWire kindStr with
    | some k => .ok k
    | none => .error (.storage s!"unknown audit kind '{kindStr}'")
  let actor ← SqlValue.getString "actor" row.actor
  let structuralJson ← SqlValue.getString "structural" row.structural
  let structural ← match D.structural.fromStr structuralJson with
    | .ok s => .ok s
    | .error e => .error (.storage s!"decode structural: {e}")
  let forensicJson ← SqlValue.getOptString "forensic" row.forensic
  let forensic ← decodeForensic D forensicJson
  let callChainId ← SqlValue.getOptString "call_chain_id" row.callChainId
  let projectId ← SqlValue.getOptString "project_id" row.projectId
  let prevBytes ← SqlValue.getBytes "prev_hash" row.prevHash
  let entryBytes ← SqlValue.getBytes "entry_hash" row.entryHash
  let prevHash ← toHash prevBytes
  let entryHash ← toHash entryBytes
  return { index := asU64 row.idx, timestampMicros := timestamp, kind, actor, structural, forensic,
           callChainId, projectId, prevHash, entryHash }

/-- The row an append writes for an entry. -/
def Row.ofEntry (D : Deps) (e : AuditEntry) : Row where
  idx := asI64 e.index
  timestamp := .integer e.timestampMicros
  kind := .text e.kind.asStr
  actor := .text e.actor
  structural := .text (D.structural.toStr e.structural)
  forensic := e.forensic.map fun f => .text (D.forensic.toStr f)
  callChainId := e.callChainId.map .text
  projectId := e.projectId.map .text
  prevHash := .blob e.prevHash.bytes
  entryHash := .blob e.entryHash.bytes

/-! ## The chain head -/

/-- The chain head a ledger keeps in memory. -/
structure Head where
  nextIndex : Nat
  prevHash : Digest
  deriving DecidableEq, Repr

namespace Head

/-- The head of an empty ledger. -/
def genesis : Head := ⟨0, genesisPrevHash⟩

/-- The entry an append makes of a submission. -/
def sealEntry (D : Deps) (h : Head) (s : Submission) : AuditEntry :=
  { s with
    index := h.nextIndex
    prevHash := h.prevHash
    entryHash := computeEntryHash D h.nextIndex s h.prevHash }

/-- The head after that append. -/
def advance (D : Deps) (h : Head) (s : Submission) : Head :=
  ⟨h.nextIndex + 1, (h.sealEntry D s).entryHash⟩

/-- `(index, hash)` of the last entry, for the checkpoint; `none` when empty. -/
def forCheckpoint (h : Head) : Option (Nat × String) :=
  if h.nextIndex = 0 then none else some (h.nextIndex - 1, hex h.prevHash.bytes)

end Head

/-! ## The table -/

/-- The rows of `audit_entries`, in the order they were written. -/
abbrev Table := List Row

/-- The largest database file is 281474976579584 bytes, and a row takes one at
least: beyond this an `INSERT` fails with `SQLITE_FULL`. -/
def maxRows : Nat := 281474976579584

namespace Table

/-- `ORDER BY idx ASC`. -/
def ordered (t : Table) : List Row := t.insertionSort fun a b => a.idx ≤ b.idx

/-- `INSERT`: the primary key is unique and the file bounded. -/
def insert (t : Table) (row : Row) : Except AuditError Table :=
  if t.any fun r => r.idx == row.idx then
    .error (.storage "UNIQUE constraint failed: audit_entries.idx")
  else if t.length ≥ maxRows then .error .ledgerFull
  else .ok (t ++ [row])

/-- The head after the last entry on disk. -/
def loadHead (t : Table) : Except AuditError Head :=
  match t.ordered.getLast? with
  | none => .ok .genesis
  | some r => do
    let bytes ← SqlValue.getBytes "entry_hash" r.entryHash
    let hash ← toHash bytes
    return ⟨(asU64 r.idx + 1) % 2 ^ 64, hash⟩

/-- The hash, in hex, of the entry at `index`. -/
def entryHashHexAt (t : Table) (index : Nat) : Except AuditError (Option String) :=
  match t.find? fun r => r.idx == asI64 index with
  | none => .ok none
  | some r => (SqlValue.getBytes "entry_hash" r.entryHash).map fun b => some (hex b)

/-- The verifier's walk, from an expected index and previous hash. -/
def verifyFrom (D : Deps) : List Row → Head → Except AuditError Nat
  | [], expected => .ok expected.nextIndex
  | row :: rows, expected => do
    let entry ← decodeRow D row
    if entry.index ≠ expected.nextIndex then
      .error (.chainBroken entry.index
        s!"expected index {expected.nextIndex}, found {entry.index}")
    else if entry.prevHash ≠ expected.prevHash then
      .error (.chainBroken entry.index "prev_hash does not link to the previous entry")
    else if D.mac (entry.hashed D) ≠ entry.entryHash then
      .error (.chainBroken entry.index "entry_hash does not match the recomputed HMAC")
    else verifyFrom D rows ⟨expected.nextIndex + 1, entry.entryHash⟩

def verify (D : Deps) (t : Table) : Except AuditError Nat := verifyFrom D t.ordered .genesis

end Table

end Arlen.Audit
