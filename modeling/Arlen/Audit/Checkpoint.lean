import Arlen.Audit.Store

/-!
# The head checkpoint (`audit-daemon/src/checkpoint.rs`)

The witness kept outside the table: the index and hash of the newest entry. At
startup the entry it names must still be there with the same hash.
-/

namespace Arlen.Audit

open Arlen.Lib

structure Checkpoint where
  index : Nat
  entryHashHex : String
  attestationHex : String := ""
  deriving DecidableEq, Repr

inductive StartupCheck where
  | consistent
  | genesis
  | tampered (detail : String)
  deriving DecidableEq, Repr

/-- Tampering, whatever the detail. -/
def StartupCheck.isTampered : StartupCheck → Bool
  | tampered _ => true
  | _ => false

namespace Checkpoint

/-- Read the file's text, `none` when there is no file. -/
def read (c : Serde Checkpoint) : Option String → Except AuditError (Option Checkpoint)
  | none => .ok none
  | some text =>
    match c.fromStr text with
    | .ok cp => .ok (some cp)
    | .error e => .error (.storage s!"checkpoint is corrupt: {e}")

/-- The startup verdict, from the file, whether the ledger is empty, and the
ledger's hash at the index the checkpoint names. -/
def assessStartup (read : Except AuditError (Option Checkpoint)) (ledgerEmpty : Bool)
    (entryHashAtCheckpoint : Option String) : StartupCheck :=
  match read with
  | .ok none =>
    if ledgerEmpty then .genesis
    else
      .tampered "head checkpoint missing for a non-empty ledger (the truncation witness was removed)"
  | .ok (some cp) =>
    match entryHashAtCheckpoint with
    | none => .tampered s!"ledger has no entry at checkpoint index {cp.index} (truncated)"
    | some hash =>
      if hash ≠ cp.entryHashHex then
        .tampered (s!"ledger entry hash at checkpoint index {cp.index} does not match the " ++
          "checkpoint (checkpoint or entry mutated)")
      else .consistent
  | .error e => .tampered s!"head checkpoint present but unreadable: {e.toStr}"

end Checkpoint

end Arlen.Audit
