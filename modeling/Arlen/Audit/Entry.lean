import Arlen.Audit.Record

/-!
# Ledger entries and their chain hash (`audit-daemon/src/ledger/entry.rs`)

`hashedBytes` is the byte string an entry is hashed over: fixed-width integers,
length-prefixed fields and the previous hash. The keyed hash and the JSON
serialisers are parameters.
-/

namespace Arlen.Audit

open Arlen.Lib

/-- What the daemon takes from its dependencies: HMAC-SHA-256 under the ledger
key, and the JSON form of the types it stores. -/
structure Deps where
  mac : Bytes → Digest
  structural : Serde StructuralRecord
  forensic : Serde ForensicRecord

/-- What a caller submits, stamped with its attested actor and the time. -/
structure Submission where
  timestampMicros : Int
  kind : AuditKind
  actor : String
  structural : StructuralRecord
  forensic : Option ForensicRecord
  callChainId : Option String
  projectId : Option String
  deriving DecidableEq, Repr

/-- The `prev_hash` of the first entry. -/
def genesisPrevHash : Digest := .zero

structure AuditEntry extends Submission where
  index : Nat
  prevHash : Digest
  entryHash : Digest
  deriving DecidableEq, Repr

/-- The input of the chain hash. -/
def hashedBytes (D : Deps) (index : Nat) (s : Submission) (prevHash : Digest) : Bytes :=
  beBytes 8 index ++ beBytes 8 (asU64 s.timestampMicros) ++
    lengthPrefixed (utf8 s.kind.asStr) ++ lengthPrefixed (utf8 s.actor) ++
    lengthPrefixed (utf8 (D.structural.toStr s.structural)) ++
    (match s.forensic with
     | some f => 1 :: lengthPrefixed (utf8 (D.forensic.toStr f))
     | none => [0]) ++
    lengthPrefixed (utf8 (s.callChainId.getD "")) ++
    lengthPrefixed (utf8 (s.projectId.getD "")) ++ prevHash.bytes

def computeEntryHash (D : Deps) (index : Nat) (s : Submission) (prevHash : Digest) : Digest :=
  D.mac (hashedBytes D index s prevHash)

/-- The string an entry's own hash is taken over. -/
def AuditEntry.hashed (D : Deps) (e : AuditEntry) : Bytes :=
  hashedBytes D e.index e.toSubmission e.prevHash

/-- The string determines the entry's place in the chain. -/
theorem hashedBytes_index {D : Deps} {i j : Nat} {s t : Submission} {p q : Digest}
    (hi : i < 2 ^ 64) (hj : j < 2 ^ 64) (h : hashedBytes D i s p = hashedBytes D j t q) :
    i = j := by
  unfold hashedBytes at h
  simp only [List.append_assoc] at h
  exact beBytes_inj (w := 8) hi hj (List.append_inj h (by simp)).1

end Arlen.Audit
