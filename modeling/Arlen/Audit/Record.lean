import Arlen.Lib.Bytes

/-!
# Audit records (`contracts/audit-proto`)

The wire types of the audit daemon: the kinds, the structural and forensic
tiers, the ingest request with its size caps, and the reply.
-/

namespace Arlen.Audit

open Arlen.Lib

inductive AuditKind where
  | query
  | toolCall
  | confirm
  | policyViolation
  | graphAccess
  | permission
  | networkCall
  | appAction
  | capabilityChange
  deriving DecidableEq, Repr

namespace AuditKind

def asStr : AuditKind → String
  | query => "query"
  | toolCall => "tool_call"
  | confirm => "confirm"
  | policyViolation => "policy_violation"
  | graphAccess => "graph_access"
  | permission => "permission"
  | networkCall => "network_call"
  | appAction => "app_action"
  | capabilityChange => "capability_change"

def fromWire : String → Option AuditKind
  | "query" => some query
  | "tool_call" => some toolCall
  | "confirm" => some confirm
  | "policy_violation" => some policyViolation
  | "graph_access" => some graphAccess
  | "permission" => some permission
  | "network_call" => some networkCall
  | "app_action" => some appAction
  | "capability_change" => some capabilityChange
  | _ => none

@[simp] theorem fromWire_asStr (k : AuditKind) : fromWire k.asStr = some k := by
  cases k <;> rfl

end AuditKind

/-- The reach a capability-change record carries. -/
inductive CapabilityReach where
  | read (entityPattern : String)
  | write (entityPattern : String)
  | relation (source target relationType : String)
  | instanceAll
  | networkDomain (domain : String)
  | clipboardCap (cap : String)
  | notificationsOff
  | inputCap (cap : String)
  | searchCap (cap : String)
  | intentsCap (cap : String)
  | filesystemDir (dir : String)
  | filesystemPath (path : String)
  | eventBusSubscribe (pattern : String)
  | eventBusPublish (pattern : String)
  | systemCap (cap : String)
  deriving DecidableEq, Repr

structure StructuralRecord where
  subject : String
  nodeTypes : List String := []
  relations : List String := []
  resultCount : Option UInt64 := none
  durationMs : Option UInt64 := none
  outcome : String
  depth : Option UInt8 := none
  capabilityChange : Option CapabilityReach := none
  deriving DecidableEq, Repr

structure ForensicRecord where
  queryString : String
  parameters : String
  stackTrace : String
  deriving DecidableEq, Repr

structure IngestRequest where
  kind : AuditKind
  structural : StructuralRecord
  forensic : Option ForensicRecord := none
  callChainId : Option String := none
  projectId : Option String := none
  deriving DecidableEq, Repr

def maxSubjectLen : Nat := 256
def maxOutcomeLen : Nat := 128
def maxLabelLen : Nat := 128
def maxLabels : Nat := 64
def maxIdLen : Nat := 256

/-- The size caps, checked in this order; the error is the message of the first
one exceeded. -/
def IngestRequest.validate (r : IngestRequest) : Except String Unit :=
  let s := r.structural
  if s.subject.utf8ByteSize > maxSubjectLen then
    .error s!"invalid request: subject exceeds {maxSubjectLen} bytes"
  else if s.outcome.utf8ByteSize > maxOutcomeLen then
    .error s!"invalid request: outcome exceeds {maxOutcomeLen} bytes"
  else if s.nodeTypes.length > maxLabels ∨ s.relations.length > maxLabels then
    .error s!"invalid request: more than {maxLabels} labels"
  else if (s.nodeTypes ++ s.relations).any fun l => decide (l.utf8ByteSize > maxLabelLen) then
    .error s!"invalid request: a label exceeds {maxLabelLen} bytes"
  else if (r.callChainId.toList ++ r.projectId.toList).any
      fun i => decide (i.utf8ByteSize > maxIdLen) then
    .error s!"invalid request: an id exceeds {maxIdLen} bytes"
  else .ok ()

inductive IngestResponse where
  | appended (index : Nat)
  | unavailable (reason : String)
  deriving DecidableEq, Repr

end Arlen.Audit
