import Arlen.Knowledge.Profile

/-!
# Revoking a reach, and restoring it

`daemons/knowledge/src/revoke.rs`. A profile is edited in place, table by table, and
written only when the summary read back from the edit has shrunk (a revoke) or grown
(a restore). A profile file holds the document its text reads as; an array of tables
that an edit has emptied is not written.
-/

namespace Arlen.Knowledge

open Arlen.Lib.Toml

inductive RevokedReach where
  | read (entityPattern : String)
  | write (entityPattern : String)
  | relation (r : RelationPermission)
  | instanceAll
  | networkDomain (domain : String)
  | clipboardCap (cap : String)
  | notificationsOff
  | inputCap (cap : String)
  | searchCap (cap : String)
  | intentsCap (cap : String)
  | filesystemDir (dir : String)
  | filesystemPath (path : String)
  | eventBusSubscribe (pattern : String)
  | eventBusPublish (pattern : String)
  | systemCap (cap : String)
deriving DecidableEq, Repr

/-! ## Edits of one table -/

/-- Remove every element equal to `value`. -/
def removeStringFromArray (key value : String) (t : Table) : Bool × Table :=
  match (t.get key).bind Node.asArray with
  | some arr =>
    let kept := arr.filter (·.asStr ≠ some value)
    (kept.length ≠ arr.length, t.insert key (.array kept))
  | none => (false, t)

/-- Add `value` if it is not there, making the array if that is not. -/
def addStringToArray (key value : String) (t : Table) : Bool × Table :=
  match (t.get key).bind Node.asArray with
  | some arr =>
    if arr.any (·.asStr = some value) then (false, t)
    else (true, t.insert key (.array (arr ++ [.string value])))
  | none =>
    match t.get key with
    | none => (true, t.insert key (.array [.string value]))
    | some _ => (false, t)

/-- An absent flag is off. -/
def setBoolFlag (key : String) (target : Bool) (t : Table) : Bool × Table :=
  if ((t.get key).bind Node.asBool).getD false = target then (false, t)
  else (true, t.insert key (.boolean target))

/-- Whether a table is the given relation. -/
def isRelation (r : RelationPermission) (t : Table) : Bool :=
  (t.get "from").bind Node.asStr = some r.from && (t.get "to").bind Node.asStr = some r.to &&
    (t.get "type").bind Node.asStr = some r.relationType

/-- Whether an array's element is the given relation, in an inline table. -/
def isInlineRelation (r : RelationPermission) (n : Node) : Bool :=
  match n.asTable with
  | some t => isRelation r t
  | none => false

/-- Relations are an inline array or an array of tables. -/
def removeRelation (r : RelationPermission) (t : Table) : Bool × Table :=
  match (t.get "relations").bind Node.asArray with
  | some arr =>
    let kept := arr.filter fun n => !isInlineRelation r n
    (kept.length ≠ arr.length, t.insert "relations" (.array kept))
  | none =>
    match (t.get "relations").bind Node.asTables with
    | some tables =>
      let kept := tables.filter fun t => !isRelation r t
      (kept.length ≠ tables.length, t.insert "relations" (.tables kept))
    | none => (false, t)

def relationEntry (r : RelationPermission) : Node :=
  .table [("from", .string r.from), ("to", .string r.to), ("type", .string r.relationType)]

def addRelation (r : RelationPermission) (t : Table) : Bool × Table :=
  let presentInline := (((t.get "relations").bind Node.asArray).getD []).any (isInlineRelation r)
  let presentTables := (((t.get "relations").bind Node.asTables).getD []).any (isRelation r)
  if presentInline || presentTables then (false, t)
  else
    match (t.get "relations").bind Node.asArray with
    | some arr => (true, t.insert "relations" (.array (arr ++ [relationEntry r])))
    | none =>
      match t.get "relations" with
      | none => (true, t.insert "relations" (.array [relationEntry r]))
      | some _ => (false, t)

/-- `eq_ignore_ascii_case` with `all`. -/
def isAll (s : String) : Bool := s.toList.map Char.toLower = ['a', 'l', 'l']

def instanceIsAll (t : Table) : Bool :=
  (((t.get "instance_scope").bind Node.asStr).map isAll).getD false

def demoteInstance (t : Table) : Bool × Table :=
  if instanceIsAll t then (true, t.insert "instance_scope" (.string "own")) else (false, t)

def promoteInstance (t : Table) : Bool × Table :=
  if instanceIsAll t then (false, t) else (true, t.insert "instance_scope" (.string "all"))

/-! ## Edits of a document -/

/-- A flag of a section, one of the section's own. -/
def setCap (doc : Table) (caps : List String) (cap : String) (target : Bool)
    (inSection : (Table → Bool × Table) → Bool × Table) : Bool × Table :=
  if cap ∈ caps then inSection (setBoolFlag cap target) else (false, doc)

def applyRevoke (doc : Table) : RevokedReach → Bool × Table
  | .networkDomain domain =>
    doc.inTable "network" (removeStringFromArray "allowed_domains" domain)
  | .clipboardCap cap => setCap doc clipboardCaps cap false (doc.inTable "clipboard")
  | .notificationsOff => doc.inTable "notifications" (setBoolFlag "enabled" false)
  | .inputCap cap => setCap doc inputCaps cap false (doc.inTable "input")
  | .searchCap cap => setCap doc searchCaps cap false (doc.inTable "search")
  | .intentsCap cap => setCap doc intentsCaps cap false (doc.inTable "intents")
  | .filesystemDir dir => setCap doc fsDirs dir false (doc.inTable "filesystem")
  | .filesystemPath path => doc.inTable "filesystem" (removeStringFromArray "custom" path)
  | .eventBusSubscribe pattern =>
    doc.inTable "event_bus" (removeStringFromArray "subscribe" pattern)
  | .eventBusPublish pattern => doc.inTable "event_bus" (removeStringFromArray "publish" pattern)
  | .systemCap cap =>
    setCap doc systemCaps cap false fun f =>
      doc.inTable "system" fun system =>
        if systemCapIsPower cap then system.inTable "power" f else f system
  | .read pattern => doc.inTable "graph" (removeStringFromArray "read" pattern)
  | .write pattern => doc.inTable "graph" (removeStringFromArray "write" pattern)
  | .relation r => doc.inTable "graph" (removeRelation r)
  | .instanceAll => doc.inTable "graph" demoteInstance

/-- Edit the table under a key, made first if there is none. -/
def inEnsured (t : Table) (k : String) (f : Table → Bool × Table) : Bool × Table :=
  (t.ensureTable k).inTable k f

def applyRestore (doc : Table) : RevokedReach → Bool × Table
  | .networkDomain domain =>
    inEnsured doc "network" (addStringToArray "allowed_domains" domain)
  | .clipboardCap cap => setCap doc clipboardCaps cap true (inEnsured doc "clipboard")
  | .notificationsOff => inEnsured doc "notifications" (setBoolFlag "enabled" true)
  | .inputCap cap => setCap doc inputCaps cap true (inEnsured doc "input")
  | .searchCap cap => setCap doc searchCaps cap true (inEnsured doc "search")
  | .intentsCap cap => setCap doc intentsCaps cap true (inEnsured doc "intents")
  | .filesystemDir dir => setCap doc fsDirs dir true (inEnsured doc "filesystem")
  | .filesystemPath path => inEnsured doc "filesystem" (addStringToArray "custom" path)
  | .eventBusSubscribe pattern =>
    inEnsured doc "event_bus" (addStringToArray "subscribe" pattern)
  | .eventBusPublish pattern => inEnsured doc "event_bus" (addStringToArray "publish" pattern)
  | .systemCap cap =>
    setCap doc systemCaps cap true fun f =>
      inEnsured doc "system" fun system =>
        if systemCapIsPower cap then inEnsured system "power" f else f system
  | .read pattern => inEnsured doc "graph" (addStringToArray "read" pattern)
  | .write pattern => inEnsured doc "graph" (addStringToArray "write" pattern)
  | .relation r => inEnsured doc "graph" (addRelation r)
  | .instanceAll => inEnsured doc "graph" promoteInstance

/-! ## The profile on disk -/

/-- What the document's text reads as: of the arrays of tables an edit can empty
there is one. -/
def written (doc : Table) : Table :=
  match (doc.get "graph").bind Node.asTable with
  | some graph =>
    match (graph.get "relations").bind Node.asTables with
    | some [] => doc.insert "graph" (.table (graph.remove "relations"))
    | _ => doc
  | none => doc

inductive ProfileFile where
  | absent
  | garbled
  | doc (doc : Table)

/-- What a call of the system meets: nothing, a failing read or a failing write. -/
inductive IoFault where
  | none
  | read
  | write
deriving DecidableEq, Repr

inductive IoErrorKind where
  | invalidData
  | other
deriving DecidableEq, Repr

inductive RevokeOutcome where
  | revoked
  | noChange
  | notNarrowing
  | notFound
  | required
deriving DecidableEq, Repr

inductive RestoreOutcome where
  | restored
  | noChange
  | notPermitted
  | notFound
deriving DecidableEq, Repr

def profileOf : ProfileFile → Option PermissionProfile
  | .doc doc => PermissionProfile.fromDoc doc.get
  | _ => none

def summarize (file : ProfileFile) : Option ScopeSummary :=
  (profileOf file).map ScopeSummary.fromProfile

def reachIsRequired (required : List String) : RevokedReach → Bool
  | .read pattern => pattern ∈ required
  | .write pattern => pattern ∈ required
  | _ => false

def revokeAt (file : ProfileFile) (fault : IoFault) (reach : RevokedReach) :
    Except IoErrorKind RevokeOutcome × ProfileFile :=
  match file with
  | .absent => (.ok .notFound, file)
  | .garbled => (.error (if fault = .read then .other else .invalidData), file)
  | .doc doc =>
    if fault = .read then (.error .other, file)
    else
      match PermissionProfile.fromDoc doc.get with
      | none => (.error .invalidData, file)
      | some oldProfile =>
        if reachIsRequired oldProfile.graph.required reach then (.ok .required, file)
        else
          match applyRevoke doc reach with
          | (false, _) => (.ok .noChange, file)
          | (true, doc') =>
            match PermissionProfile.fromDoc (written doc').get with
            | none => (.error .invalidData, file)
            | some newProfile =>
              if isStrictNarrowing (.fromProfile oldProfile) (.fromProfile newProfile) = false then
                (.ok .notNarrowing, file)
              else if fault = .write then (.error .other, file)
              else (.ok .revoked, .doc (written doc'))

/-! ## The removal ledger -/

/-- The reaches revoked and not yet restored. -/
abbrev RemovalLedger := List RevokedReach

def RemovalLedger.record (ledger : RemovalLedger) (reach : RevokedReach) : RemovalLedger :=
  if reach ∈ ledger then ledger else ledger ++ [reach]

def RemovalLedger.clear (ledger : RemovalLedger) (reach : RevokedReach) : RemovalLedger :=
  ledger.filter (· ≠ reach)

def outcomeRevoked : String := "revoked"

def outcomeRestored : String := "restored"

/-- The records of an app, oldest first, made into the ledger. -/
def foldRemovalLedger (records : List (String × RevokedReach)) : RemovalLedger :=
  records.foldl (fun ledger (outcome, reach) =>
    if outcome = outcomeRevoked then ledger.record reach
    else if outcome = outcomeRestored then ledger.clear reach
    else ledger) []

def restoreAt (file : ProfileFile) (fault : IoFault) (reach : RevokedReach)
    (ledger : RemovalLedger) : Except IoErrorKind RestoreOutcome × ProfileFile :=
  match file with
  | .absent => (.ok .notFound, file)
  | .garbled =>
    if reach ∉ ledger then (.ok .notPermitted, file)
    else (.error (if fault = .read then .other else .invalidData), file)
  | .doc doc =>
    if reach ∉ ledger then (.ok .notPermitted, file)
    else if fault = .read then (.error .other, file)
    else
      match PermissionProfile.fromDoc doc.get with
      | none => (.error .invalidData, file)
      | some oldProfile =>
        match applyRestore doc reach with
        | (false, _) => (.ok .noChange, file)
        | (true, doc') =>
          match PermissionProfile.fromDoc (written doc').get with
          | none => (.error .invalidData, file)
          | some newProfile =>
            if isStrictWidening (.fromProfile oldProfile) (.fromProfile newProfile) = false then
              (.ok .notPermitted, file)
            else if fault = .write then (.error .other, file)
            else (.ok .restored, .doc (written doc'))

end Arlen.Knowledge
