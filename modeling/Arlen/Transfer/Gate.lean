import Arlen.Audit.Record
import Arlen.Lib.Str
import Arlen.Lib.Text

/-!
# The transfer gate

`daemons/transfer-daemon`: a request names two profiles, a flow type and a payload. The gate
asks whether the caller may ask at all, whether the request is well formed and names the
profiles it is decided for, and what the directional policy says; the verdict goes to both
profiles' ledgers before an approval is minted. The policy and the ledgers read the flow
type of the request; the delivery reads the kind of its payload. Nothing compares the two.
-/

namespace Arlen.Transfer

open Arlen.Lib Arlen.Audit

/-! ## Requests -/

def maxSourcePathLen : Nat := 4096

def isValidProfileName (name : String) : Bool :=
  !name.isEmpty
    && name ≠ ".."
    && !startsWith name "."
    && !endsWith name "."
    && !Text.contains "..".toList name.toList
    && !Text.contains ['\x00'] name.toList
    && name.toList.all fun c => c.isLower || c.isDigit || c = '.' || c = '_' || c = '-'

/-- A stable profile name, safe in a path and in a log line. -/
structure ProfileId where
  name : String
  valid : isValidProfileName name = true
deriving DecidableEq

def ProfileId.new (name : String) : Option ProfileId :=
  if h : isValidProfileName name = true then some ⟨name, h⟩ else none

inductive TransferType where
  | clipboard
  | file
deriving DecidableEq, Repr

def TransferType.asStr : TransferType → String
  | clipboard => "clipboard"
  | file => "file"

/-- A reference to what is moved, never its bytes. -/
inductive PayloadRef where
  | clipboard (handle : String)
  | file (sourcePath : String)
deriving DecidableEq, Repr

structure TransferRequest where
  source : ProfileId
  dest : ProfileId
  ty : TransferType
  payload : PayloadRef
deriving DecidableEq

inductive RequestError where
  | pathTooLong
  | payloadNul
  | emptyPayload
deriving DecidableEq, Repr

def TransferRequest.validate (r : TransferRequest) : Except RequestError Unit :=
  let reference := match r.payload with
    | .clipboard handle => handle
    | .file sourcePath => sourcePath
  if reference.isEmpty then .error .emptyPayload
  else if Text.contains ['\x00'] reference.toList then .error .payloadNul
  else
    match r.payload with
    | .file sourcePath =>
      if sourcePath.utf8ByteSize > maxSourcePathLen then .error .pathTooLong else .ok ()
    | .clipboard _ => .ok ()

/-! ## Who may ask, and the policy -/

/-- How the daemon was built; a debug build reads `ARLEN_TRANSFER_EXTRA_ADMIT`. -/
inductive Build where
  | release
  | debug (extraAdmit : Option String)

def requesters : List String := ["dev.arlen.desktop-shell", "dev.arlen.settings"]

def devRequesters : List String := ["dev.arlen-desktop-shell", "dev.arlen-settings"]

def callerIsAdmitted (build : Build) (appId : String) : Bool :=
  requesters.contains appId ||
    match build with
    | .release => false
    | .debug extraAdmit => devRequesters.contains appId || extraAdmit == some appId

inductive Verdict where
  | allow
  | deny
deriving DecidableEq, Repr

structure TransferRule where
  source : ProfileId
  dest : ProfileId
  ty : TransferType
  allow : Bool
deriving DecidableEq

structure TransferPolicy where
  rules : List TransferRule := []

structure ProfileRef where
  id : ProfileId
  isLocked : Bool
deriving DecidableEq

/-- The rule is about this ordered pair and this flow. -/
def TransferRule.governs (source dest : ProfileId) (ty : TransferType) (r : TransferRule) : Bool :=
  r.source = source ∧ r.dest = dest ∧ r.ty = ty

def decide (policy : TransferPolicy) (source dest : ProfileRef) (ty : TransferType) : Verdict :=
  if source.isLocked || dest.isLocked then .deny
  else
    match policy.rules.find? (TransferRule.governs source.id dest.id ty) with
    | some rule => if rule.allow then .allow else .deny
    | none => .deny

/-! ## The two ledgers -/

def outcomeAllowed : String := "allowed"

def outcomeDenied : String := "denied"

inductive AuditClientError where
  | transport (message : String)
  | unavailable (message : String)
  | timeout
deriving DecidableEq, Repr

/-- How a ledger's sink answers what it is given. -/
abbrev AuditSink := IngestRequest → Except AuditClientError Unit

inductive DualLedgerError where
  | source (e : AuditClientError)
  | dest (e : AuditClientError)
deriving DecidableEq, Repr

structure DualLedger where
  sourceSink : AuditSink
  destSink : AuditSink

inductive Side where
  | source
  | dest
deriving DecidableEq, Repr

def DualLedger.sink (l : DualLedger) : Side → AuditSink
  | .source => l.sourceSink
  | .dest => l.destSink

/-- A record given to one side's ledger, and whether the ledger took it. -/
structure Submission where
  side : Side
  request : IngestRequest
  accepted : Bool
deriving DecidableEq, Repr

/-- The content-free record of a transfer. -/
def transferEvent (source dest : ProfileId) (ty : TransferType) (outcome : String) :
    IngestRequest where
  kind := .permission
  structural :=
    { subject := "transfer." ++ ty.asStr
      nodeTypes := [source.name, dest.name]
      outcome := outcome }

def DualLedger.submit (l : DualLedger) (side : Side) (request : IngestRequest) :
    Submission × Except AuditClientError Unit :=
  (⟨side, request, (l.sink side request).isOk⟩, l.sink side request)

/-- Both writes are tried, and both have to succeed. -/
def DualLedger.record (l : DualLedger) (source dest : ProfileId) (ty : TransferType)
    (outcome : String) : List Submission × Except DualLedgerError Unit :=
  let request := transferEvent source dest ty outcome
  let (first, sourceResult) := l.submit .source request
  let (second, destResult) := l.submit .dest request
  ([first, second], do
    sourceResult.mapError .source
    destResult.mapError .dest)

/-! ## The gate -/

/-- What the broker's delivery takes; only the gate mints one. -/
structure ApprovedTransfer where
  request : TransferRequest
deriving DecidableEq

inductive RefusalReason where
  | callerNotAdmitted
  | invalidRequest
  | inconsistentRequest
  | policyDenied
  | auditUnavailable
deriving DecidableEq, Repr

inductive GateDecision where
  | approved (approval : ApprovedTransfer)
  | refused (reason : RefusalReason)
deriving DecidableEq

/-- The decision, with what was submitted before it was there. -/
def decideTransfer (build : Build) (callerAppId : String) (request : TransferRequest)
    (source dest : ProfileRef) (policy : TransferPolicy) (ledger : DualLedger) :
    List Submission × GateDecision :=
  if callerIsAdmitted build callerAppId = false then ([], .refused .callerNotAdmitted)
  else if request.validate.isOk = false then ([], .refused .invalidRequest)
  else if source.id ≠ request.source ∨ dest.id ≠ request.dest then
    ([], .refused .inconsistentRequest)
  else
    let verdict := decide policy source dest request.ty
    let recorded := match verdict with
      | .allow => outcomeAllowed
      | .deny => outcomeDenied
    match ledger.record request.source request.dest request.ty recorded with
    | (submitted, .error _) => (submitted, .refused .auditUnavailable)
    | (submitted, .ok ()) =>
      match verdict with
      | .deny => (submitted, .refused .policyDenied)
      | .allow => (submitted, .approved ⟨request⟩)

/-! ## The receiving side -/

/-- The kind of a payload. -/
def PayloadRef.kind : PayloadRef → TransferType
  | clipboard _ => .clipboard
  | file _ => .file

inductive Origin where
  | externalContent
deriving DecidableEq, Repr

structure Delivery where
  origin : Origin
  ty : TransferType
  isDocument : Bool
deriving DecidableEq, Repr

def Delivery.crossProfile (payload : PayloadRef) (isDocument : Bool) : Delivery where
  origin := .externalContent
  ty := payload.kind
  isDocument := (payload.kind == .file) && isDocument

def requiresParseSandbox (d : Delivery) : Bool := d.ty == .file && d.isDocument

/-! ## What an approval says -/

variable {build : Build} {caller : String} {request : TransferRequest} {source dest : ProfileRef}
  {policy : TransferPolicy} {ledger : DualLedger}

/-- The caller, the request and the profiles are such that the policy is asked. -/
structure Heard (build : Build) (caller : String) (request : TransferRequest)
    (source dest : ProfileRef) : Prop where
  admitted : callerIsAdmitted build caller = true
  valid : request.validate.isOk = true
  named : source.id = request.source ∧ dest.id = request.dest

/-- Both ledgers take the record of this outcome. -/
def Recorded (ledger : DualLedger) (request : TransferRequest) (outcome : String) : Prop :=
  ∀ side, (ledger.sink side (transferEvent request.source request.dest request.ty outcome)).isOk =
    true

/-- The submissions of a heard request: one to each side. -/
def submissions (ledger : DualLedger) (request : TransferRequest) (outcome : String) :
    List Submission :=
  let event := transferEvent request.source request.dest request.ty outcome
  [⟨.source, event, (ledger.sourceSink event).isOk⟩, ⟨.dest, event, (ledger.destSink event).isOk⟩]

theorem record_isOk_iff {outcome : String} :
    (ledger.record request.source request.dest request.ty outcome).2 = .ok () ↔
      Recorded ledger request outcome := by
  have hside : ∀ p : Side → Prop, (∀ side, p side) ↔ p .source ∧ p .dest := fun p =>
    ⟨fun h => ⟨h _, h _⟩, fun ⟨hs, hd⟩ side => by cases side <;> assumption⟩
  unfold Recorded DualLedger.record DualLedger.submit
  rw [hside]
  simp only [DualLedger.sink]
  generalize ledger.sourceSink _ = a
  generalize ledger.destSink _ = b
  cases a <;> cases b <;> simp [Except.mapError, Except.isOk, Except.toBool, bind, Except.bind]

def Verdict.outcome : Verdict → String
  | allow => outcomeAllowed
  | deny => outcomeDenied

/-- A request that is not heard submits nothing and is refused. -/
theorem decideTransfer_of_not_heard (h : ¬ Heard build caller request source dest) :
    ∃ reason, reason ≠ .policyDenied ∧
      decideTransfer build caller request source dest policy ledger = ([], .refused reason) := by
  unfold decideTransfer
  split
  · exact ⟨.callerNotAdmitted, by simp, rfl⟩
  · next hadmitted =>
    split
    · exact ⟨.invalidRequest, by simp, rfl⟩
    · next hvalid =>
      split
      · exact ⟨.inconsistentRequest, by simp, rfl⟩
      · next hnamed =>
        rw [not_or, not_not, not_not] at hnamed
        exact absurd ⟨by simpa using hadmitted, by simpa using hvalid, hnamed⟩ h

/-- A request that is heard is submitted to both ledgers, and decided behind them. -/
theorem decideTransfer_of_heard (h : Heard build caller request source dest) :
    decideTransfer build caller request source dest policy ledger =
      (submissions ledger request (decide policy source dest request.ty).outcome,
        match (ledger.record request.source request.dest request.ty
          (decide policy source dest request.ty).outcome).2 with
        | .error _ => .refused .auditUnavailable
        | .ok () =>
          match decide policy source dest request.ty with
          | .deny => .refused .policyDenied
          | .allow => .approved ⟨request⟩) := by
  unfold decideTransfer
  rw [if_neg (by simp [h.admitted]), if_neg (by simp [h.valid]),
    if_neg (by simp [h.named.1, h.named.2])]
  have hfst : ∀ outcome, (ledger.record request.source request.dest request.ty outcome).1 =
      submissions ledger request outcome := fun _ => rfl
  cases decide policy source dest request.ty with
  | allow =>
    simp only [Verdict.outcome, ← hfst]
    split <;> simp_all
  | deny =>
    simp only [Verdict.outcome, ← hfst]
    split <;> simp_all

/-- **The gate approves** the heard requests that the policy allows and both ledgers take, and
no other; the approval carries the request as it came. -/
theorem decideTransfer_eq_approved_iff {a : ApprovedTransfer} :
    (decideTransfer build caller request source dest policy ledger).2 = .approved a ↔
      Heard build caller request source dest ∧ decide policy source dest request.ty = .allow ∧
        Recorded ledger request outcomeAllowed ∧ a = ⟨request⟩ := by
  by_cases h : Heard build caller request source dest
  · rw [decideTransfer_of_heard h]
    cases hverdict : decide policy source dest request.ty with
    | deny =>
      dsimp only
      split <;> simp [h]
    | allow =>
      simp only [Verdict.outcome, h, true_and, ← record_isOk_iff]
      split
      · next hrecord => simp [hrecord]
      · next hrecord => simp [hrecord, eq_comm]
  · obtain ⟨reason, -, heq⟩ := decideTransfer_of_not_heard h
    rw [heq]
    simp [h]

/-- The policy allows a flow between open profiles whose first rule says so. -/
theorem decide_eq_allow_iff {ty : TransferType} :
    decide policy source dest ty = .allow ↔
      (source.isLocked = false ∧ dest.isLocked = false) ∧
        ∃ rule, policy.rules.find? (TransferRule.governs source.id dest.id ty) = some rule ∧
          rule.allow = true := by
  unfold decide
  cases source.isLocked <;> cases dest.isLocked <;> simp
  cases policy.rules.find? (TransferRule.governs source.id dest.id ty) <;> simp

/-- What one side's ledger was given. -/
theorem submissions_filter (outcome : String) (side : Side) :
    (submissions ledger request outcome).filter (·.side = side) =
      [⟨side, transferEvent request.source request.dest request.ty outcome,
        (ledger.sink side
          (transferEvent request.source request.dest request.ty outcome)).isOk⟩] := by
  cases side <;> rfl

/-- What an approval has to mean. -/
structure Vouched (build : Build) (caller : String) (request : TransferRequest)
    (source dest : ProfileRef) (policy : TransferPolicy) (submitted : List Submission)
    (a : ApprovedTransfer) : Prop where
  admitted : callerIsAdmitted build caller = true
  unlocked : source.isLocked = false ∧ dest.isLocked = false
  asked : a.request = request
  named : source.id = a.request.source ∧ dest.id = a.request.dest
  /-- The first rule for the payload's kind in this direction allows it. -/
  permitted : ∃ rule, policy.rules.find?
    (TransferRule.governs a.request.source a.request.dest a.request.payload.kind) = some rule ∧
      rule.allow = true
  /-- Each ledger took one record, of this direction and this kind. -/
  recorded : ∀ side, submitted.filter (·.side = side) =
    [⟨side, transferEvent a.request.source a.request.dest a.request.payload.kind outcomeAllowed,
      true⟩]

/-- An approval is vouched for, and a refusal of the policy was given to both ledgers. -/
structure Sound (build : Build) (caller : String) (request : TransferRequest)
    (source dest : ProfileRef) (policy : TransferPolicy) (ledger : DualLedger) : Prop where
  approved : ∀ a, (decideTransfer build caller request source dest policy ledger).2 = .approved a →
    Vouched build caller request source dest policy
      (decideTransfer build caller request source dest policy ledger).1 a
  denied : (decideTransfer build caller request source dest policy ledger).2 =
        .refused .policyDenied ∨
      (Heard build caller request source dest ∧ decide policy source dest request.ty = .deny) →
    ∀ side, ∃ accepted,
      (decideTransfer build caller request source dest policy ledger).1.filter (·.side = side) =
        [⟨side, transferEvent request.source request.dest request.ty outcomeDenied, accepted⟩]

theorem transferEvent_ty_inj {s d s' d' : ProfileId} {ty ty' : TransferType} {o o' : String}
    (h : transferEvent s d ty o = transferEvent s' d' ty' o') : ty = ty' := by
  have hsubject : "transfer." ++ ty.asStr = "transfer." ++ ty'.asStr :=
    congrArg (fun r => r.structural.subject) h
  cases ty <;> cases ty' <;> first | rfl | (revert hsubject; simp [TransferType.asStr])

/-- A refusal of the policy was submitted to both ledgers as denied. -/
theorem denied_submitted
    (h : (decideTransfer build caller request source dest policy ledger).2 =
        .refused .policyDenied ∨
      (Heard build caller request source dest ∧ decide policy source dest request.ty = .deny))
    (side : Side) : ∃ accepted,
      (decideTransfer build caller request source dest policy ledger).1.filter (·.side = side) =
        [⟨side, transferEvent request.source request.dest request.ty outcomeDenied, accepted⟩] := by
  have hboth : Heard build caller request source dest ∧
      decide policy source dest request.ty = .deny := by
    rcases h with hrefused | h
    · by_cases hheard : Heard build caller request source dest
      · rw [decideTransfer_of_heard hheard] at hrefused
        refine ⟨hheard, ?_⟩
        cases hverdict : decide policy source dest request.ty with
        | deny => rfl
        | allow =>
          rw [hverdict] at hrefused
          dsimp only at hrefused
          split at hrefused <;> simp at hrefused
      · obtain ⟨reason, hne, heq⟩ := decideTransfer_of_not_heard hheard
        rw [heq] at hrefused
        exact absurd (by simpa using hrefused) hne
    · exact h
  rw [decideTransfer_of_heard hboth.1, hboth.2]
  exact ⟨_, submissions_filter _ side⟩

/-- **The gate is sound** exactly for the requests whose payload is of the flow type they
name, and for those it does not approve. -/
theorem sound_iff (build : Build) (caller : String) (request : TransferRequest)
    (source dest : ProfileRef) (policy : TransferPolicy) (ledger : DualLedger) :
    Sound build caller request source dest policy ledger ↔
      (request.payload.kind = request.ty ∨
        ¬ (Heard build caller request source dest ∧
          decide policy source dest request.ty = .allow ∧
          Recorded ledger request outcomeAllowed)) := by
  constructor
  · intro h
    by_contra hnot
    rw [not_or, not_not] at hnot
    obtain ⟨hkind, hheard, hallow, hrecorded⟩ := hnot
    -- the ledgers hold the flow type, which is not the kind that is delivered
    have hvouched := h.approved ⟨request⟩
      (decideTransfer_eq_approved_iff.2 ⟨hheard, hallow, hrecorded, rfl⟩)
    have hsource := hvouched.recorded .source
    rw [decideTransfer_of_heard hheard, submissions_filter] at hsource
    have hevent := congrArg Submission.request (List.head_eq_of_cons_eq hsource)
    exact hkind (transferEvent_ty_inj hevent).symm
  · intro h
    refine ⟨fun a ha => ?_, fun hdenied side => denied_submitted hdenied side⟩
    obtain ⟨hheard, hallow, hrecorded, rfl⟩ := decideTransfer_eq_approved_iff.1 ha
    have hkind : request.payload.kind = request.ty :=
      h.resolve_right (not_not.2 ⟨hheard, hallow, hrecorded⟩)
    obtain ⟨hunlocked, hrule⟩ := decide_eq_allow_iff.1 hallow
    refine ⟨hheard.admitted, hunlocked, rfl, hheard.named, ?_, fun side => ?_⟩
    · rw [hkind, ← hheard.named.1, ← hheard.named.2]
      exact hrule
    · rw [decideTransfer_of_heard hheard, hallow, submissions_filter]
      rw [hkind, ← hrecorded side]
      rfl

/-! ### A file under a clipboard rule -/

def work : ProfileId := ⟨"work", by decide +kernel⟩

def personal : ProfileId := ⟨"personal", by decide +kernel⟩

/-- The clipboard may cross, files may not. -/
def clipboardOnly : TransferPolicy :=
  ⟨[⟨work, personal, .file, false⟩, ⟨work, personal, .clipboard, true⟩]⟩

/-- A file, asked for as a clipboard flow. -/
def disguisedFile : TransferRequest := ⟨work, personal, .clipboard, .file "/home/work/report.pdf"⟩

def openLedgers : DualLedger := ⟨fun _ => .ok (), fun _ => .ok ()⟩

/-- The file is approved under the clipboard's rule, and the ledgers hold a clipboard flow. -/
theorem disguised_file_approved :
    ¬ Sound .release "dev.arlen.settings" disguisedFile ⟨work, false⟩ ⟨personal, false⟩
      clipboardOnly openLedgers := by
  intro h
  have happroved : (decideTransfer .release "dev.arlen.settings" disguisedFile ⟨work, false⟩
      ⟨personal, false⟩ clipboardOnly openLedgers).2 = .approved ⟨disguisedFile⟩ := by
    decide +kernel
  obtain ⟨rule, hrule, hallow⟩ := (h.approved _ happroved).permitted
  have hdeny : clipboardOnly.rules.find? (TransferRule.governs work personal .file) =
      some ⟨work, personal, .file, false⟩ := by decide +kernel
  obtain rfl := Option.some.inj (hdeny.symm.trans hrule)
  cases hallow

end Arlen.Transfer
