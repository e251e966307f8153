import Arlen.Consent.Capability

/-!
# Consent requests (`contracts/consent-contract`, `consent-broker/src/{lib,service}.rs`)

The wire body, the attested requester it is joined with, the severity tier a
request is classified into and the outcome the user gives. A body carries no
requester: `resolveRequester` takes it from the peer the kernel attested, and
honours `onBehalfOf` only for a trusted intermediary.
-/

namespace Arlen.Consent

inductive ConsentClass where
  | capabilityGrant
  | appData
  | install
  | destructive
  | externalSend
  | networkAccess
  | execConfined
  | elevatedPrivilege
  | portal
  | camera
  | microphone
  | screenCast
  | notificationAction
  | agentAction
  deriving DecidableEq, Repr

def ConsentClass.asKey : ConsentClass → String
  | .capabilityGrant => "capability_grant"
  | .appData => "app_data"
  | .install => "install"
  | .destructive => "destructive"
  | .externalSend => "external_send"
  | .networkAccess => "network_access"
  | .execConfined => "exec_confined"
  | .elevatedPrivilege => "elevated_privilege"
  | .portal => "portal"
  | .camera => "camera"
  | .microphone => "microphone"
  | .screenCast => "screencast"
  | .notificationAction => "notification_action"
  | .agentAction => "agent_action"

structure ConsentTarget where
  name : String
  size : String
  deriving DecidableEq, Repr

/-- The wire request. -/
structure RequestBody where
  cls : ConsentClass
  kind : ActionKind
  triggeredByExternalContent : Bool := false
  summary : String
  scope : Option String := none
  recipient : Option String := none
  preview : Option String := none
  targets : List ConsentTarget := []
  total : Option String := none
  onBehalfOf : Option String := none
  checkOnly : Bool := false
  deriving DecidableEq, Repr

/-- One value, shown in the dialog and recorded as the grant recipient. -/
structure AttestedRequester where
  appId : String
  mediator : Option String := none
  deriving DecidableEq, Repr

def AttestedRequester.displayId (r : AttestedRequester) : String := r.appId

def AttestedRequester.grantRecipient (r : AttestedRequester) : String := r.appId

structure ConsentRequest where
  requester : AttestedRequester
  cls : ConsentClass
  kind : ActionKind
  triggeredByExternalContent : Bool
  summary : String
  scope : Option String
  recipient : Option String
  preview : Option String
  targets : List ConsentTarget
  total : Option String
  deriving DecidableEq, Repr

def assemble (body : RequestBody) (requester : AttestedRequester) : ConsentRequest where
  requester := requester
  cls := body.cls
  kind := body.kind
  triggeredByExternalContent := body.triggeredByExternalContent
  summary := body.summary
  scope := body.scope
  recipient := body.recipient
  preview := body.preview
  targets := body.targets
  total := body.total

def trustedIntermediaries : List String := ["xdg-desktop-portal", "modulesd"]

def isTrustedIntermediary (peer : String) : Bool := trustedIntermediaries.contains peer

/-- The source walks the bytes; a byte of a multi-byte character passes none of
the tests, so neither does its character. -/
def isPlausibleAppId (app : String) : Bool :=
  !app.isEmpty && decide (app.utf8ByteSize ≤ 255) &&
    app.toList.all fun c => c.isAlphanum || c == '.' || c == '-' || c == '_'

def resolveRequester (attestedPeer : String) (onBehalfOf : Option String) : AttestedRequester :=
  match onBehalfOf with
  | some subject =>
    if isTrustedIntermediary attestedPeer && isPlausibleAppId subject && subject != attestedPeer then
      { appId := subject, mediator := some attestedPeer }
    else
      { appId := attestedPeer }
  | none => { appId := attestedPeer }

inductive SeverityTier where
  | silent
  | standard
  | highStakes
  deriving DecidableEq, Repr

def SeverityTier.fromDecision : ActionDecision → SeverityTier
  | .proceed => .silent
  | .propose | .previewThenExecute => .standard
  | .requireConfirmation => .highStakes

def classify (request : ConsentRequest) (capability : Capability) : SeverityTier :=
  .fromDecision (capability.decide request.requester.grantRecipient request.kind
    request.triggeredByExternalContent)

inductive Reversibility where
  | reversible
  | reversibleWithCost
  | irreversible
  deriving DecidableEq, Repr

def Reversibility.of : ActionKind → Reversibility
  | .permanentDelete | .sendExternalMessage | .undeclaredNetwork | .irreversible => .irreversible
  | .packageChange | .systemConfigChange | .elevatedPrivilege | .reversibleWithCost =>
    .reversibleWithCost
  | .ordinary => .reversible

inductive ConsentOutcome where
  | allowedOnce
  | allowedRemembered
  | allowedForWindow
  | denied
  deriving DecidableEq, Repr

def ConsentOutcome.mintsGrant : ConsentOutcome → Bool
  | .allowedRemembered | .allowedForWindow => true
  | _ => false

def ConsentOutcome.allowed : ConsentOutcome → Bool
  | .allowedOnce | .allowedRemembered | .allowedForWindow => true
  | .denied => false

/-! ## Classification -/

/-- A request is high-stakes exactly when its kind always confirms or external
content triggered it. -/
theorem classify_eq_highStakes {r : ConsentRequest} {cap : Capability} :
    classify r cap = .highStakes ↔
      r.kind.alwaysRequiresConfirmation = true ∨ r.triggeredByExternalContent = true := by
  rw [← @Capability.decide_eq_requireConfirmation cap r.requester.grantRecipient]
  unfold classify
  cases cap.decide r.requester.grantRecipient r.kind r.triggeredByExternalContent <;>
    simp [SeverityTier.fromDecision]

/-- A silent request is one `decide` lets proceed. -/
theorem classify_eq_silent {r : ConsentRequest} {cap : Capability} :
    classify r cap = .silent ↔
      cap.decide r.requester.grantRecipient r.kind r.triggeredByExternalContent = .proceed := by
  unfold classify
  cases cap.decide r.requester.grantRecipient r.kind r.triggeredByExternalContent <;>
    simp [SeverityTier.fromDecision]

end Arlen.Consent
