import Mathlib.Data.List.Basic

/-!
# The capability decision (`ai/ai-core/src/capability.rs`)

What gate an action must pass: the hardcoded high-impact kinds and anything
triggered by external content always need a confirmation; below that the
per-application mode decides. The read tier of a `Capability` plays no part in
`decide` and is left out.
-/

namespace Arlen.Consent

/-- How the AI may act on an application. -/
inductive ActionMode where
  | suggest
  | supervised
  | autonomous
  deriving DecidableEq, Repr

/-- The baseline mode; it is never autonomous. -/
inductive BaselineMode where
  | suggest
  | supervised
  deriving DecidableEq, Repr

def BaselineMode.asActionMode : BaselineMode → ActionMode
  | .suggest => .suggest
  | .supervised => .supervised

/-- `autonomousApps` is a `BTreeSet` in the source; only membership is asked. -/
structure ActionPermissions where
  defaultMode : BaselineMode
  autonomousApps : List String
  deriving DecidableEq, Repr

def ActionPermissions.modeFor (p : ActionPermissions) (appId : String) : ActionMode :=
  if p.autonomousApps.contains appId then .autonomous else p.defaultMode.asActionMode

/-- The impact kind of an action. -/
inductive ActionKind where
  | permanentDelete
  | sendExternalMessage
  | packageChange
  | systemConfigChange
  | undeclaredNetwork
  | elevatedPrivilege
  | irreversible
  | reversibleWithCost
  | ordinary
  deriving DecidableEq, Repr

def ActionKind.alwaysRequiresConfirmation : ActionKind → Bool
  | .ordinary => false
  | _ => true

inductive ActionDecision where
  | propose
  | previewThenExecute
  | requireConfirmation
  | proceed
  deriving DecidableEq, Repr

structure Capability where
  actions : ActionPermissions
  deriving DecidableEq, Repr

def Capability.decide (c : Capability) (appId : String) (kind : ActionKind)
    (triggeredByExternalContent : Bool) : ActionDecision :=
  if kind.alwaysRequiresConfirmation || triggeredByExternalContent then
    .requireConfirmation
  else
    match c.actions.modeFor appId with
    | .suggest => .propose
    | .supervised => .previewThenExecute
    | .autonomous => .proceed

/-- The two overrides are the only way to a confirmation. -/
theorem Capability.decide_eq_requireConfirmation {c : Capability} {appId : String}
    {kind : ActionKind} {ext : Bool} :
    c.decide appId kind ext = .requireConfirmation ↔
      kind.alwaysRequiresConfirmation = true ∨ ext = true := by
  unfold Capability.decide
  by_cases h : (kind.alwaysRequiresConfirmation || ext) = true
  · simp only [h, ↓reduceIte, true_iff]
    simpa using h
  · simp only [h, Bool.false_eq_true, ↓reduceIte]
    simp only [Bool.or_eq_true] at h
    cases c.actions.modeFor appId <;> simp [h]

end Arlen.Consent
