import Mathlib.Data.List.Basic

/-!
# Inverse receipts (`ai-undo-core/src/effect_model.rs`)

The inverse an action is recorded with. A `CanonicalPath` is absolute and has no
empty, `.` or `..` component: its constructor and its deserialiser both check.
-/

namespace Arlen.Undo

/-- `s.split('/')`. -/
def splitSlash (s : List Char) : List (List Char) := s.splitOn '/'

/-- The shape `CanonicalPath::new` asks for. -/
def isCanonical (path : String) : Bool :=
  match splitSlash path.toList with
  | [] :: components =>
    components ≠ [] ∧ components.all fun comp =>
      comp ≠ [] ∧ comp ≠ ['.'] ∧ comp ≠ ['.', '.']
  | _ => false

structure CanonicalPath where
  path : String
  canonical : isCanonical path = true
  deriving DecidableEq, Repr

def CanonicalPath.new (path : String) : Option CanonicalPath :=
  if h : isCanonical path = true then some ⟨path, h⟩ else none

structure SettingTarget where
  file : String
  key : String
  deriving DecidableEq, Repr

structure CreatedIdentity where
  path : CanonicalPath
  fingerprint : String
  deriving DecidableEq, Repr

structure SnapshotRef where
  handle : String
  deriving DecidableEq, Repr

inductive InverseReceipt where
  | restorePath (now prior : CanonicalPath)
  | restoreFromTrash (original trashed trashInfo : CanonicalPath)
  | restoreValue (target : SettingTarget) (prior : Option String)
  | deleteCreated (created : CreatedIdentity)
  | trashCreated (created : CreatedIdentity)
  | restoreSnapshot (snapshot : SnapshotRef) (scope : CanonicalPath)
  | retractGraphEdge (opId fromType fromId toType toId relationType : String)
  deriving DecidableEq, Repr

end Arlen.Undo
