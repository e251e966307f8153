import Arlen.Audit.Columns
import Arlen.Audit.Restart
import Arlen.Audit.Coarse
import Arlen.Audit.Activity
import Arlen.Audit.Tamper
import Arlen.Lib.Machine
import Arlen.Lib.Sha256
import Arlen.Consent.HighStakes
import Arlen.Consent.Silent
import Arlen.Undo.Tamper
import Arlen.Graph.Tokens
import Arlen.Bus.Scope
import Arlen.Knowledge.Scopes
import Arlen.Knowledge.Token
import Arlen.Knowledge.Retention
import Arlen.Knowledge.Delegation
import Arlen.Knowledge.Ceiling
import Arlen.Trash.Safety
import Arlen.Bus.Connections
import Arlen.Bus.LateJoin
import Arlen.Calendar.RoundTrip
import Arlen.Calendar.Fold
import Arlen.Calendar.Series
import Arlen.Calendar.Advance
import Arlen.Calendar.Edit
import Arlen.Calendar.Delete
import Arlen.Calendar.Deleted
import Arlen.Calendar.Expand
import Arlen.Calendar.Duration
import Arlen.Calendar.Reminders
import Arlen.Calendar.Foreign
import Arlen.Consent.RunToken
import Arlen.Files.TrashInfo
import Arlen.Capsule.Slice
import Arlen.Capsule.Ledger
import Arlen.Capsule.Grant
import Arlen.Capsule.Serve
import Arlen.Capsule.Served
import Arlen.Capsule.Minted
import Arlen.Permissions.Filesystem
import Arlen.Mail.Kept
import Arlen.Files.Calls
import Arlen.Forage.Confinement
import Arlen.Forage.Cookbooks
import Arlen.Forage.Hunks
import Arlen.Forage.Preimage
import Arlen.Forage.Reproducible
import Arlen.Forage.Collect
import Arlen.Forage.Capabilities
import Arlen.Forage.Package
import Arlen.Clock.Tick
import Arlen.Clock.Once
import Arlen.Clock.Wake
import Arlen.Clock.Callers
import Arlen.Clock.RunOut
import Arlen.Clock.Stopwatch
import Arlen.Lib.LocalClock
import Arlen.Clock.NextRing
import Arlen.Transfer.Gate
import Arlen.Terminal.Framing
import Arlen.Extensions.Revoke
import Arlen.Artifacts.Sidecar
import Arlen.Notify.Queue
import Arlen.ConfigFormat.Reread
import Arlen.ConfigFormat.ValueRun
import Arlen.ConfigFormat.Confined
import Arlen.ConfigFormat.Dotenv
import Arlen.ConfigFormat.Faithful
import Arlen.ConfigFormat.Prefs
import Arlen.ConfigFormat.Sections
import Arlen.Terminal.Forgery
import Arlen.Terminal.Chunks
import Arlen.Terminal.Running
import Arlen.Consent.Strengthen
import Arlen.Installd.Restore
import Arlen.Installd.Rollback
import Arlen.Installd.Upgraded
import Arlen.Installd.Cleanup
import Arlen.Installd.Keybindings
import Arlen.Installd.Flatpak
import Arlen.NetGuard.Rate
import Arlen.NetGuard.Egress
import Arlen.TextEditor.Wire
import Arlen.TextEditor.Session
import Arlen.Lib.Case
import Arlen.Permissions.Network
import Arlen.Notify.Dnd
import Arlen.Lib.Moves
import Arlen.Files.BulkRename
import Arlen.Lib.Crash
import Arlen.Lib.Disk
import Arlen.Forage.Store
import Arlen.Forage.Rooted
