import Arlen.Lib.FileSystem
import Arlen.Lib.Sort
import Arlen.Lib.Text
import Arlen.Lib.Utf8
import Mathlib.Data.List.Destutter
import Mathlib.Data.String.Basic

/-!
# A mailbox on disk

`apps/mail/core/src/maildir.rs`. A mailbox is a directory; the locations of its
file system are relative to it, and the symbolic links `canonicalize` would follow
are left out. A message's name is its identity, and each write is a rename, an
unlink or a create that answers with the new one. Where the source meets an error
of the system, the call takes the fault that befalls it as an argument.
-/

namespace Arlen.Mail

open Arlen.Lib

abbrev Str := List Char

/-- The mailbox, seen from its root. -/
abbrev Disk := FileSystem Str Bytes

inductive FolderKind where
  | inbox
  | sent
  | drafts
  | archive
  | trash
deriving DecidableEq, Repr

/-- The rail a subdirectory's name stands for, whatever its dots and case. -/
def kindOf (dirName : Str) : Option FolderKind :=
  let name := (dirName.dropWhile (· = '.')).map Char.toLower
  if name = "sent".toList ∨ name = "sent items".toList ∨ name = "sent messages".toList then
    some .sent
  else if name = "drafts".toList then some .drafts
  else if name = "archive".toList ∨ name = "archives".toList then some .archive
  else if name = "trash".toList ∨ name = "deleted".toList ∨ name = "deleted items".toList then
    some .trash
  else none

structure Folder where
  kind : FolderKind
  rel : Str
deriving DecidableEq, Repr

/-! ## Ids -/

/-- `str::rsplit_once`: the text before and behind the last occurrence. -/
def rsplitOnce (p : Str) : Str → Option (Str × Str)
  | [] => none
  | c :: s =>
    match rsplitOnce p s with
    | some (a, b) => some (c :: a, b)
    | none => if p.isPrefixOf (c :: s) then some ([], (c :: s).drop p.length) else none

def safeId (id : Str) : Bool :=
  !(id = [] || id.head? = some '/' || id.contains '\x00') &&
    (id.splitOn '/').all fun seg => seg ≠ [] && seg ≠ ['.'] && seg ≠ ['.', '.']

/-- `root.join(id)`, for an id without empty segments. -/
def pathOf (id : Str) : List Str := id.splitOn '/'

/-- The directory a folder's `rel` names. -/
def folderDir (rel : Str) : List Str := if rel = [] then [] else pathOf rel

def messagePath (disk : Disk) (id : Str) : Option (List Str) :=
  if safeId id ∧ disk.node (pathOf id) ≠ none then some (pathOf id) else none

def new : Str := ['n', 'e', 'w']

def cur : Str := ['c', 'u', 'r']

def tmp : Str := ['t', 'm', 'p']

/-- The folder and what stands in it; the inbox has no name. -/
def splitFolder (head : Str) : Str × Str := (rsplitOnce ['/'] head).getD ([], head)

/-- The folder, `new` or `cur`, and the name. -/
def splitId (id : Str) : Option (Str × Str × Str) :=
  match rsplitOnce ['/'] id with
  | none => none
  | some (head, name) =>
    let folder := (splitFolder head).1
    let sub := (splitFolder head).2
    if sub ≠ new ∧ sub ≠ cur then none
    else if name = [] then none
    else some (folder, sub, name)

def joinId (folder sub name : Str) : Str :=
  if folder = [] then sub ++ '/' :: name else folder ++ '/' :: (sub ++ '/' :: name)

/-- The same name carrying a flag, the flags sorted. -/
def withFlag (name : Str) (flag : Char) : Str :=
  match rsplitOnce [':', '2', ','] name with
  | some (stem, flags) =>
    if flag ∈ flags then stem ++ [':', '2', ','] ++ flags
    else stem ++ [':', '2', ','] ++ (sortBy Char.toNat (flags ++ [flag])).destutter (· ≠ ·)
  | none => name ++ [':', '2', ',', flag]

/-! ## Folders -/

def isMaildir (disk : Disk) (dir : List Str) : Bool :=
  disk.node (dir ++ [cur]) = some .dir && disk.node (dir ++ [new]) = some .dir

/-- The inbox, and the subdirectories with a rail, in the order of their names. -/
def folders (disk : Disk) : List Folder :=
  if isMaildir disk [] then
    ⟨.inbox, []⟩ :: sortBy (String.ofList ·.rel) ((disk.names []).filterMap fun name =>
      (kindOf name).bind fun kind => if isMaildir disk [name] then some ⟨kind, name⟩ else none)
  else []

def folderOf (disk : Disk) (kind : FolderKind) : Option Str :=
  ((folders disk).find? (·.kind = kind)).map (·.rel)

/-! ## Writing -/

inductive WriteProblem where
  | noSuchMessage
  | noSuchFolder
  | io (message : String)
deriving DecidableEq, Repr

def refusalText : FileSystem.Refusal → String
  | .noEntry => "No such file or directory (os error 2)"
  | .alreadyThere => "File exists (os error 17)"
  | .notDirectory => "Not a directory (os error 20)"
  | .isDirectory => "Is a directory (os error 21)"
  | .notEmpty => "Directory not empty (os error 39)"
  | .intoItself => "Invalid argument (os error 22)"

/-- A call of the system, or the fault it ends in. -/
def call (fault : Option String) (disk : Disk)
    (op : Disk → Except FileSystem.Refusal Disk) : Except WriteProblem Disk :=
  match fault with
  | some message => .error (.io message)
  | none =>
    match op disk with
    | .ok disk' => .ok disk'
    | .error e => .error (.io (refusalText e))

/-- What a write answers, and the mailbox it leaves. -/
abbrev Outcome := Except WriteProblem (Option Str) × Disk

/-- A rename that answers with an id. -/
def renameTo (disk : Disk) (fault : Option String) (src dir : List Str) (name newId : Str) :
    Outcome :=
  match call fault disk (·.rename src dir name) with
  | .ok disk' => (.ok (some newId), disk')
  | .error e => (.error e, disk)

def markSeen (disk : Disk) (fault : Option String) (id : Str) : Outcome :=
  match messagePath disk id, splitId id with
  | some src, some (folder, _, name) =>
    let newName := withFlag name 'S'
    let newId := joinId folder cur newName
    let dir := folderDir folder ++ [cur]
    if src = dir ++ [newName] then (.ok (some newId), disk)
    else renameTo disk fault src dir newName newId
  | _, _ => (.error .noSuchMessage, disk)

def moveTo (disk : Disk) (fault : Option String) (id dest : Str) : Outcome :=
  match messagePath disk id, splitId id with
  | some src, some (folder, sub, name) =>
    if dest ≠ [] ∧ safeId dest = false then (.error .noSuchFolder, disk)
    else if isMaildir disk (folderDir dest) = false then (.error .noSuchFolder, disk)
    else if folder = dest then (.ok (some id), disk)
    else renameTo disk fault src (folderDir dest ++ [sub]) name (joinId dest sub name)
  | _, _ => (.error .noSuchMessage, disk)

def delete (disk : Disk) (fault : Option String) (id : Str) : Outcome :=
  match messagePath disk id, splitId id with
  | some src, some (folder, _, _) =>
    match (folderOf disk .trash).filter (· ≠ folder) with
    | some rel => moveTo disk fault id rel
    | none =>
      match call fault disk (·.unlink src) with
      | .ok disk' => (.ok none, disk')
      | .error e => (.error e, disk)
  | _, _ => (.error .noSuchMessage, disk)

/-! ## Drafts -/

/-- `char::is_control`. -/
def isControl (c : Char) : Bool := c.toNat < 32 || (127 ≤ c.toNat && c.toNat < 160)

def dayNames : List String := ["Thu", "Fri", "Sat", "Sun", "Mon", "Tue", "Wed"]

def monthNames : List String :=
  ["Jan", "Feb", "Mar", "Apr", "May", "Jun", "Jul", "Aug", "Sep", "Oct", "Nov", "Dec"]

/-- A number of at least two digits. -/
def twoDigits (n : Nat) : String := if n < 10 then "0" ++ toString n else toString n

def rfc2822Utc (secs : Nat) : String :=
  let days : Int := (secs / 86400 : Nat)
  let rem := secs % 86400
  let z := days + 719468
  let era := z / 146097
  let doe := z % 146097
  let yoe := (doe - doe / 1460 + doe / 36524 - doe / 146096) / 365
  let y := yoe + era * 400
  let doy := doe - (365 * yoe + yoe / 4 - yoe / 100)
  let mp := (5 * doy + 2) / 153
  let d := doy - (153 * mp + 2) / 5 + 1
  let m := if mp < 10 then mp + 3 else mp - 9
  let year := if m ≤ 2 then y + 1 else y
  dayNames.getD (days % 7).toNat "" ++ ", " ++ twoDigits d.toNat ++ " " ++
    monthNames.getD (m - 1).toNat "" ++ " " ++ toString year ++ " " ++ twoDigits (rem / 3600) ++
    ":" ++ twoDigits (rem % 3600 / 60) ++ ":" ++ twoDigits (rem % 60) ++ " +0000"

/-- A draft as text, its header values flattened. -/
def draftText (secs : Nat) (to' subject body : Str) : Str :=
  let flat := fun v : Str => Text.trim (v.map fun c => if isControl c then ' ' else c)
  ("Date: " ++ rfc2822Utc secs ++ "\n").toList ++ "To: ".toList ++ flat to' ++
    "\nSubject: ".toList ++ flat subject ++
    "\nMIME-Version: 1.0\nContent-Type: text/plain; charset=utf-8\n\n".toList ++ body ++
    if body.getLast? = some '\n' then [] else ['\n']

/-- Where writing a draft fails: at one of the directories, at the file after some of
its bytes, or at the rename. -/
inductive DraftFault where
  | none
  | dirs (made : Nat) (message : String)
  | write (landed : Option Nat) (message : String)
  | place (message : String)
deriving DecidableEq

/-- `create_dir_all`, one directory after another, up to a fault. -/
def ensureDirs : List (List Str × Str) → Option (Nat × String) → Disk →
    Except WriteProblem Unit × Disk
  | [], _, disk => (.ok (), disk)
  | _ :: _, some (0, message), disk => (.error (.io message), disk)
  | (dir, name) :: rest, fault, disk =>
    let fault := fault.map fun f => (f.1 - 1, f.2)
    if disk.node (dir ++ [name]) = some .dir then ensureDirs rest fault disk
    else
      match disk.mkdir dir name with
      | .ok disk' => ensureDirs rest fault disk'
      | .error e => (.error (.io (refusalText e)), disk)

/-- The folder drafts go to. -/
def draftsRel (disk : Disk) : Str := (folderOf disk .drafts).getD ".Drafts".toList

/-- What the name of a draft is made of: the time, the process and the machine. -/
structure Origin where
  secs : Nat
  nanos : Nat
  pid : Nat
  hostname : Str
deriving DecidableEq

/-- The machine's name, without the characters a maildir name cannot carry. -/
def host (raw : Str) : Str :=
  let cleaned := (Text.trim raw).filter fun c => c ≠ '/' ∧ c ≠ ':'
  if cleaned = [] then "arlen".toList else cleaned

def uniqueStem (o : Origin) : Str :=
  (toString o.secs).toList ++ ['.', 'M'] ++ (toString o.nanos).toList ++ ['P'] ++
    (toString o.pid).toList ++ ['.'] ++ host o.hostname

def draftName (o : Origin) : Str := uniqueStem o ++ [':', '2', ',', 'D', 'S']

/-- Stage the draft in `tmp/`. -/
def stage (disk : Disk) (fault : DraftFault) (dir : List Str) (name : Str) (text : Bytes) :
    Except WriteProblem Unit × Disk :=
  match fault with
  | .write none message => (.error (.io message), disk)
  | .write (some landed) message =>
    match disk.write dir name (text.take landed) with
    | .ok disk' => (.error (.io message), disk')
    | .error e => (.error (.io (refusalText e)), disk)
  | _ =>
    match disk.write dir name text with
    | .ok disk' => (.ok (), disk')
    | .error e => (.error (.io (refusalText e)), disk)

def saveDraft (disk : Disk) (fault : DraftFault) (o : Origin) (secs : Nat)
    (to' subject body : Str) : Outcome :=
  let rel := draftsRel disk
  let dirFault := match fault with
    | .dirs made message => some (made, message)
    | _ => none
  match ensureDirs [([], rel), ([rel], tmp), ([rel], new), ([rel], cur)] dirFault disk with
  | (.error e, disk) => (.error e, disk)
  | (.ok (), disk) =>
    let name := draftName o
    let text := utf8 (String.ofList (draftText secs to' subject body))
    match stage disk fault [rel, tmp] name text with
    | (.error e, disk) => (.error e, disk)
    | (.ok (), disk) =>
      let placeFault := match fault with
        | .place message => some message
        | _ => none
      renameTo disk placeFault [rel, tmp, name] [rel, cur] name (joinId rel cur name)

end Arlen.Mail
