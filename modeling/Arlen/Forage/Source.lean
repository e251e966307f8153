import Arlen.Lib.Host
import Arlen.Lib.Lines
import Arlen.Lib.Path
import Arlen.Lib.Str
import Arlen.Lib.Utf8
import Mathlib.Algebra.GroupWithZero.Nat

/-!
# Preparing a source

`extract_tar` of `forage/extract/src/lib.rs` and `apply_patches` of
`forage/patch/src/lib.rs`, as `forage/pipeline` runs them one after the other in a fresh
directory. Reading an archive (`flate2`, `zstd`, `tar`) and reading and applying one
file's diff (`diffy`) are parameters: an archive is any list of entries or failures to
read one, an entry any path, type and list of reads.
-/

namespace Arlen.Forage

open Arlen.Lib Arlen.Lib.Host

/-- A directory: the path it is given by, and where it is. -/
structure Dir where
  text : Path.PathBuf
  loc : Loc

/-! ## Paths below a directory -/

def isSafeRelative (p : Path.PathBuf) : Bool :=
  !Path.isAbsolute p && (Path.components p).all fun c =>
    match c with
    | .normal _ | .curDir => true
    | _ => false

/-- The names the system follows from where the path begins. -/
def namesOf (p : Path.PathBuf) : List Host.Name :=
  (Path.components p).filterMap fun c =>
    match c with
    | .normal n => some n
    | .parentDir => some parentName
    | .rootDir | .curDir => none

/-- Where the path begins that is joined to the directory's: an absolute one replaces it. -/
def Dir.baseOf (dir : Dir) (p : Path.PathBuf) : Loc := if Path.isAbsolute p then [] else dir.loc

/-- What the system finds behind the last slash of the path. -/
def lastPiece (p : Path.PathBuf) : Bytes := ((p.splitOn 0x2f).getLast?).getD []

/-- The path can only be one of a directory. -/
def directoryOnly (p : Path.PathBuf) : Bool := lastPiece p = [] || lastPiece p = utf8 "."

/-- `Path::join`, of a relative path. -/
def joinPath (dir p : Path.PathBuf) : Path.PathBuf :=
  if dir.getLast? = some 0x2f then dir ++ p else dir ++ (0x2f :: p)

/-- The pieces of a path without those at its end that name nothing. -/
def trimPieces (pieces : List Bytes) : List Bytes :=
  pieces.rdropWhile fun b => b = [] || b = utf8 "."

/-- `Path::parent`, of an absolute path. -/
def parentPath (p : Path.PathBuf) : Path.PathBuf :=
  match trimPieces (trimPieces (p.splitOn 0x2f)).dropLast with
  | [] => [0x2f]
  | pieces => [0x2f].intercalate pieces

/-- `Path::display`. -/
def display (p : Path.PathBuf) : String := fromUtf8Lossy p

/-- `create_dir_all`. The system makes no directory under the name `.`. -/
def createDirAllAt (env : Env) (dir : Dir) (p : Path.PathBuf) : Io Unit :=
  if namesOf p ≠ [] ∧ lastPiece p = utf8 "." then do
    if ← isDir env (dir.baseOf p) (namesOf p) then return ()
    else
      createDirAll env (dir.baseOf p) (namesOf p).dropLast
      unlessDir env (dir.baseOf p) (namesOf p) (.refused .noEntry)
  else createDirAll env (dir.baseOf p) (namesOf p)

/-- `create_dir_all` of the path's parent. -/
def createParent (env : Env) (dir : Dir) (p : Path.PathBuf) : Io Unit :=
  match namesOf p with
  | [] => if dir.baseOf p = [] then return () else createDirAll env (dir.baseOf p).dropLast []
  | n :: rest => createDirAll env (dir.baseOf p) (n :: rest).dropLast

/-- A call on a file, which no path that can only be of a directory names. -/
def fileOnly {α : Type} (env : Env) (p : Path.PathBuf) (call : Io α) : Io α :=
  if directoryOnly p then query env fun _ => .error (.refused .isDirectory) else call

/-! ## Extracting -/

inductive EntryType where
  | regular
  | gnuSparse
  | directory
  | symlink
  | link
  | char
  | block
  | fifo
  | other (code : UInt8)
deriving DecidableEq, Repr

/-- An entry of an archive: its path, its type, and what one read after the other gives. -/
structure TarEntry where
  path : Except IoError Path.PathBuf
  type : EntryType
  reads : List (Except IoError Bytes)

structure ExtractLimits where
  maxEntries : Nat := 200000
  maxTotalBytes : Nat := 4 * 1024 * 1024 * 1024
deriving DecidableEq, Repr

inductive ExtractError where
  | io (error : IoError)
  | decompress (message : String)
  | unsafePath (path : String)
  | unsupportedEntry (path : String)
  | tooManyEntries (limit : Nat)
  | tooLarge (limit : Nat)
  /-- The bytes written exceed the cap where the budget is worked out. -/
  | underflow
deriving DecidableEq

structure ExtractReport where
  files : Nat := 0
  totalBytes : Nat := 0
deriving DecidableEq, Repr

inductive Compression where
  | gzip
  | zstd
  | plain
deriving DecidableEq, Repr

def decompressor (bytes : Bytes) : Compression :=
  if [0x1f, 0x8b].isPrefixOf bytes then .gzip
  else if [0x28, 0xb5, 0x2f, 0xfd].isPrefixOf bytes then .zstd
  else .plain

/-- Why the entries of an archive cannot be read. -/
inductive OpenError where
  | decompress (message : String)
  | io (error : IoError)
deriving DecidableEq

def OpenError.toExtract : OpenError → ExtractError
  | .decompress message => .decompress message
  | .io error => .io error

/-- The readers of other crates. -/
abbrev Archive := Compression → Bytes → Except OpenError (List (Except IoError TarEntry))

abbrev Extract := Action World ExtractError

/-- The loop of `copy_capped`. -/
def copyLoop (env : Env) (p : Loc) (remaining cap : Nat) :
    List (Except IoError Bytes) → Nat → Extract Nat
  | [], written => return written
  | .error e :: _, _ => Action.fail (.io e)
  | .ok chunk :: rest, written =>
    if chunk = [] then return written
    else if remaining < written + chunk.length then Action.fail (.tooLarge cap)
    else do
      (writeAll env p chunk).mapError .io
      copyLoop env p remaining cap rest (written + chunk.length)

def copyCapped (env : Env) (dest : Dir) (path : Path.PathBuf) (reads : List (Except IoError Bytes))
    (remaining cap : Nat) : Extract Nat := do
  let file ← (fileOnly env path (create env (dest.baseOf path) (namesOf path))).mapError .io
  copyLoop env file remaining cap reads 0

/-- The branch of a regular file. -/
def extractFile (env : Env) (dest : Dir) (limits : ExtractLimits) (path : Path.PathBuf)
    (reads : List (Except IoError Bytes)) (report : ExtractReport) : Extract ExtractReport := do
  (createParent env dest path).mapError .io
  if limits.maxTotalBytes < report.totalBytes then Action.fail .underflow
  else
    let remaining := limits.maxTotalBytes - report.totalBytes
    let written ← copyCapped env dest path reads remaining limits.maxTotalBytes
    return { files := report.files + 1, totalBytes := report.totalBytes + written }

/-- An entry of a safe path, by its type. -/
def extractTyped (env : Env) (dest : Dir) (limits : ExtractLimits) (path : Path.PathBuf)
    (entry : TarEntry) (report : ExtractReport) : Extract ExtractReport :=
  match entry.type with
  | .directory => do
    (createDirAllAt env dest path).mapError .io
    return report
  | .regular | .gnuSparse => extractFile env dest limits path entry.reads report
  | _ => Action.fail (.unsupportedEntry (display path))

/-- A round of the loop of `extract_tar`, behind `count` entries. -/
def extractEntry (env : Env) (dest : Dir) (limits : ExtractLimits) (count : Nat)
    (entry : Except IoError TarEntry) (report : ExtractReport) : Extract ExtractReport :=
  match entry with
  | .error e => Action.fail (.io e)
  | .ok entry =>
    if limits.maxEntries < count + 1 then Action.fail (.tooManyEntries limits.maxEntries)
    else
      match entry.path with
      | .error e => Action.fail (.io e)
      | .ok path =>
        if isSafeRelative path then extractTyped env dest limits path entry report
        else Action.fail (.unsafePath (display path))

def extractEntries (env : Env) (dest : Dir) (limits : ExtractLimits) :
    List (Except IoError TarEntry) → Nat → ExtractReport → Extract ExtractReport
  | [], _, report => return report
  | entry :: rest, count, report => do
    let report ← extractEntry env dest limits count entry report
    extractEntries env dest limits rest (count + 1) report

def extractTar (env : Env) (archive : Archive) (bytes : Bytes) (dest : Dir)
    (limits : ExtractLimits) : Extract ExtractReport := do
  (createDirAll env dest.loc []).mapError .io
  let entries ← (Action.ofExcept (archive (decompressor bytes) bytes)).mapError
    OpenError.toExtract
  extractEntries env dest limits entries 0 {}

/-! ## Patching -/

structure PatchLimits where
  maxPatchBytes : Nat := 16 * 1024 * 1024
  maxFileBytes : Nat := 64 * 1024 * 1024
deriving DecidableEq, Repr

inductive PatchError where
  | io (path : Path.PathBuf) (error : IoError)
  | patchEscapes (path : String)
  | tooLarge (path : Path.PathBuf) (limit : Nat)
  | notUtf8 (path : Path.PathBuf)
  | malformed (patch : Path.PathBuf) (reason : String)
  | unsafeTarget (path : String)
  | doesNotApply (path : String)
deriving DecidableEq

abbrev Patching := Action World PatchError

/-- Reading a file's diff, and applying it to a text. -/
structure Diffy (π : Type) where
  fromStr : String → Except String π
  apply : String → π → Option String

def devNull : String := "/dev/null"

def isHunkLine (line : String) : Bool :=
  match (utf8 line).head? with
  | some b => b = 0x40 || b = 0x20 || b = 0x2b || b = 0x2d || b = 0x5c
  | none => false

/-- The chunks of `split_file_diffs`, of the lines of a text. -/
def fileDiffs : List String → List String
  | [] => []
  | [_] => []
  | l :: m :: rest =>
    if startsWith l "--- " && startsWith m "+++ " then
      (String.intercalate "\n" (l :: m :: rest.takeWhile isHunkLine) ++ "\n") ::
        fileDiffs (rest.dropWhile isHunkLine)
    else fileDiffs (m :: rest)
termination_by lines => lines.length
decreasing_by
  · have := (List.dropWhile_sublist isHunkLine (l := rest)).length_le
    simp only [List.length_cons]
    omega
  · simp

def splitFileDiffs (text : String) : List String := fileDiffs (lines text)

def headerPath (line linePrefix : String) : Option String :=
  match stripPrefix line linePrefix with
  | none => none
  | some rest =>
    let path := String.ofList (Text.trimEnd ((rest.toList.splitOn '\t').headD []))
    if path = "" then none else some path

def stripOne (path : String) : Option Path.PathBuf :=
  if path = devNull then none
  else
    match splitOnce path '/' with
    | none => none
    | some (_, rest) => if rest = "" then none else some (utf8 rest)

/-- `contained_join`: the path below the directory, if the path stays below it. -/
def containedJoin (root : Dir) (rel : Path.PathBuf) : Option Path.PathBuf :=
  if isSafeRelative rel then some (joinPath root.text rel) else none

/-- The loop of `safe_target`, behind the names that were looked at. -/
def probe (env : Env) (root : Dir) (rel : Path.PathBuf) : List Host.Name → List Host.Name → Patching Unit
  | _, [] => return ()
  | seen, n :: rest => do
    match ← (lstat env (root.baseOf rel) (seen ++ [n])).attempt with
    | .ok (.leaf (.link _)) => Action.fail (.unsafeTarget (display rel))
    | _ => probe env root rel (seen ++ [n]) rest

def safeTarget (env : Env) (root : Dir) (rel : Path.PathBuf) : Patching Path.PathBuf :=
  match containedJoin root rel with
  | none => Action.fail (.unsafeTarget (display rel))
  | some joined => do
    probe env root rel [] (namesOf rel)
    return joined

/-- `Metadata::len`, of a file. -/
def lengthOf : Lib.Entry Leaf → Nat
  | .leaf (.file content) => content.length
  | _ => 0

/-- `read_capped`, of the path `rel` below `root`, which is `path`. -/
def readCapped (env : Env) (root : Dir) (rel path : Path.PathBuf) (cap : Nat) : Patching Bytes := do
  let found ← (stat env (root.baseOf rel) (namesOf rel)).mapError (.io path)
  if cap < lengthOf found then Action.fail (.tooLarge path cap)
  else (fileOnly env rel (read env (root.baseOf rel) (namesOf rel))).mapError (.io path)

/-- The branch of a `+++ /dev/null`. -/
def deleteFile (env : Env) (root : Dir) (patchPath : Path.PathBuf) (orig : Option String) :
    Patching Unit :=
  match orig with
  | none => Action.fail (.malformed patchPath "deletion diff without an original path")
  | some orig =>
    match stripOne orig with
    | none => Action.fail (.unsafeTarget devNull)
    | some rel => do
      let target ← safeTarget env root rel
      let there ← (if directoryOnly rel then isDir env (root.baseOf rel) (namesOf rel)
        else pathExists env (root.baseOf rel) (namesOf rel)).mapError (.io target)
      if there then
        (fileOnly env rel (removeFile env (root.baseOf rel) (namesOf rel))).mapError (.io target)
      else return ()

/-- What the diff is applied to. -/
def baseText (env : Env) (root : Dir) (patchPath rel target : Path.PathBuf) (orig : Option String)
    (limits : PatchLimits) : Patching String :=
  if orig = some devNull then return ""
  else do
    let bytes ← readCapped env root rel target limits.maxFileBytes
    match decodeUtf8 bytes with
    | some text => return text
    | none => Action.fail (.malformed patchPath ("target " ++ display target ++ " is not UTF-8 text"))

/-- Put the patched text in its place. -/
def putPatched (env : Env) (root : Dir) (rel target : Path.PathBuf) (patched : String)
    (limits : PatchLimits) : Patching Unit := do
  if limits.maxFileBytes < (utf8 patched).length then
    Action.fail (.tooLarge target limits.maxFileBytes)
  else
    (createParent env root rel).mapError (.io (parentPath target))
    (fileOnly env rel (write env (root.baseOf rel) (namesOf rel) (utf8 patched))).mapError (.io target)

variable {π : Type}

def applyFileDiff (env : Env) (diffy : Diffy π) (root : Dir) (patchPath : Path.PathBuf)
    (chunk : String) (limits : PatchLimits) : Patching Unit :=
  let orig := headerPath ((lines chunk)[0]?.getD "") "--- "
  let modified := headerPath ((lines chunk)[1]?.getD "") "+++ "
  match diffy.fromStr chunk with
  | .error reason => Action.fail (.malformed patchPath reason)
  | .ok patch =>
    if modified = some devNull then deleteFile env root patchPath orig
    else
      match modified with
      | none => Action.fail (.malformed patchPath "diff without a target path")
      | some modified =>
        match stripOne modified with
        | none => Action.fail (.unsafeTarget "(empty)")
        | some rel => do
          let target ← safeTarget env root rel
          let base ← baseText env root patchPath rel target orig limits
          match diffy.apply base patch with
          | none => Action.fail (.doesNotApply (display target))
          | some patched => putPatched env root rel target patched limits

def applyPatchText (env : Env) (diffy : Diffy π) (root : Dir) (patchPath : Path.PathBuf)
    (text : String) (limits : PatchLimits) : Patching Unit :=
  Action.forEach (splitFileDiffs text) fun chunk =>
    applyFileDiff env diffy root patchPath chunk limits

/-- A round of the loop of `apply_patches`. -/
def applyPatch (env : Env) (diffy : Diffy π) (root recipeDir : Dir) (limits : PatchLimits)
    (rel : Path.PathBuf) : Patching Unit :=
  match containedJoin recipeDir rel with
  | none => Action.fail (.patchEscapes (display rel))
  | some patchPath => do
    let bytes ← readCapped env recipeDir rel patchPath limits.maxPatchBytes
    match decodeUtf8 bytes with
    | none => Action.fail (.notUtf8 patchPath)
    | some text => applyPatchText env diffy root patchPath text limits

def applyPatches (env : Env) (diffy : Diffy π) (root recipeDir : Dir)
    (patches : List Path.PathBuf) (limits : PatchLimits) : Patching Unit :=
  Action.forEach patches (applyPatch env diffy root recipeDir limits)

inductive PrepareError where
  | extract (error : ExtractError)
  | patch (error : PatchError)
deriving DecidableEq

/-- The second phase of the pipeline: extract, then patch. -/
def prepare (env : Env) (archive : Archive) (diffy : Diffy π) (bytes : Bytes) (dest recipeDir : Dir)
    (limits : ExtractLimits) (patches : List Path.PathBuf) (patchLimits : PatchLimits) :
    Action World PrepareError Unit := do
  let _ ← (extractTar env archive bytes dest limits).mapError .extract
  (applyPatches env diffy dest recipeDir patches patchLimits).mapError .patch

end Arlen.Forage
