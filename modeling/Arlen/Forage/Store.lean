import Mathlib.Data.Char
import Mathlib.Data.List.Lex
import Arlen.Lib.Bytes
import Arlen.Lib.Crash
import Arlen.Lib.Disk
import Arlen.Lib.Machine
import Arlen.Lib.Sort

/-!
# The content-addressed store

`Store` keeps objects under their content address and one empty marker for each owner
that refers to one. What `open` made, the directories `objects` and `refs`, is taken as
there; every other entry of the store is a `Loc`. An operation is the calls of `std::fs`
it makes, one after the other, under the store's lock. Any call may fail with an error
that is not `NotFound`, and the process may be killed at any call; one that breaks off
leaves the entries as they were, `write_all`, which may have written part of its bytes,
apart.
-/

namespace Arlen.Forage.Store

open Arlen.Lib Crash

/-! ## Content addresses -/

/-- `u8::is_ascii_hexdigit`. -/
def isHexdigit (c : Char) : Bool := "0123456789abcdefABCDEF".toList.contains c

def isLowerHex (c : Char) : Bool := "0123456789abcdef".toList.contains c

theorem isLowerHex_toLower {c : Char} (h : isHexdigit c = true) : isLowerHex c.toLower = true := by
  have hall : ∀ c ∈ "0123456789abcdefABCDEF".toList, isLowerHex c.toLower = true := by decide
  exact hall c (List.contains_iff_mem.1 h)

theorem isHexdigit_of_isLowerHex {c : Char} (h : isLowerHex c = true) :
    isHexdigit c = true ∧ c.toLower = c := by
  have hall : ∀ c ∈ "0123456789abcdef".toList, isHexdigit c = true ∧ c.toLower = c := by decide
  exact hall c (List.contains_iff_mem.1 h)

theorem isLowerHex_hexDigit {n : Nat} (h : n < 16) : isLowerHex (hexDigit n) = true := by
  revert n
  decide

/-- 64 lower-case hex digits. -/
structure ContentHash where
  digits : List Char
  wf : digits.length = 64 ∧ ∀ c ∈ digits, isLowerHex c = true
deriving DecidableEq

inductive IoError where
  | notFound
  | alreadyExists
  | isADirectory
  | notADirectory
  | directoryNotEmpty
  | other
deriving DecidableEq, Repr

inductive StoreError where
  | io (e : IoError)
  | notFound (hash : List Char)
  | integrity (expected actual : List Char)
  | mismatch (expected actual : List Char)
  | invalidHash (s : List Char)
  | invalidOwner (owner : List Char)
deriving DecidableEq, Repr

namespace ContentHash

theorem lower_wf {s : List Char} (h : s.length = 64 ∧ s.all isHexdigit = true) :
    (s.map Char.toLower).length = 64 ∧ ∀ c ∈ s.map Char.toLower, isLowerHex c = true := by
  refine ⟨by rw [List.length_map, h.1], fun c hc => ?_⟩
  obtain ⟨c', hc', rfl⟩ := List.mem_map.1 hc
  exact isLowerHex_toLower (List.all_eq_true.1 h.2 c' hc')

/-- `ContentHash::parse`; 64 bytes that are all hex digits are 64 characters. -/
def parse (s : List Char) : Except StoreError ContentHash :=
  if h : s.length = 64 ∧ s.all isHexdigit = true then .ok ⟨s.map Char.toLower, lower_wf h⟩
  else .error (.invalidHash s)

theorem ext {h h' : ContentHash} (heq : h.digits = h'.digits) : h = h' := by
  cases h
  cases h'
  cases heq
  rfl

/-- An address is read back, in either case. -/
theorem parse_digits (h : ContentHash) : parse h.digits = .ok h := by
  have hhex : h.digits.all isHexdigit = true :=
    List.all_eq_true.2 fun c hc => (isHexdigit_of_isLowerHex (h.wf.2 c hc)).1
  unfold parse
  rw [dif_pos ⟨h.wf.1, hhex⟩]
  refine congrArg _ (ext ?_)
  exact (List.map_congr_left fun c hc => (isHexdigit_of_isLowerHex (h.wf.2 c hc)).2).trans
    (List.map_id _)

theorem digits_wf (d : Digest) :
    (hex d.bytes).toList.length = 64 ∧ ∀ c ∈ (hex d.bytes).toList, isLowerHex c = true := by
  unfold hex
  rw [String.toList_ofList]
  constructor
  · rw [List.length_flatMap]
    show (d.bytes.map fun _ => 2).sum = 64
    rw [List.map_const', List.sum_replicate_nat, d.size]
  · intro c hc
    obtain ⟨x, -, hx⟩ := List.mem_flatMap.1 hc
    have hbyte := x.toNat_lt
    rcases List.mem_cons.1 hx with rfl | hx
    · exact isLowerHex_hexDigit (by omega)
    · rw [List.mem_singleton.1 hx]
      exact isLowerHex_hexDigit (by omega)

/-- `ContentHash::of`. -/
def of (sha256 : Bytes → Digest) (bytes : Bytes) : ContentHash :=
  ⟨(hex (sha256 bytes).bytes).toList, digits_wf _⟩

/-- The name of the shard. -/
def shard (h : ContentHash) : List Char := h.digits.take 2

end ContentHash

/-! ## The entries -/

abbrev Owner := List Char

inductive Loc where
  /-- `objects/<ab>`. -/
  | shard (ab : List Char)
  /-- `objects/<ab>/<hash>`. -/
  | object (h : ContentHash)
  /-- `objects/<ab>/.tmp-<pid>-<counter>-<hash8>`. -/
  | temp (ab : List Char) (pid counter : Nat) (hash8 : List Char)
  /-- `refs/<hash>`. -/
  | refs (h : ContentHash)
  /-- `refs/<hash>/<owner>`. -/
  | marker (h : ContentHash) (owner : Owner)
deriving DecidableEq

inductive Node where
  | dir
  /-- A file, and whether its bytes are on the medium. -/
  | file (content : Bytes) (synced : Bool)
deriving DecidableEq

abbrev Vol := Disk Loc Node

inductive Dir where
  | objects
  | shard (ab : List Char)
  | refsRoot
  | refs (h : ContentHash)
deriving DecidableEq

/-- The directory an entry is in. -/
def Loc.dir : Loc → Dir
  | .shard _ => .objects
  | .object h => .shard h.shard
  | .temp ab _ _ _ => .shard ab
  | .refs _ => .refsRoot
  | .marker h _ => .refs h

/-- The entry of a directory; `objects` and `refs` are always there. -/
def Dir.loc : Dir → Option Loc
  | .objects => none
  | .shard ab => some (.shard ab)
  | .refsRoot => none
  | .refs h => some (.refs h)

def Dir.inside (D : Dir) (k : Loc) : Bool := decide (k.dir = D)

def Dir.there (D : Dir) (d : Vol) : Bool :=
  match D.loc with
  | none => true
  | some k => decide (d.live k = some .dir)

/-- The name of an entry of a shard. -/
def Loc.name : Loc → List Char
  | .shard ab => ab
  | .object h => h.digits
  | .temp _ pid counter hash8 => ".tmp-".toList ++ (toString pid).toList ++ '-' ::
      ((toString counter).toList ++ '-' :: hash8)
  | .refs h => h.digits
  | .marker _ owner => owner

/-- The name of a temporary file is no content address. -/
theorem parse_name_temp (ab : List Char) (pid counter : Nat) (hash8 : List Char) :
    ∃ e, ContentHash.parse (Loc.temp ab pid counter hash8).name = .error e := by
  unfold ContentHash.parse
  rw [dif_neg]
  · exact ⟨_, rfl⟩
  · rintro ⟨-, h⟩
    have htmp : '.' ∈ ".tmp-".toList := by decide
    have hdot := List.all_eq_true.1 h '.' (List.mem_append_left _ (List.mem_append_left _ htmp))
    revert hdot
    decide

/-! ## Calls -/

/-- A call breaks off; of the bytes of a `write_all` some may have been written by then. -/
abbrev Fault := Crash.Fault Nat

abbrev Stop := Crash.Stop StoreError

abbrev Op := Crash.Op Vol StoreError

/-- What surrounds an operation: which calls break off, in which order a directory is
listed, and the numbers in the names of temporary files. -/
structure Env where
  plan : Nat → Option Fault
  order : List Loc → List Loc
  perm : ∀ l, (order l).Perm l
  pid : Nat
  counter : Nat

def call {α : Type} (env : Env) (f : Vol → Except IoError (α × Vol)) (part : Nat → Vol → Vol) :
    Op α :=
  Crash.call env.plan (.io .other) (fun d => (f d).mapError .io) part

/-- A call that only looks. -/
def look {α : Type} (env : Env) (f : Vol → Except IoError α) : Op α :=
  call env (fun d => (f d).map fun a => (a, d)) fun _ d => d

/-- A call that changes an entry. -/
def change (env : Env) (f : Vol → Except IoError Vol) : Op Unit :=
  call env (fun d => (f d).map fun d' => ((), d')) fun _ d => d

/-- `Path::exists`. -/
def pathExists (env : Env) (k : Loc) : Op Bool :=
  recover (look env fun d => .ok (d.live k).isSome) fun _ => pure false

/-- `Path::is_dir`. -/
def isDir (env : Env) (k : Loc) : Op Bool :=
  recover (look env fun d => .ok (decide (d.live k = some .dir))) fun _ => pure false

/-- `fs::read`. -/
def readFile (env : Env) (k : Loc) : Op Bytes :=
  look env fun d =>
    match d.live k with
    | some (.file content _) => .ok content
    | some .dir => .error .isADirectory
    | none => .error .notFound

/-- `metadata()?.len()`. -/
def fileLen (env : Env) (k : Loc) : Op Nat :=
  look env fun d =>
    match d.live k with
    | some (.file content _) => .ok content.length
    | some .dir => .ok 0
    | none => .error .notFound

/-- `fs::read_dir`, with all its entries. -/
def readDir (env : Env) (D : Dir) : Op (List Loc) :=
  look env fun d => if D.there d then .ok (env.order (d.listed D.inside)) else .error .notFound

/-- The next entry of a directory that is being read. -/
def nextEntry (env : Env) : Op Unit := look env fun _ => .ok ()

def mkdir (env : Env) (k : Loc) : Op Unit :=
  change env fun d =>
    if d.live k ≠ none then .error .alreadyExists
    else if k.dir.there d then .ok (d.set k (some .dir))
    else .error .notFound

/-- `fs::create_dir_all`, of a directory whose parent is there. -/
def createDirAll (env : Env) (k : Loc) : Op Unit :=
  recover (mkdir env k) fun e => do
    if ← isDir env k then return ()
    Action.fail (.error e)

/-- `OpenOptions::create_new`. -/
def createNew (env : Env) (k : Loc) : Op Unit :=
  change env fun d =>
    if d.live k ≠ none then .error .alreadyExists
    else if k.dir.there d then .ok (d.set k (some (.file [] false)))
    else .error .notFound

/-- `fs::File::create`, which cuts a file that is there to nothing. -/
def createFile (env : Env) (k : Loc) : Op Unit :=
  change env fun d =>
    match d.live k with
    | some (.file _ _) => .ok (d.alter k fun _ => .file [] false)
    | some .dir => .error .isADirectory
    | none => if k.dir.there d then .ok (d.set k (some (.file [] false))) else .error .notFound

/-- `write_all`, to an open file. -/
def writeAll (env : Env) (k : Loc) (bytes : Bytes) : Op Unit :=
  call env (fun d => .ok ((), d.alter k fun _ => .file bytes false)) fun n d =>
    d.alter k fun _ => .file (bytes.take n) false

def Node.sync : Node → Node
  | .dir => .dir
  | .file content _ => .file content true

/-- `sync_all`, of an open file. -/
def syncAll (env : Env) (k : Loc) : Op Unit := change env fun d => .ok (d.alter k Node.sync)

/-- `fs::rename`, of a file. -/
def rename (env : Env) (src dst : Loc) : Op Unit :=
  change env fun d =>
    match d.live src with
    | none => .error .notFound
    | some n => if d.live dst = some .dir then .error .isADirectory
      else .ok ((d.set src none).set dst (some n))

def removeFile (env : Env) (k : Loc) : Op Unit :=
  change env fun d =>
    match d.live k with
    | none => .error .notFound
    | some .dir => .error .isADirectory
    | some (.file _ _) => .ok (d.set k none)

/-- `fs::remove_dir`. -/
def removeDir (env : Env) (D : Dir) (k : Loc) : Op Unit :=
  change env fun d =>
    if D.there d then
      if d.listed D.inside = [] then .ok (d.set k none) else .error .directoryNotEmpty
    else .error .notFound

/-- `fsync_dir`. -/
def fsyncDir (env : Env) (D : Dir) : Op Unit := do
  if ← look env fun d => .ok (D.there d) then change env fun d => .ok (d.sync D.inside)

/-- A directory is created, and a new one written down before anything is put into it. -/
def ensureDir (env : Env) (k : Loc) : Op Unit := do
  let created := !(← pathExists env k)
  createDirAll env k
  if created then fsyncDir env k.dir

/-! ## The operations -/

/-- `validate_owner`. -/
def validateOwner (owner : Owner) : Except StoreError Unit :=
  if owner = [] ∨ owner = ['.'] ∨ owner = ['.', '.'] ∨ '/' ∈ owner ∨ '\\' ∈ owner ∨
      Char.ofNat 0 ∈ owner then
    .error (.invalidOwner owner)
  else .ok ()

/-- `lock`: opening the lock file, and waiting for the lock. -/
def lock (env : Env) : Op Unit := do
  look env fun _ => .ok ()
  look env fun _ => .ok ()

section Operations

variable (sha256 : Bytes → Digest) (env : Env)

/-- Whether the object is there with the bytes it is named for. -/
def intact (hash : ContentHash) : Op Bool := do
  if ← pathExists env (.object hash) then
    recover (do
      let existing ← readFile env (.object hash)
      return decide (ContentHash.of sha256 existing = hash)) fun _ => pure false
  else return false

def tempLoc (hash : ContentHash) : Loc :=
  .temp hash.shard env.pid env.counter (hash.digits.take 8)

/-- The temporary file, written and synced. -/
def writeTemp (hash : ContentHash) (bytes : Bytes) : Op Unit := do
  createNew env (tempLoc env hash)
  writeAll env (tempLoc env hash) bytes
  syncAll env (tempLoc env hash)

/-- It takes the place of the object, or is removed. -/
def renameTemp (hash : ContentHash) : Op Unit :=
  recover (rename env (tempLoc env hash) (.object hash)) fun e => do
    ignore (removeFile env (tempLoc env hash))
    Action.fail (.error e)

/-- `write_object_unlocked`, of an object that is not there intact. -/
def publish (hash : ContentHash) (bytes : Bytes) : Op Unit := do
  ensureDir env (.shard hash.shard)
  writeTemp env hash bytes
  renameTemp env hash
  fsyncDir env (.shard hash.shard)

def writeObjectUnlocked (hash : ContentHash) (bytes : Bytes) : Op Unit := do
  if ← intact sha256 env hash then return ()
  publish env hash bytes

def addRefUnlocked (hash : ContentHash) (owner : Owner) : Op Unit := do
  if ← pathExists env (.object hash) then
    ensureDir env (.refs hash)
    createFile env (.marker hash owner)
    syncAll env (.marker hash owner)
    fsyncDir env (.refs hash)
  else Action.fail (.error (.notFound hash.digits))

/-- `refcount_unlocked`: a directory that is not there counts as empty. -/
def refcountUnlocked (hash : ContentHash) : Op Nat := do
  let entries ← look env fun d =>
    match d.live (.refs hash) with
    | some .dir => .ok (env.order (d.listed (Dir.refs hash).inside))
    | some (.file _ _) => .error .notADirectory
    | none => .ok []
  Action.forEach entries fun _ => nextEntry env
  return entries.length

/-- Fetched bytes have to be the ones that were expected. -/
def checkExpected (actual : ContentHash) : Option ContentHash → Except StoreError Unit
  | some expected =>
    if actual ≠ expected then .error (.mismatch expected.digits actual.digits) else .ok ()
  | none => .ok ()

def checkOwner : Option Owner → Except StoreError Unit
  | some owner => validateOwner owner
  | none => .ok ()

def root (hash : ContentHash) : Option Owner → Op Unit
  | some owner => addRefUnlocked env hash owner
  | none => pure ()

/-- `put_inner`. -/
def putInner (bytes : Bytes) (expected : Option ContentHash) (owner : Option Owner) :
    Op ContentHash := do
  let actual := ContentHash.of sha256 bytes
  orStop (checkExpected actual expected)
  orStop (checkOwner owner)
  lock env
  writeObjectUnlocked sha256 env actual bytes
  root env actual owner
  return actual

def put (bytes : Bytes) : Op ContentHash := putInner sha256 env bytes none none

def putVerified (bytes : Bytes) (expected : ContentHash) : Op ContentHash :=
  putInner sha256 env bytes (some expected) none

def putReferenced (bytes : Bytes) (owner : Owner) : Op ContentHash :=
  putInner sha256 env bytes none (some owner)

def putVerifiedReferenced (bytes : Bytes) (expected : ContentHash) (owner : Owner) :
    Op ContentHash :=
  putInner sha256 env bytes (some expected) (some owner)

def has (hash : ContentHash) : Op Bool := pathExists env (.object hash)

/-- The bytes of an object, if they hash to its name. -/
def checkIntegrity (hash : ContentHash) (bytes : Bytes) : Except StoreError Bytes :=
  let actual := ContentHash.of sha256 bytes
  if actual ≠ hash then .error (.integrity hash.digits actual.digits) else .ok bytes

/-- `Store::read`. -/
def read (hash : ContentHash) : Op Bytes := do
  if ← pathExists env (.object hash) then
    let bytes ← readFile env (.object hash)
    orStop (checkIntegrity sha256 hash bytes)
  else Action.fail (.error (.notFound hash.digits))

def addRef (hash : ContentHash) (owner : Owner) : Op Unit := do
  orStop (validateOwner owner)
  lock env
  addRefUnlocked env hash owner

def refcount (hash : ContentHash) : Op Nat := do
  lock env
  refcountUnlocked env hash

/-- The loop of `release` over the directories of `refs`. -/
def releaseIn (owner : Owner) : List Loc → Nat → Op Nat
  | [], removed => pure removed
  | .refs h :: dirs, removed => do
    nextEntry env
    if ← pathExists env (.marker h owner) then
      removeFile env (.marker h owner)
      fsyncDir env (.refs h)
      releaseIn owner dirs (removed + 1)
    else releaseIn owner dirs removed
  | _ :: dirs, removed => releaseIn owner dirs removed

def release (owner : Owner) : Op Nat := do
  orStop (validateOwner owner)
  lock env
  let dirs ← readDir env .refsRoot
  releaseIn env owner dirs 0

structure GcReport where
  removed : List ContentHash
  bytesFreed : Nat

/-- The loop of `gc` over the entries of a shard. -/
def gcShard : List Loc → GcReport → Op GcReport
  | [], report => pure report
  | k :: objects, report => do
    nextEntry env
    match ContentHash.parse k.name with
    | .error _ => gcShard objects report
    | .ok hash =>
      if (← refcountUnlocked env hash) = 0 then
        let size ← recover (fileLen env k) fun _ => pure 0
        removeFile env k
        ignore (removeDir env (.refs hash) (.refs hash))
        gcShard objects ⟨report.removed ++ [hash], report.bytesFreed + size⟩
      else gcShard objects report

/-- The loop of `gc` over the shards. -/
def gcShards : List Loc → GcReport → Op GcReport
  | [], report => pure report
  | .shard ab :: shards, report => do
    nextEntry env
    if ← isDir env (.shard ab) then
      let objects ← readDir env (.shard ab)
      let report ← gcShard env objects report
      fsyncDir env (.shard ab)
      gcShards shards report
    else gcShards shards report
  | _ :: shards, report => gcShards shards report

def gc : Op GcReport := do
  lock env
  let shards ← readDir env .objects
  let report ← gcShards env shards ⟨[], 0⟩
  return ⟨sortBy ContentHash.digits report.removed, report.bytesFreed⟩

end Operations

/-! ## Runs -/

/-- Something happens to the store. -/
inductive Act where
  | put (env : Env) (bytes : Bytes) (expected : Option ContentHash) (owner : Option Owner)
  | addRef (env : Env) (hash : ContentHash) (owner : Owner)
  | release (env : Env) (owner : Owner)
  | gc (env : Env)
  | refcount (env : Env) (hash : ContentHash)
  | read (env : Env) (hash : ContentHash)
  /-- The bytes of an object change on the medium. -/
  | damage (hash : ContentHash) (content : Bytes)
  | powerLoss (found : Loc → Nat) (garbage : Loc → Bytes)

inductive Reply where
  | hash (r : Except Stop ContentHash)
  | done (r : Except Stop Unit)
  | count (r : Except Stop Nat)
  | report (r : Except Stop GcReport)
  | content (r : Except Stop Bytes)
  | none

def performed {α : Type} (op : Op α) (reply : Except Stop α → Reply) (d : Vol) :
    Option (Reply × Vol) :=
  (perform op d).map fun r => (reply r.1, r.2)

theorem performed_eq {α : Type} {op : Op α} {reply : Except Stop α → Reply} {d d' : Vol}
    {res : Except Stop α} (h : perform op d = some (res, d')) :
    performed op reply d = some (reply res, d') := by
  rw [performed, h, Option.map_some]

/-- The directories above an entry. -/
def Loc.above (k : Loc) : List Loc := k.dir.loc.toList

/-- Bytes that were not synced are anything after a loss of power. -/
def Node.spoil (garbage : Bytes) : Node → Node
  | .file _ false => .file garbage true
  | n => n

def Vol.lose (d : Vol) (found : Loc → Nat) (garbage : Loc → Bytes) : Vol :=
  Disk.lose d Loc.above found fun k => Node.spoil (garbage k)

def Vol.damage (d : Vol) (hash : ContentHash) (content : Bytes) : Vol :=
  d.alter (.object hash) fun
    | .file _ synced => .file content synced
    | .dir => .dir

def step (sha256 : Bytes → Digest) (d : Vol) : Act → Option (Reply × Vol)
  | .put env bytes expected owner => performed (putInner sha256 env bytes expected owner) .hash d
  | .addRef env hash owner => performed (addRef env hash owner) .done d
  | .release env owner => performed (release env owner) .count d
  | .gc env => performed (gc env) .report d
  | .refcount env hash => performed (refcount env hash) .count d
  | .read env hash => performed (read sha256 env hash) .content d
  | .damage hash content => some (.none, Vol.damage d hash content)
  | .powerLoss found garbage => some (.none, Vol.lose d found garbage)

/-- The store, from the moment `open` made it. -/
def machine (sha256 : Bytes → Digest) : Machine Vol Act Reply := ⟨Disk.empty, step sha256⟩

end Arlen.Forage.Store
