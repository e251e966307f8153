import Arlen.Lib.Lossy
import Arlen.Lib.Percent
import Arlen.Lib.Str

/-!
# The marks of the shell

`apps/terminal/core/src/vt.rs`: the OSC marks a shell writes between the bytes of its output,
and the scanner that finds them. The scanner keeps track of the escape sequences only as far
as it takes to tell where an OSC begins and ends; a payload that is terminated is decoded and
read as a mark. A mark that reports a command line counts only with the nonce of the session.
-/

namespace Arlen.Terminal

open Arlen.Lib

/-! ## Marks -/

inductive VtEvent where
  | promptStart
  | commandLine (command : String)
  | execStart
  | commandEnd (exitCode : Option Int)
  | cwdChanged (cwd : String)
  | title (title : String)
deriving DecidableEq, Repr

/-- The text before the first `;` and the text behind it. -/
def splitFirstField (s : String) : String × String := (splitOnce s ';').getD (s, "")

/-- `str::parse::<i32>`. -/
def parseI32 (s : String) : Option Int :=
  let (negative, digits) := match s.toList with
    | '-' :: digits => (true, digits)
    | '+' :: digits => (false, digits)
    | digits => (false, digits)
  if digits.isEmpty || !digits.all Char.isDigit then none
  else
    let n : Int := digits.foldl (fun n c => 10 * n + (c.toNat - 48)) (0 : Nat)
    let v := if negative then -n else n
    if -2147483648 ≤ v ∧ v ≤ 2147483647 then some v else none

def parseExit (tail : String) : Option Int :=
  let field := (splitFirstField tail).1
  if field.isEmpty then none else parseI32 field

/-- The path of a `file` URI, its host dropped. -/
def cwdFromFileUri (uri : String) : Option String := do
  let after ← stripPrefix uri "file://"
  let path := match after.toList.dropWhile (· ≠ '/') with
    | [] => "/"
    | path => String.ofList path
  some (fromUtf8Lossy (percentDecode (utf8 path)))

/-- `\xHH` becomes the byte it names; what is not such an escape stays. -/
def unescapeBytes : Bytes → Bytes
  | b :: x :: high :: low :: rest =>
    if b = 0x5c ∧ x = 0x78 then
      match hexPair high low with
      | some v => v :: unescapeBytes rest
      | none => b :: unescapeBytes (x :: high :: low :: rest)
    else b :: unescapeBytes (x :: high :: low :: rest)
  | b :: rest => b :: unescapeBytes rest
  | [] => []

def unescape633 (s : String) : String := fromUtf8Lossy (unescapeBytes (utf8 s))

example : unescape633 "ls\\x3b\\x20-l\\xg" = "ls; -l\\xg" := by decide +kernel

/-- Compare over the whole length, whatever differs. -/
def nonceMatches (provided session : String) : Bool :=
  let a := utf8 provided
  let b := utf8 session
  if a.length ≠ b.length then false
  else ((a.zip b).foldl (fun diff xy => diff ||| (xy.1 ^^^ xy.2)) 0) == (0 : UInt8)

/-- Read an OSC payload as a mark. -/
def parseOscMark (payload sessionNonce : String) : Option VtEvent :=
  let (code, rest) := splitFirstField payload
  match code with
  | "7" => (cwdFromFileUri rest).map .cwdChanged
  | "0" => some (.title rest)
  | "2" => some (.title rest)
  | "133" =>
    let (sub, tail) := splitFirstField rest
    match sub with
    | "A" => some .promptStart
    | "C" => some .execStart
    | "D" => some (.commandEnd (parseExit tail))
    | _ => none
  | "633" =>
    let (sub, tail) := splitFirstField rest
    match sub with
    | "A" => some .promptStart
    | "C" => some .execStart
    | "D" => some (.commandEnd (parseExit tail))
    | "E" => do
      let (escapedCmd, providedNonce) ← rsplitOnce tail ';'
      if sessionNonce.isEmpty || !nonceMatches providedNonce sessionNonce then none
      else some (.commandLine (unescape633 escapedCmd))
    | "P" => (stripPrefix tail "Cwd=").map .cwdChanged
    | _ => none
  | _ => none

/-! ## The scanner -/

def maxOscPayload : Nat := 8192

def esc : UInt8 := 0x1b

def bel : UInt8 := 0x07

inductive ScanState where
  | ground
  | escape
  | osc
  | oscEsc
  | stringSeq
  | stringEsc
deriving DecidableEq, Repr

structure OscScanner where
  nonce : String
  state : ScanState
  buf : Bytes
  overflowed : Bool

namespace OscScanner

def new (nonce : String) : OscScanner := ⟨nonce, .ground, [], false⟩

def resetBuf (s : OscScanner) : OscScanner := { s with buf := [], overflowed := false }

/-- The byte behind an ESC. -/
def dispatchAfterEsc (s : OscScanner) (b : UInt8) : OscScanner :=
  if b = 0x5d then { s.resetBuf with state := .osc }
  else if b = 0x50 ∨ b = 0x58 ∨ b = 0x5e ∨ b = 0x5f then { s with state := .stringSeq }
  else { s with state := .ground }

def pushOsc (s : OscScanner) (b : UInt8) : OscScanner :=
  if s.buf.length < maxOscPayload then { s with buf := s.buf ++ [b], state := .osc }
  else { s with overflowed := true, state := .osc }

/-- End the OSC: its mark, unless it grew too long, with the offset behind it. -/
def finishOsc (s : OscScanner) (offset : Nat) : OscScanner × List (Nat × VtEvent) :=
  let events := if s.overflowed then []
    else ((parseOscMark (fromUtf8Lossy s.buf) s.nonce).map (offset, ·)).toList
  ({ s.resetBuf with state := .ground }, events)

/-- One byte, at index `i` of the chunk. -/
def scanByte (s : OscScanner) (i : Nat) (b : UInt8) : OscScanner × List (Nat × VtEvent) :=
  match s.state with
  | .ground => (if b = esc then { s with state := .escape } else s, [])
  | .escape => (s.dispatchAfterEsc b, [])
  | .osc =>
    if b = bel then s.finishOsc (i + 1)
    else if b = esc then ({ s with state := .oscEsc }, [])
    else (s.pushOsc b, [])
  | .oscEsc =>
    if b = 0x5c then s.finishOsc (i + 1) else (s.resetBuf.dispatchAfterEsc b, [])
  | .stringSeq => (if b = esc then { s with state := .stringEsc } else s, [])
  | .stringEsc =>
    ({ s with state := if b = 0x5c then .ground else if b = esc then .stringEsc else .stringSeq }, [])

/-- The bytes of a chunk from index `i` on. -/
def scanFrom (s : OscScanner) (i : Nat) : Bytes → OscScanner × List (Nat × VtEvent)
  | [] => (s, [])
  | b :: bytes =>
    let (s', events) := s.scanByte i b
    let (s'', more) := s'.scanFrom (i + 1) bytes
    (s'', events ++ more)

def feedPositioned (s : OscScanner) (bytes : Bytes) : OscScanner × List (Nat × VtEvent) :=
  s.scanFrom 0 bytes

def feed (s : OscScanner) (bytes : Bytes) : OscScanner × List VtEvent :=
  let (s', events) := s.feedPositioned bytes
  (s', events.map (·.2))

/-- Feed the chunks of a stream, one behind the other. -/
def feedAll (s : OscScanner) : List Bytes → OscScanner × List VtEvent
  | [] => (s, [])
  | chunk :: chunks =>
    let (s', events) := s.feed chunk
    let (s'', more) := s'.feedAll chunks
    (s'', events ++ more)

/-! ## Chunks -/

variable {s : OscScanner} {i j : Nat} {b : UInt8} {bytes rest : Bytes}

theorem scanByte_fst (s : OscScanner) (i j : Nat) (b : UInt8) :
    (s.scanByte i b).1 = (s.scanByte j b).1 := by
  unfold scanByte finishOsc
  repeat' split
  all_goals rfl

theorem scanByte_events (s : OscScanner) (i j : Nat) (b : UInt8) :
    (s.scanByte i b).2.map (·.2) = (s.scanByte j b).2.map (·.2) := by
  unfold scanByte finishOsc
  repeat' split
  all_goals
    first
    | rfl
    | (cases parseOscMark (fromUtf8Lossy s.buf) s.nonce <;> rfl)

/-- Where a chunk begins changes the offsets and nothing else. -/
theorem scanFrom_shift (s : OscScanner) (i j : Nat) (bytes : Bytes) :
    (s.scanFrom i bytes).1 = (s.scanFrom j bytes).1 ∧
      (s.scanFrom i bytes).2.map (·.2) = (s.scanFrom j bytes).2.map (·.2) := by
  induction bytes generalizing s i j with
  | nil => exact ⟨rfl, rfl⟩
  | cons b bytes ih =>
    simp only [scanFrom, List.map_append]
    rw [scanByte_fst s i j, scanByte_events s i j]
    obtain ⟨hstate, hevents⟩ := ih (s.scanByte j b).1 (i + 1) (j + 1)
    exact ⟨hstate, by rw [hevents]⟩

theorem scanFrom_append (s : OscScanner) (i : Nat) (bytes rest : Bytes) :
    s.scanFrom i (bytes ++ rest) =
      (((s.scanFrom i bytes).1.scanFrom (i + bytes.length) rest).1,
        (s.scanFrom i bytes).2 ++ ((s.scanFrom i bytes).1.scanFrom (i + bytes.length) rest).2) := by
  induction bytes generalizing s i with
  | nil => rfl
  | cons b bytes ih =>
    simp only [List.cons_append, scanFrom, ih, List.length_cons, List.append_assoc]
    rw [show i + 1 + bytes.length = i + (bytes.length + 1) by omega]

/-- **The chunks do not matter**: fed in pieces or at once, the stream has the same marks. -/
theorem feedAll_eq_feed (s : OscScanner) (chunks : List Bytes) :
    s.feedAll chunks = s.feed chunks.flatten := by
  induction chunks generalizing s with
  | nil => rfl
  | cons chunk chunks ih =>
    simp only [feedAll, ih, List.flatten_cons, feed, feedPositioned, scanFrom_append,
      List.map_append]
    obtain ⟨hstate, hevents⟩ :=
      scanFrom_shift (s.scanFrom 0 chunk).1 0 (0 + chunk.length) chunks.flatten
    rw [hstate, hevents]

end OscScanner

theorem nonce_scanByte (s : OscScanner) (i : Nat) (b : UInt8) : (s.scanByte i b).1.nonce = s.nonce := by
  unfold OscScanner.scanByte OscScanner.finishOsc OscScanner.dispatchAfterEsc OscScanner.pushOsc
    OscScanner.resetBuf
  repeat' split
  all_goals rfl

end Arlen.Terminal
