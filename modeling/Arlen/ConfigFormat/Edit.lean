import Arlen.ConfigFormat.Line

/-!
# Editing a configuration

The editing half of `line_model.rs`, the four handlers over it, and `selfcheck.rs`: an edit is
made on the lines, written out, and given back only if reading what was written shows the edit,
no other key changed, and every other line still there.
-/

namespace Arlen.ConfigFormat

open Arlen.Lib

variable {F : Type} [DecidableEq F]

/-! ## Errors -/

inductive ParseError where
  | tooLarge
  | malformed (format detail : String)
  | tooDeep (limit : Nat)
  | notUtf8
deriving DecidableEq

def ParseError.display : ParseError → String
  | tooLarge => "config too large"
  | malformed format detail => s!"malformed {format}: {detail}"
  | tooDeep limit => s!"config nested too deeply (> {limit})"
  | notUtf8 => "config is not valid UTF-8"

inductive SelfCheckError where
  | candidateUnparsable (message : String)
  | editDidNotApply (key : Str)
  | collateralChange (key : Str)
  | unmodelledContentChanged
deriving DecidableEq

inductive EditError where
  | failed (message : String)
  | opaqueTarget (key : Str)
  | selfCheck (e : SelfCheckError)
deriving DecidableEq

/-! ## The lines of a document -/

/-- `MAX_CONFIG_BYTES`. -/
def maxConfigBytes : Nat := 4 * 1024 * 1024

structure LineModel (F : Type) where
  dialect : LineDialect
  lines : List (Line F)
  trailingNewline : Bool

def splitLines (text : Str) : List Str :=
  if text.isEmpty then []
  else
    let normalizedEnd := (Text.stripSuffix ['\n'] text).getD text
    (normalizedEnd.splitOn '\n').map fun l => (Text.stripSuffix ['\r'] l).getD l

/-- The values of a document in its order. -/
abbrev ConfigModel (F : Type) := List (Str × ConfigValue F)

/-- The first occurrence wins. -/
def ConfigModel.get (m : ConfigModel F) (key : Str) : Option (ConfigValue F) := m.lookup key

section Model

variable (f64 : Float64 F)

/-- One line, in the section that stands so far. -/
def parseLine (dialect : LineDialect) (currentSection : Option Str) (raw : Str) : Line F :=
  let trimmed := Text.trimStart raw
  if trimmed.isEmpty || trimmed.head? == some dialect.commentChar ||
      "//".toList.isPrefixOf trimmed then .other raw
  else
    match (if dialect.sections then parseSectionHeader trimmed else none) with
    | some name => .header raw name
    | none =>
      match parseKeyLine f64 raw dialect currentSection with
      | some kv => .keyVal kv
      | none => .other raw

def parseLines (dialect : LineDialect) : Option Str → List Str → List (Line F)
  | _, [] => []
  | currentSection, raw :: rest =>
    let line := parseLine f64 dialect currentSection raw
    line :: parseLines dialect
      (match line with
        | .header _ name => some name
        | _ => currentSection) rest

def LineModel.parse (text : Str) (dialect : LineDialect) : Except ParseError (LineModel F) :=
  if Text.byteLen text > maxConfigBytes then .error .tooLarge
  else .ok ⟨dialect, parseLines f64 dialect none (splitLines text), text.getLast? == some '\n'⟩

namespace LineModel

variable (m : LineModel F)

def toModel : ConfigModel F :=
  m.lines.filterMap fun
    | .keyVal kv => some (kv.key, kv.value)
    | _ => none

/-- Whether a line carries the key. -/
def carries (key : Str) : Line F → Bool
  | .keyVal kv => kv.key == key
  | _ => false

def findKeyIndex (key : Str) : Option Nat := m.lines.findIdx? (carries key)

def serializeValue (value : ConfigValue F) : Except String Str :=
  match value with
  | .opaqueValue => .error "cannot serialize an opaque (non-scalar) value"
  | .string s =>
    .ok <| match m.dialect.quote with
      | .bare => s
      | .shell => shellQuote s m.dialect.commentChar
      | .jsLiteral => jsQuote s
  | .bool b => .ok (toString b).toList
  | .int i => .ok (toString i).toList
  | .float f => .ok (formatFloat f64 f)

/-- The lines joined, with a last newline where there was one. -/
def emitText (lines : List Str) (trailingNewline : Bool) : Str :=
  ['\n'].intercalate lines ++ if trailingNewline && !lines.isEmpty then ['\n'] else []

def emit (lines : List (Line F)) : Str := emitText (lines.map Line.raw) m.trailingNewline

def formatKeyLine (key token : Str) : Str :=
  match m.dialect.statement with
  | some func => func ++ "(\"".toList ++ key ++ "\", ".toList ++ token ++ ");".toList
  | none => key ++ m.dialect.insertSeparator ++ token

def isHeader : Line F → Bool
  | .header _ _ => true
  | _ => false

/-- The last line of the section: the line before the next header, or the last of all. -/
def lastLineOfSection (name : Str) : Option Nat :=
  (m.lines.findIdx? fun
    | .header _ n => n == name
    | _ => false).map fun header =>
      header + ((m.lines.drop (header + 1)).takeWhile (!isHeader ·)).length

/-- A text as an error quotes it. Beyond ASCII every character stands for itself. -/
def quoted (s : Str) : Str :=
  '"' :: s.flatMap (fun c =>
    match c with
    | '\t' => "\\t".toList
    | '\r' => "\\r".toList
    | '\n' => "\\n".toList
    | '"' => "\\\"".toList
    | '\\' => "\\\\".toList
    | c =>
      if c.toNat = 0 then "\\0".toList
      else if c.toNat < 32 ∨ c.toNat = 127 then
        "\\u\x7b".toList ++ Nat.toDigits 16 c.toNat ++ "\x7d".toList
      else [c]) ++ ['"']

def insertKey (key : Str) (value : ConfigValue F) : Except String Str :=
  match m.serializeValue f64 value with
  | .error e => .error e
  | .ok token =>
    if m.dialect.sections then
      match Text.splitOnce '.' key with
      | none => .error ("key-path " ++ String.ofList (quoted key) ++ " has no section")
      | some (name, localKey) =>
        let newLine := m.formatKeyLine localKey token
        match m.lastLineOfSection name with
        | some insertAt => .ok (m.emit (m.lines.insertIdx (insertAt + 1) (.other newLine)))
        | none =>
          .ok (m.emit (m.lines ++ [.other ('[' :: name ++ [']']), .other newLine]))
    else .ok (m.emit (m.lines ++ [.other (m.formatKeyLine key token)]))

def set (key : Str) (value : ConfigValue F) : Except String Str :=
  match m.findKeyIndex key with
  | some idx =>
    match m.lines[idx]? with
    | some (.keyVal kv) =>
      match m.serializeValue f64 value with
      | .error e => .error e
      | .ok newToken =>
        let newRaw := kv.raw.take kv.start ++ newToken ++ kv.raw.drop kv.stop
        .ok (m.emit (m.lines.set idx (.other newRaw)))
    | _ => .error "internal: key index did not point at a key line"
  | none => m.insertKey f64 key value

def remove (key : Str) : Str :=
  match m.findKeyIndex key with
  | none => m.emit m.lines
  | some idx => m.emit (m.lines.eraseIdx idx)

end LineModel

/-! ## Handlers -/

/-- The formats of the line engine. -/
inductive LineFormat where
  | ini
  | firefoxPrefs
  | env
  | flat
deriving DecidableEq, Repr

def LineFormat.dialect : LineFormat → LineDialect
  | ini => ⟨true, ['=', ':'], " = ".toList, '#', .bare, none⟩
  | firefoxPrefs => ⟨false, [','], ", ".toList, '#', .jsLiteral, some "user_pref".toList⟩
  | env => ⟨false, ['='], "=".toList, '#', .shell, none⟩
  | flat => ⟨false, ['=', ':'], "=".toList, '#', .bare, none⟩

variable (h : LineFormat)

def LineFormat.read (text : Str) : Except ParseError (ConfigModel F) :=
  match LineModel.parse f64 text h.dialect with
  | .error e => .error e
  | .ok m => .ok m.toModel

def parseToEdit (e : ParseError) : EditError := .failed ("parse: " ++ e.display)

def LineFormat.set (text key : Str) (value : ConfigValue F) : Except EditError Str :=
  match LineModel.parse f64 text h.dialect with
  | .error e => .error (parseToEdit e)
  | .ok m =>
    match m.set f64 key value with
    | .error e => .error (.failed e)
    | .ok t => .ok t

def LineFormat.remove (text key : Str) : Except EditError Str :=
  match LineModel.parse f64 text h.dialect with
  | .error e => .error (parseToEdit e)
  | .ok m => .ok (m.remove key)

/-! ## The self-check -/

def checkSiblingsUnchanged (original candidate : ConfigModel F) (target : Str) :
    Except SelfCheckError Unit :=
  match original.find? fun (k, v) => k != target && candidate.get k != some v with
  | some (k, _) => .error (.collateralChange k)
  | none =>
    match candidate.find? fun (k, _) => k != target && (original.get k).isNone with
    | some (k, _) => .error (.collateralChange k)
    | none => .ok ()

/-- `str::rsplit_once`. -/
def rsplitOnce (c : Char) (s : Str) : Option (Str × Str) :=
  (Text.splitOnce c s.reverse).map fun (a, b) => (b.reverse, a.reverse)

/-- A line that, read alone, carries the target or its last segment. -/
def lineIsTarget (line target : Str) : Bool :=
  match h.read f64 line with
  | .ok [(only, _)] =>
    only == target ||
      match rsplitOnce '.' target with
      | some (_, last) => only == last
      | none => false
  | _ => false

def linesExcludingTarget (text target : Str) : List Str :=
  if text.isEmpty then []
  else (text.splitOn '\n').filter fun line => !lineIsTarget f64 h line target

/-- An order-preserving subsequence. -/
def isSubsequence (needle haystack : List Str) : Bool := needle.isSublist haystack

def checkUnmodelledPreserved (originalText candidateText target : Str) :
    Except SelfCheckError Unit :=
  if isSubsequence (linesExcludingTarget f64 h originalText target)
      (linesExcludingTarget f64 h candidateText target) then .ok ()
  else .error .unmodelledContentChanged

/-- The edit shows: the key holds the value, or is gone. -/
def editApplied (candidate : ConfigModel F) (key : Str) (expected : Option (ConfigValue F)) :
    Bool :=
  match expected with
  | some want => candidate.get key == some want
  | none => (candidate.get key).isNone

def verify (originalText candidateText : Str) (original : ConfigModel F) (key : Str)
    (expected : Option (ConfigValue F)) : Except SelfCheckError Unit :=
  match h.read f64 candidateText with
  | .error e => .error (.candidateUnparsable e.display)
  | .ok candidate =>
    if editApplied candidate key expected = false then .error (.editDidNotApply key)
    else
      match checkSiblingsUnchanged original candidate key with
      | .error e => .error e
      | .ok () => checkUnmodelledPreserved f64 h originalText candidateText key

def checkedSet (text key : Str) (value : ConfigValue F) : Except EditError Str :=
  match h.read f64 text with
  | .error e => .error (.failed ("read original: " ++ e.display))
  | .ok original =>
    if original.get key = some .opaqueValue then .error (.opaqueTarget key)
    else
      match h.set f64 text key value with
      | .error e => .error e
      | .ok candidate =>
        match verify f64 h text candidate original key (some value) with
        | .error e => .error (.selfCheck e)
        | .ok () => .ok candidate

def checkedRemove (text key : Str) : Except EditError Str :=
  match h.read f64 text with
  | .error e => .error (.failed ("read original: " ++ e.display))
  | .ok original =>
    match h.remove f64 text key with
    | .error e => .error e
    | .ok candidate =>
      match verify f64 h text candidate original key none with
      | .error e => .error (.selfCheck e)
      | .ok () => .ok candidate

end Model

end Arlen.ConfigFormat
