import Arlen.Lib.Text

/-!
# Lines of a configuration

`sdk/config-format/src/line_model.rs`, with the values of `model.rs`: how a line of an INI
file, an `.env` file, a flat file or a Firefox `prefs.js` is read, and how a value is written.
A span counts characters. `F` is the type of the bit patterns of an `f64`; how Rust reads and
prints one is a parameter, and two floats are the same value if their bits are.
-/

namespace Arlen.ConfigFormat

open Arlen.Lib

abbrev Str := List Char

/-! ## Values and dialects -/

inductive ConfigValue (F : Type) where
  | string (s : Str)
  | bool (b : Bool)
  | int (i : Int)
  | float (f : F)
  | opaqueValue
deriving DecidableEq

/-- `f64` as the standard library has it. -/
structure Float64 (F : Type) where
  parse : Str → Option F
  isFinite : F → Bool
  display : F → Str

/-- No float is met. -/
def noFloat : Float64 Unit := ⟨fun _ => none, fun _ => true, fun _ => []⟩

inductive QuoteStyle where
  | bare
  | shell
  | jsLiteral
deriving DecidableEq, Repr

structure LineDialect where
  sections : Bool
  separators : List Char
  insertSeparator : Str
  commentChar : Char
  quote : QuoteStyle
  statement : Option Str
deriving DecidableEq, Repr

/-- A key's line, with the run of its value. -/
structure KeyVal (F : Type) where
  raw : Str
  key : Str
  value : ConfigValue F
  start : Nat
  stop : Nat

inductive Line (F : Type) where
  | header (raw name : Str)
  | keyVal (kv : KeyVal F)
  | other (raw : Str)

variable {F : Type}

def Line.raw : Line F → Str
  | header raw _ => raw
  | keyVal kv => kv.raw
  | other raw => raw

/-! ## Quoting -/

/-- The index of the first unescaped `quote`. -/
def findUnescapedQuote (quote : Char) : Bool → Str → Option Nat
  | _, [] => none
  | true, _ :: s => (findUnescapedQuote quote false s).map (· + 1)
  | false, c :: s =>
    if c = '\\' then (findUnescapedQuote quote true s).map (· + 1)
    else if c = quote then some 0
    else (findUnescapedQuote quote false s).map (· + 1)

/-- A pair of matching quotes around the text is taken off. -/
def stripSurroundingQuotes (s : Str) : Str :=
  match s with
  | [] => s
  | q :: rest => if (q = '"' ∨ q = '\'') ∧ rest.getLast? = some q then rest.dropLast else s

def stripJsString (s : Str) : Option Str :=
  match s with
  | [] => none
  | q :: rest => if q = '"' ∧ rest.getLast? = some '"' then some rest.dropLast else none

def shellQuote (s : Str) (commentChar : Char) : Str :=
  let needs := s.isEmpty ||
    s.any fun c => isWhitespace c || c == '"' || c == '\'' || c == commentChar || c == '='
  if needs then
    '"' :: s.flatMap (fun c =>
      if c = '"' then ['\\', '"'] else if c = '\\' then ['\\', '\\'] else [c]) ++ ['"']
  else s

/-- `char::is_control`. -/
def isControl (c : Char) : Bool := c.toNat < 0x20 || (0x7f ≤ c.toNat && c.toNat ≤ 0x9f)

def upperHexDigit (n : Nat) : Char := if n < 10 then Char.ofNat (48 + n) else Char.ofNat (55 + n)

/-- A character of a JavaScript string. -/
def jsEscape (c : Char) : Str :=
  if c = '"' then ['\\', '"']
  else if c = '\\' then ['\\', '\\']
  else if c = '\n' then ['\\', 'n']
  else if c = '\r' then ['\\', 'r']
  else if c = '\t' then ['\\', 't']
  else if isControl c then
    ['\\', 'u', upperHexDigit (c.toNat / 4096 % 16), upperHexDigit (c.toNat / 256 % 16),
      upperHexDigit (c.toNat / 16 % 16), upperHexDigit (c.toNat % 16)]
  else [c]

def jsQuote (s : Str) : Str := '"' :: s.flatMap jsEscape ++ ['"']

def unescapeShell : Str → Str
  | '\\' :: '"' :: s => '"' :: unescapeShell s
  | '\\' :: '\\' :: s => '\\' :: unescapeShell s
  | c :: s => c :: unescapeShell s
  | [] => []

def hexDigitValue (c : Char) : Option Nat :=
  if '0' ≤ c ∧ c ≤ '9' then some (c.toNat - 48)
  else if 'a' ≤ c ∧ c ≤ 'f' then some (c.toNat - 87)
  else if 'A' ≤ c ∧ c ≤ 'F' then some (c.toNat - 55)
  else none

/-- `u32::from_str_radix` of at most four digits, and the character of the number. -/
def hexChar (s : Str) : Option Char :=
  let digits := (Text.stripPrefix ['+'] s).getD s
  if digits.isEmpty then none
  else
    (digits.mapM hexDigitValue).bind fun ds =>
      let n := ds.foldl (fun n d => 16 * n + d) 0
      if n.isValidChar then some (Char.ofNat n) else none

def unescapeJs (s : Str) : Str :=
  match s with
  | [] => []
  | c :: rest =>
    if c ≠ '\\' then c :: unescapeJs rest
    else
      match rest with
      | [] => ['\\']
      | 'n' :: s => '\n' :: unescapeJs s
      | 'r' :: s => '\r' :: unescapeJs s
      | 't' :: s => '\t' :: unescapeJs s
      | '"' :: s => '"' :: unescapeJs s
      | '\\' :: s => '\\' :: unescapeJs s
      | 'u' :: s =>
        -- A malformed escape is passed through.
        (match hexChar (s.take 4) with
          | some ch => [ch]
          | none => '\\' :: 'u' :: s.take 4) ++ unescapeJs (s.drop 4)
      | other :: s => '\\' :: other :: unescapeJs s
termination_by s.length
decreasing_by all_goals (simp only [List.length_cons, List.length_drop]; omega)

/-! ## Scalars -/

def parseBool (s : Str) : Option Bool :=
  if s = "true".toList then some true
  else if s = "false".toList then some false
  else none

/-- `str::parse::<i64>`. -/
def parseI64 (s : Str) : Option Int :=
  let (negative, digits) :=
    match s with
    | '-' :: ds => (true, ds)
    | '+' :: ds => (false, ds)
    | ds => (false, ds)
  if digits.isEmpty ∨ digits.all Char.isDigit = false then none
  else
    let n := (digits.foldl (fun n c => 10 * n + (c.toNat - 48)) 0 : Nat)
    let i : Int := if negative then -n else n
    if -2 ^ 63 ≤ i ∧ i < 2 ^ 63 then some i else none

variable (f64 : Float64 F)

def parseFloat (s : Str) : Option F :=
  if s.any (fun c => c == '.' || c == 'e' || c == 'E') then (f64.parse s).filter f64.isFinite
  else none

def formatFloat (f : F) : Str :=
  let s := f64.display f
  if s.any (fun c => c == '.' || c == 'e' || c == 'E') then s else s ++ ".0".toList

def parseScalar (rawValue : Str) : ConfigValue F :=
  let unquoted := stripSurroundingQuotes rawValue
  let text := ConfigValue.string (unescapeShell unquoted)
  if unquoted.length ≠ rawValue.length then text
  else
    match parseBool unquoted with
    | some b => .bool b
    | none =>
      match parseI64 unquoted with
      | some i => .int i
      | none => ((parseFloat f64 unquoted).map .float).getD text

def parseJsScalar (rawValue : Str) : ConfigValue F :=
  match stripJsString rawValue with
  | some stripped => .string (unescapeJs stripped)
  | none =>
    match parseBool rawValue with
    | some b => .bool b
    | none =>
      match parseI64 rawValue with
      | some i => .int i
      | none => ((parseFloat f64 rawValue).map .float).getD (.string rawValue)

/-! ## Lines -/

/-- `str::find` of a character. -/
def find (c : Char) (s : Str) : Option Nat := s.findIdx? (· == c)

def parseSectionHeader (trimmed : Str) : Option Str :=
  (Text.stripPrefix ['['] trimmed).bind fun rest =>
    (find ']' rest).map fun stop => Text.trim (rest.take stop)

/-- Where an inline comment begins: a comment character behind a space. -/
def findInlineComment (comment : Char) : Bool → Str → Option Nat
  | _, [] => none
  | prevSpace, c :: s =>
    if c = comment ∧ prevSpace = true then some 0
    else (findInlineComment comment (c == ' ' || c == '\t') s).map (· + 1)

/-- Where a value's run ends: behind its closing quote, or before an inline comment. -/
def locateValueEnd (raw : Str) (valueStart : Nat) (dialect : LineDialect) : Nat :=
  match raw.drop valueStart with
  | [] => valueStart
  | first :: rest =>
    if (dialect.quote = .shell ∨ dialect.quote = .bare) ∧ (first = '"' ∨ first = '\'') then
      match findUnescapedQuote first false rest with
      | some close => valueStart + 1 + close + 1
      | none => raw.length
    else
      match findInlineComment dialect.commentChar false (first :: rest) with
      | some idx => valueStart + idx
      | none => raw.length

def parsePlainKeyLine (raw : Str) (dialect : LineDialect) (currentSection : Option Str) :
    Option (KeyVal F) :=
  (dialect.separators.filterMap (find · raw)).min?.bind fun sepPos =>
    let keyPart := Text.trim (raw.take sepPos)
    let key := Text.trim ((Text.stripPrefix "export ".toList keyPart).getD keyPart)
    if key.isEmpty then none
    else
      let afterSep := sepPos + 1
      let valueRegion := raw.drop afterSep
      let leadingWs := valueRegion.length - (Text.trimStart valueRegion).length
      let valueStart := afterSep + leadingWs
      let valueEnd := locateValueEnd raw valueStart dialect
      let rawValue := Text.trimEnd ((raw.drop valueStart).take (valueEnd - valueStart))
      let fullKey :=
        match currentSection with
        | some s => s ++ '.' :: key
        | none => key
      some ⟨raw, fullKey, parseScalar f64 rawValue, valueStart, valueStart + rawValue.length⟩

/-- The end of a statement's value: behind its closing quote, or before a `)` or `;`. -/
def findStatementValueEnd (region : Str) : Option Nat :=
  match region with
  | [] => none
  | first :: rest =>
    if first = '"' ∨ first = '\'' then
      (findUnescapedQuote first false rest).map fun close => 1 + close + 1
    else region.findIdx? fun c => c == ')' || c == ';'

/-- What stands behind `func ( "`, and where. -/
def keyQuote (raw func : Str) : Option (Nat × Str) :=
  (Text.stripPrefix func (Text.trimStart raw)).bind fun afterFn =>
    (Text.stripPrefix ['('] (Text.trimStart afterFn)).bind fun afterParen =>
      (Text.stripPrefix ['"'] (Text.trimStart afterParen)).map fun quoted =>
        (raw.length - quoted.length, quoted)

def parseStatementLine (raw func : Str) : Option (KeyVal F) :=
  (keyQuote raw func).bind fun (keyStart, quoted) =>
    (findUnescapedQuote '"' false quoted).bind fun keyEndRel =>
      let key := unescapeJs (quoted.take keyEndRel)
      let keyCloseAbs := keyStart + keyEndRel + 1
      (find ',' (raw.drop keyCloseAbs)).bind fun commaRel =>
        let valueRegionStart := keyCloseAbs + commaRel + 1
        let valueRegion := raw.drop valueRegionStart
        let leadingWs := valueRegion.length - (Text.trimStart valueRegion).length
        let valueStart := valueRegionStart + leadingWs
        (findStatementValueEnd (raw.drop valueStart)).map fun closeRel =>
          let rawValue := Text.trimEnd ((raw.drop valueStart).take closeRel)
          ⟨raw, key, parseJsScalar f64 rawValue, valueStart, valueStart + rawValue.length⟩

def parseKeyLine (raw : Str) (dialect : LineDialect) (currentSection : Option Str) :
    Option (KeyVal F) :=
  match dialect.statement with
  | some func => parseStatementLine f64 raw func
  | none => parsePlainKeyLine f64 raw dialect currentSection

end Arlen.ConfigFormat
