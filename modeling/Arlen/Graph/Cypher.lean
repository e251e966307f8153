import Arlen.Lib.Utf8

/-!
# The self-check of built Cypher (`ai/ai-core/src/cypher.rs`)

A byte scanner over the text the query builder produced: no write keyword
outside string literals and comments, a `LIMIT` followed by a digit, and no
label that the validated query did not declare. The `BTreeSet` of expected
labels is a list of which only membership is asked.
-/

namespace Arlen.Graph

open Arlen.Lib

/-- Write and side-effecting keywords. -/
def forbidden : List String :=
  ["CREATE", "MERGE", "DELETE", "SET", "REMOVE", "DROP", "CALL", "LOAD", "FOREACH"]

inductive SelfCheckError where
  | forbiddenKeyword (keyword : String)
  | missingLimit
  | unexpectedLabel (label : String)
  deriving DecidableEq, Repr

/-! ## Bytes -/

def isAsciiDigit (b : UInt8) : Bool := 48 ≤ b && b ≤ 57

def isAsciiAlphabetic (b : UInt8) : Bool := (65 ≤ b && b ≤ 90) || (97 ≤ b && b ≤ 122)

def isAsciiAlphanumeric (b : UInt8) : Bool := isAsciiAlphabetic b || isAsciiDigit b

/-- A letter, a digit or `_`. -/
def isWordByte (b : UInt8) : Bool := isAsciiAlphanumeric b || b == 95

/-- A word byte or `.`. -/
def isLabelChar (b : UInt8) : Bool := isWordByte b || b == 46

def toAsciiUppercase (b : UInt8) : UInt8 := if 97 ≤ b && b ≤ 122 then b - 32 else b

/-! ## Literals and comments

Both scanners of the source pass over them by the same three loops. -/

/-- The loop inside a string literal, after its opening quote: a backslash takes
the next byte along. A byte at the very end ends the loop whatever it is. -/
def skipString (quote : UInt8) : Bytes → Bytes
  | [] => []
  | [_] => []
  | b :: c :: rest =>
    if b = 92 then skipString quote rest
    else if b = quote then c :: rest
    else skipString quote (c :: rest)

/-- The loop of a `//` comment, up to its line feed; the first slash is behind. -/
def skipLine (bytes : Bytes) : Bytes := bytes.dropWhile (· ≠ 10)

/-- The loop of a block comment, after its opening: it looks at two bytes at a
time, so an unclosed comment leaves its last byte to the caller. -/
def skipBlock : Bytes → Bytes
  | [] => []
  | [b] => [b]
  | b :: c :: rest => if b = 42 ∧ c = 47 then rest else skipBlock (c :: rest)

/-- What follows the literal or comment that starts here, if one does. -/
def skipInert : Bytes → Option Bytes
  | [] => none
  | b :: rest =>
    if b = 34 ∨ b = 39 then some (skipString b rest)
    else if b = 47 ∧ rest.head? = some 47 then some (skipLine rest)
    else if b = 47 ∧ rest.head? = some 42 then some (skipBlock rest.tail)
    else none

theorem length_skipString (quote : UInt8) (s : Bytes) : (skipString quote s).length ≤ s.length := by
  fun_induction skipString quote s with
  | case1 => simp
  | case2 => simp
  | case3 c rest ih => simp only [List.length_cons]; omega
  | case4 => simp
  | case5 b c rest _ _ ih => simp only [List.length_cons] at ih ⊢; omega

theorem length_skipBlock (s : Bytes) : (skipBlock s).length ≤ s.length := by
  fun_induction skipBlock s with
  | case1 => simp
  | case2 => simp
  | case3 => simp only [List.length_cons]; omega
  | case4 b c rest _ ih => simp only [List.length_cons] at ih ⊢; omega

/-- A literal or comment takes at least one byte. -/
theorem length_skipInert {s rest : Bytes} (h : skipInert s = some rest) :
    rest.length < s.length := by
  cases s with
  | nil => simp [skipInert] at h
  | cons b s =>
    simp only [skipInert] at h
    rw [List.length_cons, Nat.lt_succ_iff]
    split at h
    · obtain rfl := Option.some.inj h
      exact length_skipString b s
    split at h
    · obtain rfl := Option.some.inj h
      exact (List.dropWhile_sublist _).length_le
    split at h
    · obtain rfl := Option.some.inj h
      exact Nat.le_trans (length_skipBlock s.tail) (by simp)
    · cases h

/-! ## The scanners -/

/-- String literals and comments replaced by as many spaces. -/
def stripBytes (bytes : Bytes) : Bytes :=
  match h : skipInert bytes with
  | some rest => List.replicate (bytes.length - rest.length) 32 ++ stripBytes rest
  | none =>
    match bytes with
    | [] => []
    | b :: rest => b :: stripBytes rest
termination_by bytes.length
decreasing_by
  · exact length_skipInert h
  · simp

def stripStringsAndComments (cypher : String) : String :=
  (decodeUtf8 (stripBytes (utf8 cypher))).getD ""

/-- `needle` stands at `i` with no word byte beside it. -/
def wholeWordAt (bytes needle : Bytes) (i : Nat) : Bool :=
  let afterIdx := i + needle.length
  (bytes.drop i).take needle.length == needle &&
    (i == 0 || !isWordByte (bytes.getD (i - 1) 0)) &&
    (afterIdx == bytes.length || !isWordByte (bytes.getD afterIdx 0))

/-- The positions a scan for `needle` visits, `while i + needle.len() <= bytes.len()`. -/
def positions (bytes needle : Bytes) : List Nat := List.range (bytes.length + 1 - needle.length)

def forbiddenKeyword (stripped : String) : Option String :=
  let bytes := (utf8 stripped).map toAsciiUppercase
  forbidden.find? fun kw => (positions bytes (utf8 kw)).any (wholeWordAt bytes (utf8 kw))

/-- A digit follows, after spaces and tabs. -/
def digitFollows (bytes : Bytes) : Bool :=
  ((bytes.dropWhile fun b => b == 32 || b == 9).head?).any isAsciiDigit

def hasLimit (stripped : String) : Bool :=
  let bytes := (utf8 stripped).map toAsciiUppercase
  let needle := utf8 "LIMIT"
  (positions bytes needle).any fun i =>
    wholeWordAt bytes needle i && digitFollows (bytes.drop (i + needle.length))

/-- A label is noted once, and only if there is one. -/
def pushLabel (out : List String) (label : Bytes) : List String :=
  if label = [] then out
  else
    match decodeUtf8 label with
    | none => out
    | some l => if l ≠ "" ∧ l ∉ out then out ++ [l] else out

/-- The labels behind each `:` or `::` outside literals and comments. -/
def namespacesFrom (bytes : Bytes) (out : List String) : List String :=
  match _h : skipInert bytes with
  | some rest => namespacesFrom rest out
  | none =>
    match bytes with
    | [] => out
    | b :: rest =>
      if b = 58 then
        let start := if rest.head? = some 58 then rest.tail else rest
        namespacesFrom (start.dropWhile isLabelChar)
          (pushLabel out (start.takeWhile isLabelChar))
      else namespacesFrom rest out
termination_by bytes.length
decreasing_by
  · exact length_skipInert _h
  · rw [List.length_cons, Nat.lt_succ_iff]
    refine Nat.le_trans (List.dropWhile_sublist _).length_le ?_
    split <;> simp
  · simp

def extractNamespaces (cypher : String) : List String := namespacesFrom (utf8 cypher) []

def verifyBuiltCypher (cypher : String) (expectedLabels : List String) :
    Except SelfCheckError Unit :=
  let stripped := stripStringsAndComments cypher
  match forbiddenKeyword stripped with
  | some keyword => .error (.forbiddenKeyword keyword)
  | none =>
    if !hasLimit stripped then .error .missingLimit
    else
      match (extractNamespaces cypher).find? fun l => !expectedLabels.contains l with
      | some label => .error (.unexpectedLabel label)
      | none => .ok ()

end Arlen.Graph
