import Arlen.Lib.Lines
import Arlen.Lib.Text

/-!
# Key files

A key file is read line by line: a line in brackets opens a section, and one with an equals
sign gives a key of the section a value. Sections under one header are one section, and of
the values a key was given the last one counts.
-/

namespace Arlen.Lib.Keyfile

inductive Line where
  | header (text : List Char)
  | pair (key value : List Char)
  | other
deriving DecidableEq

def readLine (l : List Char) : Line :=
  match Text.trim l with
  | [] => .other
  | c :: t =>
    if c = '[' then .header (c :: t)
    else if c = '#' then .other
    else
      match Text.splitOnce '=' (c :: t) with
      | some (key, value) => .pair (Text.trim key) value
      | none => .other

/-- A value that a key was given below a header. -/
structure Entry where
  header : List Char
  key : List Char
  value : List Char
deriving DecidableEq

/-- The entries of some lines, read below a header or ahead of the first. -/
def entriesFrom : Option (List Char) → List (List Char) → List Entry
  | _, [] => []
  | header, l :: ls =>
    match readLine l, header with
    | .header text, _ => entriesFrom (some text) ls
    | .pair key value, some text => ⟨text, key, value⟩ :: entriesFrom header ls
    | _, _ => entriesFrom header ls

def entries (text : String) : List Entry := entriesFrom none ((lines text).map String.toList)

/-- The last value given by an entry of this kind. -/
def lastValue (p : Entry → Bool) : List Entry → Option (List Char)
  | [] => none
  | e :: es => (lastValue p es).or (if p e then some e.value else none)

def valueOf (es : List Entry) (header key : List Char) : Option (List Char) :=
  lastValue (fun e => e.header == header && e.key == key) es

end Arlen.Lib.Keyfile
