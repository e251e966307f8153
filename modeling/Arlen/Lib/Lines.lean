import Arlen.Lib.Utf8

/-!
# Text files read line by line

A file is a byte string. It is read as text when it is UTF-8, split at line
feeds with a carriage return before one dropped, and blank lines are told by
the Unicode white space property. `textOf ls` is the file of the lines `ls`,
each with its line feed; splitting it gives `ls` back, whatever follows.
-/

namespace Arlen.Lib

/-- `char::is_whitespace`. -/
def isWhitespace (c : Char) : Bool :=
  let n := c.toNat
  (9 ≤ n && n ≤ 13) || n == 0x20 || n == 0x85 || n == 0xa0 || n == 0x1680 ||
    (0x2000 ≤ n && n ≤ 0x200a) || n == 0x2028 || n == 0x2029 || n == 0x202f || n == 0x205f ||
    n == 0x3000

theorem isWhitespace_of_isDigit {c : Char} (h : c.isDigit = true) : isWhitespace c = false := by
  simp only [Char.isDigit, Bool.and_eq_true, decide_eq_true_eq] at h
  have h₁ : 48 ≤ c.toNat := h.1
  have h₂ : c.toNat ≤ 57 := h.2
  unfold isWhitespace
  simp only [Bool.or_eq_false_iff, Bool.and_eq_false_iff, beq_eq_false_iff_ne,
    decide_eq_false_iff_not]
  omega

/-- `s.trim().is_empty()`. -/
def isBlank (s : String) : Bool := s.toList.all isWhitespace

/-- A line without the carriage return that belongs to its line feed. -/
def dropCr (line : List Char) : List Char :=
  if line.getLast? = some '\r' then line.dropLast else line

/-- `str::lines`, from the part of the current line already read. The last line
needs no line feed, and a carriage return at its end stays. -/
def linesFrom : List Char → List Char → List String
  | line, [] => if line = [] then [] else [String.ofList line]
  | line, c :: cs =>
    if c = '\n' then String.ofList (dropCr line) :: linesFrom [] cs
    else linesFrom (line ++ [c]) cs

def lines (s : String) : List String := linesFrom [] s.toList

/-- The text of a file with these lines. -/
def textOf (ls : List String) : String := ls.foldr (fun l s => l ++ "\n" ++ s) ""

/-- A text that stands on a line of its own. -/
structure OneLine (s : String) : Prop where
  noLf : '\n' ∉ s.toList
  noCr : '\r' ∉ s.toList
  notBlank : isBlank s = false

theorem linesFrom_append {line s cs : List Char} (h : '\n' ∉ s) :
    linesFrom line (s ++ '\n' :: cs) = String.ofList (dropCr (line ++ s)) :: linesFrom [] cs := by
  induction s generalizing line with
  | nil => simp [linesFrom]
  | cons c s ih =>
    have hc : c ≠ '\n' := fun heq => h (by simp [heq])
    have hs : '\n' ∉ s := fun hm => h (List.mem_cons_of_mem _ hm)
    simp only [List.cons_append, linesFrom, hc, ↓reduceIte]
    rw [ih hs]
    simp

theorem dropCr_of_not_mem {s : List Char} (h : '\r' ∉ s) : dropCr s = s := by
  unfold dropCr
  split
  · next hl => exact absurd (List.mem_of_getLast? hl) h
  · rfl

/-- **Lines read back**: splitting the text of some lines gives those lines. -/
theorem lines_textOf {ls : List String} (h : ∀ l ∈ ls, OneLine l) (t : String) :
    lines (textOf ls ++ t) = ls ++ lines t := by
  induction ls with
  | nil => simp [textOf]
  | cons l ls ih =>
    have hl := h l List.mem_cons_self
    have hrec := ih fun l' hm => h l' (List.mem_cons_of_mem _ hm)
    have htext : (textOf (l :: ls) ++ t).toList = l.toList ++ '\n' :: (textOf ls ++ t).toList := by
      simp [textOf]
    rw [lines, htext, linesFrom_append hl.noLf, List.nil_append, dropCr_of_not_mem hl.noCr,
      String.ofList_toList]
    exact congrArg (l :: ·) hrec

theorem textOf_append (ls ms : List String) : textOf (ls ++ ms) = textOf ls ++ textOf ms := by
  induction ls with
  | nil => simp [textOf]
  | cons l ls ih =>
    simp only [textOf, List.cons_append, List.foldr_cons] at ih ⊢
    rw [ih]
    simp [String.append_assoc]

end Arlen.Lib
