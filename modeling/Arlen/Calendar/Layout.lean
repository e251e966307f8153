import Mathlib.Data.List.Infix
import Arlen.Calendar.Edit

/-!
# The layout of a calendar file

The editor cuts the file into lines and VEVENT blocks by the lines it sees, and drops a
block that never ends; the reader joins folded lines first and then finds its events. A
file is laid out when the two agree on the blocks an edit is about: the reader takes each
of them for one event, closed alarms inside, and is in no alarm where it begins. What
stands between them may be anything.
-/

namespace Arlen.Calendar

open Arlen.Lib

/-! ### Content lines -/

/-- A line with its continuation lines. -/
structure ContentLine where
  head : List Char
  tail : List (List Char)
  starts : continuation head = none
  goesOn : ∀ t ∈ tail, continuation t ≠ none

namespace ContentLine

/-- The lines of the file it takes up. -/
def lines (c : ContentLine) : List (List Char) := c.head :: c.tail

/-- The line as the reader has it. -/
def text (c : ContentLine) : List Char := c.head ++ (c.tail.filterMap continuation).flatten

/-- A line that is not folded. -/
def single (head : List Char) (h : continuation head = none) : ContentLine :=
  ⟨head, [], h, fun _ ht => absurd ht List.not_mem_nil⟩

@[simp] theorem single_lines (head : List Char) (h : continuation head = none) :
    (single head h).lines = [head] := rfl

@[simp] theorem single_text (head : List Char) (h : continuation head = none) :
    (single head h).text = head := List.append_nil head

end ContentLine

/-! ### Prefixes of lines -/

/-- The reader trims its lines and passes over empty ones. -/
def seen (ts : List (List Char)) : List (List Char) := (ts.map Text.trim).filter (· ≠ [])

/-- What is white space behind a line is not seen. -/
theorem trim_append_white (l : List Char) {ws : List Char} (h : ∀ c ∈ ws, isWhitespace c = true) :
    Text.trim (l ++ ws) = Text.trim l := by
  induction ws using List.reverseRecOn with
  | nil => rw [List.append_nil]
  | append_singleton ws c ih =>
    rw [← List.append_assoc, ← ih fun c hc => h c (List.mem_append_left _ hc)]
    have hc := h c (List.mem_append_right _ List.mem_cons_self)
    unfold Text.trim Text.trimStart Text.trimEnd
    rw [List.dropWhile_append]
    split
    · next hnil =>
      rw [List.isEmpty_iff.1 hnil, List.dropWhile_cons_of_pos hc]
      rfl
    · exact List.rdropWhile_concat_pos _ _ _ hc

/-- A continuation line that goes on with white space. -/
def isBlank (l : List Char) : Bool := (continuation l).any (·.all isWhitespace)

/-- The lines go on no line before them, but for white space. -/
def Fresh (ls : List (List Char)) : Prop :=
  ∀ l ∈ (ls.dropWhile isBlank).head?, continuation l = none

theorem Fresh.append {ls ms : List (List Char)} (h : Fresh ls) (h' : Fresh ms) :
    Fresh (ls ++ ms) := by
  unfold Fresh at h h' ⊢
  rw [List.dropWhile_append]
  split
  · exact h'
  · cases hd : ls.dropWhile isBlank with
    | nil => next hne => exact absurd (by rw [hd]; rfl) hne
    | cons l ls' =>
      rw [hd] at h
      exact h

/-- A VEVENT block: its first line, what it holds, and its last line. -/
structure Block where
  first : ContentLine
  body : List ContentLine
  last : List Char
  lastStarts : continuation last = none

namespace Block

def content (b : Block) : List ContentLine := b.first :: b.body

def lines (b : Block) : List (List Char) := b.content.flatMap ContentLine.lines ++ [b.last]

def texts (b : Block) : List (List Char) := b.content.map ContentLine.text ++ [b.last]

/-- The event of a block before its last line, when the reader is inside one and in
no alarm. -/
def pending (b : Block) : Option Pending :=
  match readLines .new (b.content.map ContentLine.text) with
  | some ⟨[], some p, none⟩ => some p
  | _ => none

/-- The editor and the reader see the same block. -/
structure Ok (b : Block) : Prop where
  begins : isBegin b.first.head = true
  opens : markerOf (Text.trim b.first.text) = some .beginEvent
  inside : ∀ c ∈ b.body, isBegin c.head = false ∧ isEnd c.head = false
  ends : isEnd b.last = true
  closes : markerOf (Text.trim b.last) = some .endEvent
  reads : b.pending.isSome = true

end Block

/-! ### The pieces of a text -/

inductive Piece
  | line (l : List Char)
  | block (b : List (List Char))
  | cut (b : List (List Char))
deriving DecidableEq

/-- The pieces of these lines after a block that is open, if one is. -/
def cutUp : Option (List (List Char)) → List (List Char) → List Piece
  | none, [] => []
  | some b, [] => [.cut b]
  | o, l :: ls =>
    if isBegin l then (o.map .cut).toList ++ cutUp (some [l]) ls
    else
      match o with
      | none => .line l :: cutUp none ls
      | some b =>
        if isEnd l then .block (b ++ [l]) :: cutUp none ls else cutUp (some (b ++ [l])) ls

def pieces (text : List Char) : List Piece := cutUp none (physicalLines text)

def Piece.lines : Piece → List (List Char)
  | .line l => [l]
  | .block b => b
  | .cut b => b

def linesOf (ps : List Piece) : List (List Char) := ps.flatMap Piece.lines

section Pieces

variable {text l : List Char} {o : Option (List (List Char))} {ls b : List (List Char)}
  {p : Piece} {s s' : Editing} {edit : List (List Char) → Option BlockEdit}

theorem cutUp_begin (h : isBegin l = true) :
    cutUp o (l :: ls) = (o.map .cut).toList ++ cutUp (some [l]) ls := by
  cases o <;> simp [cutUp, h]

theorem cutUp_outside (h : isBegin l = false) :
    cutUp none (l :: ls) = .line l :: cutUp none ls := by
  simp [cutUp, h]

theorem cutUp_end (h : isBegin l = false) (he : isEnd l = true) :
    cutUp (some b) (l :: ls) = .block (b ++ [l]) :: cutUp none ls := by
  simp [cutUp, h, he]

theorem cutUp_inside (h : isBegin l = false) (he : isEnd l = false) :
    cutUp (some b) (l :: ls) = cutUp (some (b ++ [l])) ls := by
  simp [cutUp, h, he]

/-- The pieces hold every line of the text, in order. -/
theorem lines_cutUp (o : Option (List (List Char))) (ls : List (List Char)) :
    (cutUp o ls).flatMap Piece.lines = o.getD [] ++ ls := by
  induction ls generalizing o with
  | nil => cases o <;> simp [cutUp, Piece.lines]
  | cons l ls ih =>
    cases hb : isBegin l with
    | true => rw [cutUp_begin hb, List.flatMap_append, ih]; cases o <;> simp [Piece.lines]
    | false =>
      cases o with
      | none => rw [cutUp_outside hb, List.flatMap_cons, ih]; simp [Piece.lines]
      | some b =>
        cases he : isEnd l with
        | true => rw [cutUp_end hb he, List.flatMap_cons, ih]; simp [Piece.lines]
        | false => rw [cutUp_inside hb he, ih]; simp

def Editing.opened (s : Editing) : Option (List (List Char)) :=
  if s.inEvent then some s.block else none

/-- One line of the run: it goes on gathering, is written where it stands with new blocks
before it, or finishes a block that is edited. -/
theorem editLine_cases (h : editLine edit s l = some s') :
    (s'.out = s.out ∧ s'.extra = s.extra ∧ s'.touched = s.touched ∧
      ∃ short : Option (List (List Char)), ∀ ls,
        cutUp s.opened (l :: ls) = (short.map .cut).toList ++ cutUp s'.opened ls) ∨
    (∃ new, s.extra = new ++ s'.extra ∧ s'.out = s.out ++ new ++ [l] ∧
      s'.touched = s.touched ∧ ∀ ls, cutUp s.opened (l :: ls) = .line l :: cutUp s'.opened ls) ∨
    ∃ b e, edit b = some e ∧ s'.out = s.out ++ e.keep ∧ s'.extra = s.extra ++ e.add ∧
      s'.touched = (s.touched || e.touched) ∧
      ∀ ls, cutUp s.opened (l :: ls) = .block b :: cutUp s'.opened ls := by
  unfold editLine at h
  cases hb : isBegin l with
  | true =>
    rw [if_pos hb] at h
    cases h
    exact .inl ⟨rfl, rfl, rfl, s.opened, fun ls => cutUp_begin hb⟩
  | false =>
    rw [if_neg (by simp [hb])] at h
    cases hin : s.inEvent with
    | false =>
      have ho : s.opened = none := by rw [Editing.opened, hin]; rfl
      rw [if_pos hin] at h
      split at h
      · cases h
        refine .inr (.inl ⟨s.extra, (List.append_nil _).symm, rfl, rfl, fun ls => ?_⟩)
        rw [ho, cutUp_outside hb]
        simp [Editing.opened, hin]
      · cases h
        refine .inr (.inl ⟨[], rfl, by simp, rfl, fun ls => ?_⟩)
        rw [ho, cutUp_outside hb]
        simp [Editing.opened, hin]
    | true =>
      have ho : s.opened = some s.block := by rw [Editing.opened, hin]; rfl
      rw [if_neg (by simp [hin])] at h
      cases he : isEnd l with
      | true =>
        rw [if_pos he] at h
        obtain ⟨e, hedited, rfl⟩ := Option.map_eq_some_iff.1 h
        refine .inr (.inr ⟨_, e, hedited, rfl, rfl, rfl, fun ls => ?_⟩)
        rw [ho, cutUp_end hb he]
        rfl
      | false =>
        rw [if_neg (by simp [he])] at h
        cases h
        refine .inl ⟨rfl, rfl, rfl, none, fun ls => ?_⟩
        rw [ho, cutUp_inside hb he]
        simp [Editing.opened, hin]

/-- What an edit of the blocks leaves of a piece. -/
def Piece.edited (g : List (List Char) → BlockEdit) : Piece → List (List Char)
  | .line l => [l]
  | .block b => (g b).keep
  | .cut _ => []

def Piece.touchedBy (g : List (List Char) → BlockEdit) : Piece → Bool
  | .line _ => false
  | .block b => (g b).touched
  | .cut _ => false

variable {g : List (List Char) → BlockEdit}

theorem exists_editLine (h : s.inEvent = true → isBegin l = false → isEnd l = true →
    ∃ e, edit (s.block ++ [l]) = some e) : ∃ s', editLine edit s l = some s' := by
  unfold editLine
  split
  · exact ⟨_, rfl⟩
  · next hb =>
    split
    · split <;> exact ⟨_, rfl⟩
    · next hin =>
      split
      · next he =>
        obtain ⟨e, he'⟩ := h (by simpa using hin) (by simpa using hb) he
        exact ⟨_, by rw [he']; rfl⟩
      · exact ⟨_, rfl⟩

/-- An edit that adds nothing to the end of the calendar changes the text piece by piece. -/
theorem foldlM_edit (hs : s.extra = [])
    (hg : ∀ b, .block b ∈ cutUp s.opened ls → edit b = some (g b) ∧ (g b).add = []) :
    ∃ s', ls.foldlM (editLine edit) s = some s' ∧ s'.extra = [] ∧
      s'.out = s.out ++ (cutUp s.opened ls).flatMap (Piece.edited g) ∧
      s'.touched = (s.touched || (cutUp s.opened ls).any (Piece.touchedBy g)) := by
  induction ls generalizing s with
  | nil =>
    refine ⟨s, rfl, hs, ?_, ?_⟩ <;>
      cases s.opened <;> simp [cutUp, Piece.edited, Piece.touchedBy]
  | cons l ls ih =>
    obtain ⟨s₁, hstep⟩ : ∃ s₁, editLine edit s l = some s₁ := by
      refine exists_editLine fun hin hb he => ⟨_, (hg (s.block ++ [l]) ?_).1⟩
      rw [Editing.opened, if_pos hin, cutUp_end hb he]
      exact List.mem_cons_self
    rw [List.foldlM_cons, hstep]
    rcases editLine_cases hstep with ⟨ho, hx, ht, short, hp⟩ | ⟨new, hx, ho, ht, hp⟩ |
      ⟨b, e, he, ho, hx, ht, hp⟩
    · obtain ⟨s', hrun, hextra, hout, htouched⟩ := ih (hx.trans hs) fun b hb =>
        hg b (by rw [hp]; exact List.mem_append_right _ hb)
      refine ⟨s', hrun, hextra, ?_, ?_⟩
      · rw [hout, ho, hp]
        cases short <;> simp [Piece.edited]
      · rw [htouched, ht, hp]
        cases short <;> simp [Piece.touchedBy]
    · rw [hs] at hx
      obtain ⟨hnew, hx⟩ := List.append_eq_nil_iff.1 hx.symm
      obtain ⟨s', hrun, hextra, hout, htouched⟩ := ih hx fun b hb =>
        hg b (by rw [hp]; exact List.mem_cons_of_mem _ hb)
      refine ⟨s', hrun, hextra, ?_, ?_⟩
      · rw [hout, ho, hp, hnew]
        simp [Piece.edited]
      · rw [htouched, ht, hp]
        simp [Piece.touchedBy]
    · obtain ⟨heq, hadd⟩ := hg b (by rw [hp]; exact List.mem_cons_self)
      obtain rfl : e = g b := Option.some.inj (he.symm.trans heq)
      obtain ⟨s', hrun, hextra, hout, htouched⟩ := ih (by rw [hx, hs, hadd]; rfl) fun b hb =>
        hg b (by rw [hp]; exact List.mem_cons_of_mem _ hb)
      refine ⟨s', hrun, hextra, ?_, ?_⟩
      · rw [hout, ho, hp]
        simp [Piece.edited]
      · rw [htouched, ht, hp]
        simp [Piece.touchedBy, Bool.or_assoc]

theorem editText_eq (hg : ∀ b, .block b ∈ pieces text → edit b = some (g b) ∧ (g b).add = []) :
    editText text edit =
      some (if (pieces text).any (Piece.touchedBy g) then
        some ((lineEnding text).intercalate ((pieces text).flatMap (Piece.edited g))) else none) := by
  obtain ⟨s', hrun, hextra, hout, htouched⟩ :=
    @foldlM_edit (physicalLines text) .new edit g rfl hg
  have ht : s'.touched = (pieces text).any (Piece.touchedBy g) := htouched
  unfold editText editLines
  rw [hrun, Option.map_some, ht, hextra, List.append_nil, hout]
  rfl

end Pieces

/-! ### Reading a block and a gap -/

/-- Events read before make no difference to what is read next. -/
def Reading.after (evs : List Event) (r : Reading) : Reading := { r with events := evs ++ r.events }

namespace Block

variable {b : Block} {p : Pending} {es : List Event}

/-- The events of a block. -/
def events (b : Block) : Option (List Event) := b.pending.bind Pending.finish

end Block

/-- A block the edit is about, and the pieces up to the next one. -/
structure Turn where
  block : Block
  gap : List Piece

def Turn.pieces (t : Turn) : List Piece := .block t.block.lines :: t.gap

/-- The lines of a file with its blocks rewritten. -/
def rewritten (w : Block → Option Block) (lead : List Piece) (turns : List Turn) :
    List (List Char) :=
  linesOf lead ++ turns.flatMap fun t => ((w t.block).map Block.lines).getD [] ++ linesOf t.gap

section Turns

variable {w : Block → Option Block} {lead : List Piece} {turns : List Turn} {text : List Char}

end Turns

/-! ### Joining lines to a text -/

theorem newline_not_mem_physicalLines {text l : List Char} (h : l ∈ physicalLines text) :
    '\n' ∉ l := by
  obtain ⟨raw, hraw, rfl⟩ := List.mem_map.1 h
  have hno := Text.not_mem_of_mem_splitOn hraw
  unfold dropCr
  split
  · exact fun hm => hno (List.dropLast_subset _ hm)
  · exact hno

/-- All lines but the last stay what they are before the line end of the text. -/
def Joinable (text : List Char) (ls : List (List Char)) : Prop :=
  lineEnding text = ['\n'] → ∀ l ∈ ls.dropLast, l.getLast? ≠ some '\r'

/-- Pieces that are rewritten one by one stay joinable. -/
theorem Joinable.flatMap {text : List Char} {ps : List Piece} {g : Piece → List (List Char)}
    (h : Joinable text (linesOf ps)) (hne : ∀ p ∈ ps, p.lines ≠ [])
    (hg : ∀ p ∈ ps, Joinable text p.lines → Joinable text (g p))
    (hall : ∀ p ∈ ps, (∀ l ∈ p.lines, l.getLast? ≠ some '\r') →
      ∀ l ∈ g p, l.getLast? ≠ some '\r') :
    Joinable text (ps.flatMap g) := by
  unfold linesOf at h
  induction ps with
  | nil => exact h
  | cons p ps ih =>
    rw [List.flatMap_cons] at h ⊢
    cases ps with
    | nil =>
      rw [List.flatMap_nil, List.append_nil] at h ⊢
      exact hg p List.mem_cons_self h
    | cons q ps =>
      have hrest : (q :: ps).flatMap Piece.lines ≠ [] := by
        rw [List.flatMap_cons]
        exact List.append_ne_nil_of_left_ne_nil (hne q (by simp)) _
      intro htext
      have h := h htext
      rw [List.dropLast_append_of_ne_nil hrest] at h
      have hp := hall p List.mem_cons_self fun l hl => h l (List.mem_append_left _ hl)
      have hps := ih (fun _ l hl => h l (List.mem_append_right _ hl))
        (fun p hp => hne p (List.mem_cons_of_mem _ hp))
        (fun p hp => hg p (List.mem_cons_of_mem _ hp))
        (fun p hp => hall p (List.mem_cons_of_mem _ hp)) htext
      intro l hl
      by_cases hnil : (q :: ps).flatMap g = []
      · rw [hnil, List.append_nil] at hl
        exact hp l (List.dropLast_subset _ hl)
      · rw [List.dropLast_append_of_ne_nil hnil] at hl
        rcases List.mem_append.1 hl with hl | hl
        · exact hp l hl
        · exact hps l hl

end Arlen.Calendar
