import Arlen.Forage.Source
import Arlen.Lib.Pieces
import Mathlib.Data.List.Chain

/-!
# What a patch is cut into

`split_file_diffs` of `forage/patch/src/lib.rs` against the unified format, where the
counts of a hunk's header say how far it reaches. The code goes on while a line begins as
a line of a hunk may. It takes too much where such a line follows a file's last hunk, be
it the header of the next file or a signature, and too little where a context line is
written without its blank.
-/

namespace Arlen.Forage

open Arlen.Lib

/-! ## The unified format -/

inductive BodyLine where
  | context (s : String)
  /-- An empty context line without its blank. -/
  | empty
  | added (s : String)
  | removed (s : String)
  /-- The remark that the line before ends the file without a line feed. -/
  | remark (s : String)
deriving DecidableEq, Repr

namespace BodyLine

def text : BodyLine → String
  | context s => " " ++ s
  | empty => ""
  | added s => "+" ++ s
  | removed s => "-" ++ s
  | remark s => "\\" ++ s

def inOld : BodyLine → Bool
  | context _ | empty | removed _ => true
  | _ => false

def inNew : BodyLine → Bool
  | context _ | empty | added _ => true
  | _ => false

end BodyLine

def decimal (s : String) : Option Nat :=
  if s ≠ "" ∧ s.toList.all Char.isDigit then
    some (s.toList.foldl (fun n c => 10 * n + (c.toNat - 48)) 0)
  else none

/-- The length a range of a hunk's header gives: one, where it gives none. -/
def rangeLength (sign piece : String) : Option Nat :=
  (stripPrefix piece sign).bind fun range =>
    match splitOnce range ',' with
    | none => (decimal range).map fun _ => 1
    | some (start, length) => (decimal start).bind fun _ => decimal length

/-- The old and the new length of a hunk, from its header. -/
def hunkLengths (header : String) : Option (Nat × Nat) :=
  match splitn 4 ' ' header with
  | [mark, old, new, rest] =>
    if mark = "@@" ∧ startsWith rest "@@" then do
      let old ← rangeLength "-" old
      let new ← rangeLength "+" new
      return (old, new)
    else none
  | _ => none

/-- A hunk: a header and as many lines as it says. -/
structure Hunk where
  header : String
  body : List BodyLine
  lengths : hunkLengths header = some (body.countP BodyLine.inOld, body.countP BodyLine.inNew)

def Hunk.lines (h : Hunk) : List String := h.header :: h.body.map BodyLine.text

/-- The diff of one file. -/
structure FileDiff where
  old : String
  new : String
  hunks : List Hunk
  isOld : startsWith old "--- " = true
  isNew : startsWith new "+++ " = true
  hunks_ne_nil : hunks ≠ []

namespace FileDiff

def body (d : FileDiff) : List String := d.hunks.flatMap Hunk.lines

def lines (d : FileDiff) : List String := d.old :: d.new :: d.body

/-- The chunk of the diff: its lines and no others. -/
def chunk (d : FileDiff) : String := String.intercalate "\n" d.lines ++ "\n"

end FileDiff

/-- The two lines open a file's diff. -/
def opensDiff (l m : String) : Bool := startsWith l "--- " && startsWith m "+++ "

/-- No diff is opened among the lines. -/
def OpensNone (gap : List String) : Prop := gap.IsChain fun l m => opensDiff l m = false

/-- The lines of file diffs, each with the lines behind it. -/
def flatParts (parts : List (FileDiff × List String)) : List String :=
  parts.flatMap fun part => part.1.lines ++ part.2

/-- File diffs with lines before, between and after them that are of none. -/
structure PatchText where
  lead : List String
  parts : List (FileDiff × List String)
  leadOpensNone : OpensNone lead
  gapsOpenNone : ∀ part ∈ parts, OpensNone part.2
  noLf : ∀ l ∈ lead ++ flatParts parts, '\n' ∉ l.toList

namespace PatchText

def pieces (p : PatchText) : List String := p.lead ++ flatParts p.parts

def text (p : PatchText) : String := String.intercalate "\n" p.pieces

end PatchText

/-! ## Lines as they are read -/

variable {l m : String} {d : FileDiff} {gap rest : List String}
  {parts : List (FileDiff × List String)}

theorem utf8EncodeChar_ne_nil (c : Char) : String.utf8EncodeChar c ≠ [] := by
  intro h
  have hlen := String.length_utf8EncodeChar c
  rw [h] at hlen
  exact absurd hlen.symm (Nat.ne_of_gt c.utf8Size_pos)

/-- Only the first character tells a line of a hunk. -/
theorem isHunkLine_cons (c : Char) (s : List Char) :
    isHunkLine (String.ofList (c :: s)) = isHunkLine (String.ofList [c]) := by
  unfold isHunkLine
  rw [utf8_ofList, utf8_ofList, List.flatMap_cons, List.flatMap_singleton,
    List.head?_append_of_ne_nil _ (utf8EncodeChar_ne_nil c)]

theorem isHunkLine_stripCr (l : String) : isHunkLine (stripCr l) = isHunkLine l := by
  unfold stripCr dropCr
  split
  · next hlast =>
    cases hl : l.toList with
    | nil =>
      rw [hl] at hlast
      cases hlast
    | cons c s =>
      have hcons : l = String.ofList (c :: s) := by rw [← hl, String.ofList_toList]
      rw [hcons]
      cases s with
      | nil =>
        obtain rfl : c = '\r' := by
          rw [hl] at hlast
          exact Option.some.inj hlast
        decide
      | cons c' s =>
        rw [List.dropLast_cons_cons, isHunkLine_cons, isHunkLine_cons c (c' :: s)]
  · rw [String.ofList_toList]

/-- A beginning without a carriage return is that of the line read. -/
theorem startsWith_stripCr {p : String} (hp : '\r' ∉ p.toList) :
    startsWith (stripCr l) p = startsWith l p := by
  unfold startsWith stripCr dropCr
  rw [String.toList_ofList]
  split
  · next hlast =>
    obtain ⟨front, hfront⟩ := List.getLast?_eq_some_iff.1 hlast
    rw [hfront, List.dropLast_concat, Bool.eq_iff_iff, List.isPrefixOf_iff_prefix,
      List.isPrefixOf_iff_prefix, List.prefix_concat_iff]
    refine ⟨.inr, ?_⟩
    rintro (h | h)
    · exact absurd (h ▸ List.mem_append_right _ (List.mem_singleton_self _)) hp
    · exact h
  · rfl

theorem isHunkLine_append {p : String} (h : isHunkLine p = true) (s : String) :
    isHunkLine (p ++ s) = true := by
  unfold isHunkLine at *
  rw [utf8_append]
  cases hp : utf8 p with
  | nil =>
    rw [hp] at h
    cases h
  | cons b bs =>
    rw [hp] at h
    exact h

theorem isHunkLine_text (b : BodyLine) : isHunkLine b.text = true ↔ b.text ≠ "" := by
  have hmark : ∀ mark : String, mark ≠ "" → isHunkLine mark = true → ∀ s,
      (isHunkLine (mark ++ s) = true ↔ mark ++ s ≠ "") := fun mark hne h s =>
    iff_of_true (isHunkLine_append h s) fun hnil => hne (String.append_eq_empty_iff.1 hnil).1
  cases b with
  | empty => decide
  | context s => exact hmark " " (by decide) (by decide) s
  | added s => exact hmark "+" (by decide) (by decide) s
  | removed s => exact hmark "-" (by decide) (by decide) s
  | remark s => exact hmark "\\" (by decide) (by decide) s

theorem isHunkLine_header (h : Hunk) : isHunkLine h.header = true := by
  have hlengths := h.lengths
  unfold hunkLengths at hlengths
  split at hlengths
  · next mark old new rest hsplit =>
    split at hlengths
    · next hmark =>
      unfold splitn at hsplit
      split at hsplit
      · cases hsplit
      · next a tail ha =>
        obtain ⟨rfl, -⟩ := List.cons.inj hsplit
        obtain ⟨heq, -⟩ := splitOnce_eq_some.1 ha
        rw [heq, hmark.1]
        exact isHunkLine_append (by decide) _
    · cases hlengths
  · cases hlengths

theorem isHunkLine_of_mem_body (h : l ∈ d.body) : isHunkLine l = true ↔ l ≠ "" := by
  obtain ⟨hunk, -, hl⟩ := List.mem_flatMap.1 h
  rcases List.mem_cons.1 hl with rfl | hl
  · have hh := isHunkLine_header hunk
    exact iff_of_true hh fun hnil => by rw [hnil] at hh; exact absurd hh (by decide)
  · obtain ⟨b, -, rfl⟩ := List.mem_map.1 hl
    exact isHunkLine_text b

theorem FileDiff.body_ne_nil (d : FileDiff) : d.body ≠ [] := by
  obtain ⟨h, hs, heq⟩ := List.exists_cons_of_ne_nil d.hunks_ne_nil
  unfold FileDiff.body
  rw [heq]
  exact List.cons_ne_nil _ _

/-! ## The lines between -/

theorem startsWith_new_of_old (h : startsWith l "--- " = true) : startsWith l "+++ " = false := by
  obtain ⟨r, rfl⟩ := startsWith_iff.1 h
  rw [← Bool.not_eq_true]
  intro hnew
  obtain ⟨r', hr'⟩ := startsWith_iff.1 hnew
  have hdash : "--- ".toList = ['-', '-', '-', ' '] := by decide
  have hplus : "+++ ".toList = ['+', '+', '+', ' '] := by decide
  have hhead := congrArg (fun s => s.toList.head?) hr'
  simp [hdash, hplus] at hhead

/-- Reading changes nothing about what opens a diff. -/
theorem opensDiff_asRead {l' : String} (hl' : l' ∈ (asRead (m :: rest)).head?)
    (h : opensDiff l m = false) : opensDiff (stripCr l) l' = false := by
  obtain ⟨piece, hpiece, heq⟩ := head_asRead hl'
  obtain rfl := Option.some.inj hpiece
  unfold opensDiff at *
  rw [startsWith_stripCr (by decide)]
  rcases heq with rfl | rfl
  · exact h
  · rw [startsWith_stripCr (by decide), h]

/-- Lines that open no diff are gone over. -/
theorem fileDiffs_gap (hgap : OpensNone gap)
    (hrest : ∀ l ∈ rest.head?, startsWith l "+++ " = false) :
    fileDiffs (asRead (gap ++ rest)) = fileDiffs (asRead rest) := by
  induction gap with
  | nil => rfl
  | cons l gap ih =>
    have ih := ih (List.isChain_of_isChain_cons hgap)
    cases hnext : gap ++ rest with
    | nil =>
      obtain ⟨rfl, rfl⟩ := List.append_eq_nil_iff.1 hnext
      rw [List.append_nil, asRead, asRead]
      split
      · rfl
      · rw [fileDiffs, fileDiffs]
    | cons m ms =>
      have hopens : opensDiff l m = false := by
        cases gap with
        | nil =>
          rw [List.nil_append] at hnext
          unfold opensDiff
          rw [hrest m (by rw [hnext]; rfl), Bool.and_false]
        | cons m' gap =>
          obtain ⟨rfl, -⟩ := List.cons.inj hnext
          exact (List.isChain_cons_cons.1 hgap).1
      rw [← ih, hnext, List.cons_append, hnext, asRead]
      cases hread : asRead (m :: ms) with
      | nil => rw [fileDiffs, fileDiffs]
      | cons l' ls =>
        have hpass := opensDiff_asRead (by rw [hread]; rfl) hopens
        rw [fileDiffs, ← opensDiff, hpass, if_neg Bool.false_ne_true]

theorem flatParts_cons (d : FileDiff) (gap : List String) (parts : List (FileDiff × List String)) :
    flatParts ((d, gap) :: parts) = d.lines ++ (gap ++ flatParts parts) := by
  unfold flatParts
  rw [List.flatMap_cons, List.append_assoc]

theorem head_flatParts (h : l ∈ (flatParts parts).head?) : startsWith l "+++ " = false := by
  cases parts with
  | nil => cases h
  | cons part parts =>
    obtain rfl := Option.some.inj h
    exact startsWith_new_of_old part.1.isOld

/-! ## One diff -/

/-- The diff is cut out whole and alone: its lines are read as they stand, none of them is
empty, and the line behind it does not begin as a line of a hunk. -/
structure CleanCut (d : FileDiff) (after : List String) : Prop where
  intact : ∀ l ∈ if after = [] then d.lines.dropLast else d.lines, l.toList.getLast? ≠ some '\r'
  full : ∀ l ∈ d.body, l ≠ ""
  stops : ∀ l ∈ after.head?, isHunkLine l = false

variable {after : List String}

theorem asRead_lines (d : FileDiff) (after : List String) :
    asRead (d.lines ++ after) = stripCr d.old :: stripCr d.new :: asRead (d.body ++ after) := by
  obtain ⟨b, bs, hbody⟩ := List.exists_cons_of_ne_nil d.body_ne_nil
  unfold FileDiff.lines
  rw [hbody]
  rfl

/-- What the code takes as a diff, and what it goes on with. -/
theorem fileDiffs_lines (d : FileDiff) (after : List String) :
    fileDiffs (asRead (d.lines ++ after)) =
      (String.intercalate "\n" (stripCr d.old :: stripCr d.new ::
        (asRead (d.body ++ after)).takeWhile isHunkLine) ++ "\n") ::
        fileDiffs ((asRead (d.body ++ after)).dropWhile isHunkLine) := by
  have hopens : (startsWith (stripCr d.old) "--- " && startsWith (stripCr d.new) "+++ ") = true := by
    rw [startsWith_stripCr (by decide), startsWith_stripCr (by decide), d.isOld, d.isNew]
    rfl
  rw [asRead_lines, fileDiffs, if_pos hopens]

theorem stops_asRead : (∀ l ∈ (asRead after).head?, isHunkLine l = false) ↔
    ∀ l ∈ after.head?, isHunkLine l = false := by
  constructor
  · intro h l hl
    obtain ⟨ls, rfl⟩ := List.head?_eq_some_iff.1 hl
    cases ls with
    | nil =>
      rw [asRead] at h
      by_cases hnil : l = ""
      · rw [hnil]
        decide
      · rw [if_neg hnil] at h
        exact h l rfl
    | cons m ls =>
      rw [← isHunkLine_stripCr]
      exact h _ rfl
  · intro h l hl
    obtain ⟨piece, hpiece, rfl | rfl⟩ := head_asRead hl
    · exact h _ hpiece
    · rw [isHunkLine_stripCr]
      exact h _ hpiece

theorem cleanCut_iff : CleanCut d after ↔
    stripCr d.old = d.old ∧ stripCr d.new = d.new ∧
      (asRead (d.body ++ after)).takeWhile isHunkLine = d.body := by
  have hlines : (∀ l ∈ if after = [] then d.lines.dropLast else d.lines,
      l.toList.getLast? ≠ some '\r') ↔ stripCr d.old = d.old ∧ stripCr d.new = d.new ∧
        ∀ l ∈ if after = [] then d.body.dropLast else d.body, l.toList.getLast? ≠ some '\r' := by
    obtain ⟨b, bs, hbody⟩ := List.exists_cons_of_ne_nil d.body_ne_nil
    rw [stripCr_eq_self, stripCr_eq_self]
    unfold FileDiff.lines
    split
    · rw [hbody, List.dropLast_cons_cons, List.dropLast_cons_cons, List.forall_mem_cons,
        List.forall_mem_cons]
    · rw [List.forall_mem_cons, List.forall_mem_cons]
  constructor
  · rintro ⟨hintact, hfull, hstops⟩
    obtain ⟨hold, hnew, hbody⟩ := hlines.1 hintact
    have hlast : after = [] → d.body.getLast? ≠ some "" := fun _ h =>
      hfull "" (List.mem_of_getLast? h) rfl
    rw [asRead_append_eq.2 ⟨hbody, hlast⟩, takeWhile_append_eq]
    exact ⟨hold, hnew, fun l hl => (isHunkLine_of_mem_body hl).2 (hfull l hl),
      stops_asRead.2 hstops⟩
  · rintro ⟨hold, hnew, htake⟩
    have hread := asRead_append_of_prefix (htake ▸ List.takeWhile_prefix _)
    rw [hread, takeWhile_append_eq] at htake
    exact ⟨hlines.2 ⟨hold, hnew, (asRead_append_eq.1 hread).1⟩,
      fun l hl => (isHunkLine_of_mem_body hl).1 (htake.1 l hl), stops_asRead.1 htake.2⟩

/-! ## All of them -/

/-- Every diff is cut out whole and alone. -/
def CleanCuts : List (FileDiff × List String) → Prop
  | [] => True
  | (d, gap) :: parts => CleanCut d (gap ++ flatParts parts) ∧ CleanCuts parts

theorem chunk_inj {ls : List String} (hne : ls ≠ []) (hls : ∀ l ∈ ls, '\n' ∉ l.toList)
    (hd : ∀ l ∈ d.lines, '\n' ∉ l.toList) :
    String.intercalate "\n" ls ++ "\n" = d.chunk ↔ ls = d.lines :=
  ⟨fun h => join_inj hne (List.cons_ne_nil _ _) hls hd h, fun h => h ▸ rfl⟩

theorem fileDiffs_flatParts (hnoLf : ∀ l ∈ flatParts parts, '\n' ∉ l.toList)
    (hgaps : ∀ part ∈ parts, OpensNone part.2) :
    fileDiffs (asRead (flatParts parts)) = parts.map (·.1.chunk) ↔ CleanCuts parts := by
  induction parts with
  | nil =>
    refine iff_of_true ?_ trivial
    rw [flatParts, List.flatMap_nil, asRead, fileDiffs, List.map_nil]
  | cons part parts ih =>
    obtain ⟨d, gap⟩ := part
    obtain ⟨hgap, hgaps⟩ := List.forall_mem_cons.1 hgaps
    rw [flatParts_cons] at hnoLf ⊢
    obtain ⟨hd, hafter⟩ := List.forall_mem_append.1 hnoLf
    have ih := ih (List.forall_mem_append.1 hafter).2 hgaps
    have hrest : fileDiffs (asRead (gap ++ flatParts parts)) = parts.map (·.1.chunk) ↔
        CleanCuts parts := by
      rw [fileDiffs_gap hgap fun l => head_flatParts, ih]
    have hread : ∀ l ∈ stripCr d.old :: stripCr d.new ::
        (asRead (d.body ++ (gap ++ flatParts parts))).takeWhile isHunkLine,
        '\n' ∉ l.toList := by
      intro l hl
      refine noLf_asRead hnoLf l ?_
      rw [asRead_lines]
      exact (((List.takeWhile_sublist _).cons_cons _).cons_cons _).mem hl
    rw [fileDiffs_lines, List.map_cons, List.cons.injEq, chunk_inj (List.cons_ne_nil _ _) hread hd,
      CleanCuts, cleanCut_iff, FileDiff.lines, List.cons.injEq, List.cons.injEq]
    refine and_congr_right fun hclean => ?_
    obtain ⟨-, -, htake⟩ := hclean
    have happend := asRead_append_of_prefix (htake ▸ List.takeWhile_prefix _)
    have hdrop := List.takeWhile_append_dropWhile
      (p := isHunkLine) (l := asRead (d.body ++ (gap ++ flatParts parts)))
    rw [htake, happend, List.append_right_inj] at hdrop
    rw [happend, hdrop, hrest]

/-- A patch is cut into the diffs it is made of just when each is cut out whole and alone. -/
theorem splitFileDiffs_iff (p : PatchText) :
    splitFileDiffs p.text = p.parts.map (·.1.chunk) ↔ CleanCuts p.parts := by
  have hlead := fileDiffs_gap p.leadOpensNone fun l (hl : l ∈ (flatParts p.parts).head?) =>
    head_flatParts hl
  unfold splitFileDiffs PatchText.text PatchText.pieces
  rw [lines_intercalate p.noLf, hlead]
  exact fileDiffs_flatParts (List.forall_mem_append.1 p.noLf).2 p.gapsOpenNone

/-- A diff that another follows directly is never cut out alone. -/
theorem not_cleanCut_of_next (e : FileDiff) (gap : List String) :
    ¬CleanCut d (flatParts ((e, gap) :: parts)) := by
  intro h
  have hstops := h.stops e.old rfl
  obtain ⟨r, hr⟩ := startsWith_iff.1 e.isOld
  rw [hr, isHunkLine_append (by decide)] at hstops
  cases hstops

def oneLine (file : String) : FileDiff where
  old := "--- a/" ++ file
  new := "+++ b/" ++ file
  hunks := [{ header := "@@ -1 +1 @@", body := [.removed "old", .added "new"], lengths := by decide }]
  isOld := startsWith_iff.2 ⟨"a/" ++ file, by rw [← String.append_assoc]; rfl⟩
  isNew := startsWith_iff.2 ⟨"b/" ++ file, by rw [← String.append_assoc]; rfl⟩
  hunks_ne_nil := List.cons_ne_nil _ _

/-- Two diffs with nothing between them. -/
def adjacent : PatchText where
  lead := []
  parts := [(oneLine "f", []), (oneLine "g", [])]
  leadOpensNone := .nil
  gapsOpenNone := List.forall_mem_cons.2 ⟨.nil, List.forall_mem_singleton.2 .nil⟩
  noLf := by decide

theorem adjacent_not_cut :
    adjacent.text = "--- a/f\n+++ b/f\n@@ -1 +1 @@\n-old\n+new\n" ++
      "--- a/g\n+++ b/g\n@@ -1 +1 @@\n-old\n+new" ∧
    splitFileDiffs adjacent.text ≠ adjacent.parts.map (·.1.chunk) := by
  refine ⟨by decide, fun h => ?_⟩
  unfold splitFileDiffs PatchText.text PatchText.pieces at h
  rw [lines_intercalate adjacent.noLf] at h
  have hclean := (fileDiffs_flatParts adjacent.noLf adjacent.gapsOpenNone).1 h
  exact not_cleanCut_of_next _ _ hclean.1

end Arlen.Forage
