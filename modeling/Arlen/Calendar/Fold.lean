import Arlen.Calendar.RoundTrip
import Arlen.Lib.Lossy

/-!
# Folding by octets

`fold` of `write.rs` as it runs on the octets of a line: take as many as the
budget allows, back up to a character boundary, go on behind it. On the octets of
a text it computes what the writer's `fold` says of the text, so that no
character is split; every physical line keeps within the limit, and joining them
gives the line back.
-/

namespace Arlen.Calendar

open Arlen.Lib

/-- `str::is_char_boundary`. -/
def isCharBoundary (line : Bytes) (i : Nat) : Bool :=
  if i = 0 then true
  else
    match (line)[i]? with
    | none => i == line.length
    | some b => !isContinuation b

/-- Back from `end` to a character boundary, but not before `start`. -/
def backUp (line : Bytes) (start : Nat) : Nat → Nat
  | 0 => 0
  | e + 1 =>
    if start < e + 1 ∧ isCharBoundary line (e + 1) = false then backUp line start e else e + 1

/-- The start of the second character from here on, or the end of the line. -/
def secondChar (line : Bytes) (start : Nat) : Nat :=
  start + 1 + ((line.drop (start + 1)).takeWhile isContinuation).length

/-- The loop of `fold`; the fuel is a number of turns that is always enough. -/
def foldLoop (line : Bytes) : Nat → Nat → Nat → Bytes
  | 0, _, _ => []
  | fuel + 1, start, budget =>
    if start < line.length then
      let backed := backUp line start (min (start + budget) line.length)
      -- a character wider than the budget goes out whole
      let stop := if backed = start then secondChar line start else backed
      (if 0 < start then utf8 "\r\n " else []) ++ (line.drop start).take (stop - start) ++
        foldLoop line fuel stop (foldLimit - 1)
    else []

def foldBytes (line : Bytes) : Bytes :=
  if line.length ≤ foldLimit then line else foldLoop line line.length 0 foldLimit

/-! ### Characters and octets -/

/-- The octets of a text. -/
def octets (s : List Char) : Bytes := s.flatMap String.utf8EncodeChar

variable {c : Char} {s cs : List Char} {a : Bytes} {budget fuel : Nat}

theorem octets_cons : octets (c :: cs) = String.utf8EncodeChar c ++ octets cs := rfl

theorem octets_append (s t : List Char) : octets (s ++ t) = octets s ++ octets t :=
  List.flatMap_append

theorem length_octets (s : List Char) : (octets s).length = Text.byteLen s := by
  induction s with
  | nil => rfl
  | cons c cs ih =>
    rw [octets_cons, List.length_append, ih, String.length_utf8EncodeChar]
    rfl

/-- A character is one octet that starts it and octets that continue it. -/
theorem utf8EncodeChar_eq_cons (c : Char) : ∃ b rest, String.utf8EncodeChar c = b :: rest ∧
    isContinuation b = false ∧ ∀ x ∈ rest, isContinuation x = true := by
  have hlt : c.val.toNat < 1114112 := by
    rcases c.valid with h | h <;> omega
  have hval : c.toNat = c.val.toNat := rfl
  unfold String.utf8EncodeChar
  dsimp only
  split
  · refine ⟨_, _, rfl, ?_, by simp⟩
    rw [← Bool.not_eq_true, isContinuation_iff]
    simp [UInt8.toNat_ofNat']
    omega
  split
  · refine ⟨_, _, rfl, ?_, ?_⟩
    · rw [← Bool.not_eq_true, isContinuation_iff]
      simp [UInt8.toNat_ofNat']
      omega
    · intro x hx
      rw [isContinuation_iff, List.mem_singleton.mp hx]
      simp [UInt8.toNat_ofNat']
      omega
  split
  · refine ⟨_, _, rfl, ?_, ?_⟩
    · rw [← Bool.not_eq_true, isContinuation_iff]
      simp [UInt8.toNat_ofNat']
      omega
    · intro x hx
      simp only [List.mem_cons, List.not_mem_nil, or_false] at hx
      rw [isContinuation_iff]
      rcases hx with rfl | rfl <;> simp [UInt8.toNat_ofNat'] <;> omega
  · refine ⟨_, _, rfl, ?_, ?_⟩
    · rw [← Bool.not_eq_true, isContinuation_iff]
      simp [UInt8.toNat_ofNat']
      omega
    · intro x hx
      simp only [List.mem_cons, List.not_mem_nil, or_false] at hx
      rw [isContinuation_iff]
      rcases hx with rfl | rfl | rfl <;> simp [UInt8.toNat_ofNat'] <;> omega

/-! ### Boundaries -/

/-- The line up to `start`, and the octets of a text behind it. -/
theorem isCharBoundary_append (a : Bytes) (r : Bytes) {k : Nat} (hk : 0 < k) :
    isCharBoundary (a ++ r) (a.length + k) = isCharBoundary r k := by
  unfold isCharBoundary
  rw [if_neg (by omega), if_neg (by omega), List.getElem?_append_right (by omega),
    Nat.add_sub_cancel_left, List.length_append]
  cases r[k]? with
  | some b => rfl
  | none =>
    dsimp only
    rw [Bool.eq_iff_iff, beq_iff_eq, beq_iff_eq]
    omega

/-- No boundary lies inside a character. -/
theorem isCharBoundary_inside {k : Nat} (hk : 0 < k) (hlt : k < c.utf8Size) :
    isCharBoundary (octets (c :: cs)) k = false := by
  obtain ⟨b, rest, hc, -, hrest⟩ := utf8EncodeChar_eq_cons c
  have hlen : rest.length + 1 = c.utf8Size := by
    rw [← String.length_utf8EncodeChar, hc, List.length_cons]
  obtain ⟨j, rfl⟩ := Nat.exists_eq_add_of_lt hk
  rw [Nat.zero_add] at hlt ⊢
  have hj : j < rest.length := by omega
  have hget : (octets (c :: cs))[j + 1]? = some rest[j] := by
    rw [octets_cons, hc, List.cons_append, List.getElem?_cons_succ,
      List.getElem?_append_left (by omega), List.getElem?_eq_getElem]
  unfold isCharBoundary
  rw [if_neg (Nat.succ_ne_zero j), hget]
  dsimp only
  rw [hrest _ (List.getElem_mem _)]
  rfl

/-- A boundary lies behind a character. -/
theorem isCharBoundary_behind : isCharBoundary (octets (c :: cs)) c.utf8Size = true := by
  have hlen := String.length_utf8EncodeChar c
  unfold isCharBoundary
  rw [if_neg (Nat.ne_of_gt c.utf8Size_pos), octets_cons, ← hlen,
    List.getElem?_append_right (Nat.le_refl _), Nat.sub_self]
  cases cs with
  | nil => simp [octets]
  | cons d ds =>
    obtain ⟨b, rest, hd, hhead, -⟩ := utf8EncodeChar_eq_cons d
    rw [octets_cons, hd, List.cons_append, List.getElem?_cons_zero]
    dsimp only
    rw [hhead]
    rfl

/-- Backing up finds the last boundary. -/
theorem backUp_eq {line : Bytes} {start b e : Nat} (hstart : start ≤ b) (hle : b ≤ e)
    (hb : b = start ∨ isCharBoundary line b = true)
    (hgap : ∀ i, b < i → i ≤ e → isCharBoundary line i = false) : backUp line start e = b := by
  induction e with
  | zero => exact (Nat.le_zero.mp hle).symm
  | succ e ih =>
    unfold backUp
    rcases Nat.lt_or_eq_of_le hle with hlt | rfl
    · rw [if_pos ⟨by omega, hgap (e + 1) hlt (Nat.le_refl _)⟩]
      exact ih (by omega) fun i hi hie => hgap i hi (by omega)
    · refine if_neg fun hback => ?_
      rcases hb with hb | hb
      · omega
      · rw [hb] at hback
        exact absurd hback.2 (by simp)

/-- The characters that fit end at the last boundary within the budget. -/
theorem splitBudget_boundary (s : List Char) {k : Nat} (hk : k ≤ (octets s).length) :
    Text.byteLen (splitBudget k s).1 ≤ k ∧
      (Text.byteLen (splitBudget k s).1 = 0 ∨
        isCharBoundary (octets s) (Text.byteLen (splitBudget k s).1) = true) ∧
      ∀ i, Text.byteLen (splitBudget k s).1 < i → i ≤ k → isCharBoundary (octets s) i = false := by
  induction s generalizing k with
  | nil =>
    have hk0 : k = 0 := Nat.le_zero.mp hk
    exact ⟨Nat.zero_le _, Or.inl rfl, fun i hi hik => by omega⟩
  | cons c cs ih =>
    by_cases hfit : c.utf8Size ≤ k
    · have hsplit : (splitBudget k (c :: cs)).1 = c :: (splitBudget (k - c.utf8Size) cs).1 := by
        rw [splitBudget, if_pos hfit]
      have hbytes : Text.byteLen (splitBudget k (c :: cs)).1 =
          c.utf8Size + Text.byteLen (splitBudget (k - c.utf8Size) cs).1 := by
        rw [hsplit]
        rfl
      have hsize := String.length_utf8EncodeChar c
      rw [octets_cons, List.length_append, hsize] at hk
      obtain ⟨hle, hbound, hgap⟩ := ih (k := k - c.utf8Size) (by omega)
      rw [hbytes]
      generalize Text.byteLen (splitBudget (k - c.utf8Size) cs).1 = m at hle hbound hgap ⊢
      refine ⟨by omega, Or.inr ?_, fun i hi hik => ?_⟩
      · rcases Nat.eq_zero_or_pos m with rfl | hm
        · exact isCharBoundary_behind
        · rw [octets_cons, ← hsize, isCharBoundary_append _ _ hm]
          exact hbound.resolve_left (by omega)
      · obtain ⟨j, rfl⟩ : ∃ j, i = c.utf8Size + j := ⟨i - c.utf8Size, by omega⟩
        rw [octets_cons, ← hsize, isCharBoundary_append _ _ (by omega)]
        exact hgap j (by omega) (by omega)
    · have hsplit : (splitBudget k (c :: cs)).1 = [] := by rw [splitBudget, if_neg hfit]
      rw [hsplit]
      exact ⟨Nat.zero_le _, Or.inl rfl, fun i hi hik => isCharBoundary_inside hi (by omega)⟩

/-- The budget is not more than what is left of the line. -/
theorem splitBudget_min (budget : Nat) (s : List Char) :
    splitBudget (min budget (octets s).length) s = splitBudget budget s := by
  induction s generalizing budget with
  | nil => rfl
  | cons c cs ih =>
    rw [octets_cons, List.length_append, String.length_utf8EncodeChar]
    by_cases hfit : c.utf8Size ≤ budget
    · have hrest : min budget (c.utf8Size + (octets cs).length) - c.utf8Size =
          min (budget - c.utf8Size) (octets cs).length := by omega
      rw [splitBudget, splitBudget, if_pos hfit, if_pos (by omega), hrest, ih]
    · rw [splitBudget, splitBudget, if_neg hfit, if_neg (by omega)]

/-- Backing up stops before the first character that does not fit. -/
theorem backUp_octets (a : Bytes) (s : List Char) (budget : Nat) :
    backUp (a ++ octets s) a.length (min (a.length + budget) (a ++ octets s).length) =
      a.length + Text.byteLen (splitBudget budget s).1 := by
  have hmin : min (a.length + budget) (a ++ octets s).length =
      a.length + min budget (octets s).length := by
    rw [List.length_append]
    omega
  obtain ⟨hle, hbound, hgap⟩ := splitBudget_boundary s (Nat.min_le_right budget _)
  rw [splitBudget_min] at hle hbound hgap
  rw [hmin]
  refine backUp_eq (Nat.le_add_right _ _) (Nat.add_le_add_left hle _) ?_ fun i hi hik => ?_
  · rcases Nat.eq_zero_or_pos (Text.byteLen (splitBudget budget s).1) with hm | hm
    · exact Or.inl (by rw [hm, Nat.add_zero])
    · refine Or.inr ?_
      rw [isCharBoundary_append _ _ hm]
      exact hbound.resolve_left (by omega)
  · obtain ⟨j, rfl⟩ : ∃ j, i = a.length + j := ⟨i - a.length, by omega⟩
    rw [isCharBoundary_append _ _ (by omega)]
    exact hgap j (by omega) (by omega)

/-- A text does not begin inside a character. -/
theorem takeWhile_isContinuation_octets (s : List Char) :
    (octets s).takeWhile isContinuation = [] := by
  cases s with
  | nil => rfl
  | cons c cs =>
    obtain ⟨b, rest, hc, hhead, -⟩ := utf8EncodeChar_eq_cons c
    rw [octets_cons, hc, List.cons_append, List.takeWhile_cons, hhead]
    rfl

theorem secondChar_octets (a : Bytes) (c : Char) (cs : List Char) :
    secondChar (a ++ octets (c :: cs)) a.length = a.length + c.utf8Size := by
  obtain ⟨b, rest, hc, -, hrest⟩ := utf8EncodeChar_eq_cons c
  have hlen : rest.length + 1 = c.utf8Size := by
    rw [← String.length_utf8EncodeChar, hc, List.length_cons]
  have hdrop : (a ++ octets (c :: cs)).drop (a.length + 1) = rest ++ octets cs := by
    rw [List.drop_append, List.drop_of_length_le (Nat.le_succ _), Nat.add_sub_cancel_left,
      octets_cons, hc]
    rfl
  unfold secondChar
  rw [hdrop, List.takeWhile_append_of_pos hrest, takeWhile_isContinuation_octets,
    List.append_nil]
  omega

/-! ### The loop -/

/-- What goes out in one turn, and what is left. -/
def nextPiece (budget : Nat) (c : Char) (cs : List Char) : List Char × List Char :=
  match splitBudget budget (c :: cs) with
  | ([], _) => ([c], cs)
  | (head, rest) => (head, rest)

theorem foldPieces_succ (fuel budget : Nat) (c : Char) (cs : List Char) :
    foldPieces (fuel + 1) budget (c :: cs) =
      (nextPiece budget c cs).1 :: foldPieces fuel (foldLimit - 1) (nextPiece budget c cs).2 := by
  unfold nextPiece
  rw [foldPieces]
  cases splitBudget budget (c :: cs) with
  | mk head rest =>
    cases head with
    | nil => rfl
    | cons d head => rfl

theorem nextPiece_append (budget : Nat) (c : Char) (cs : List Char) :
    (nextPiece budget c cs).1 ++ (nextPiece budget c cs).2 = c :: cs := by
  have hsplit := splitBudget_append budget (c :: cs)
  unfold nextPiece
  cases hs : splitBudget budget (c :: cs) with
  | mk head rest =>
    rw [hs] at hsplit
    cases head with
    | nil => rfl
    | cons d head => exact hsplit

theorem nextPiece_ne_nil (budget : Nat) (c : Char) (cs : List Char) :
    (nextPiece budget c cs).1 ≠ [] := by
  unfold nextPiece
  cases splitBudget budget (c :: cs) with
  | mk head rest =>
    cases head with
    | nil => exact List.cons_ne_nil c []
    | cons d head => exact List.cons_ne_nil d head

/-- Where the loop stops is the end of the next piece. -/
theorem stop_octets (a : Bytes) (budget : Nat) (c : Char) (cs : List Char) :
    (let backed := backUp (a ++ octets (c :: cs)) a.length
        (min (a.length + budget) (a ++ octets (c :: cs)).length)
      if backed = a.length then secondChar (a ++ octets (c :: cs)) a.length else backed) =
      a.length + (octets (nextPiece budget c cs).1).length := by
  dsimp only
  rw [backUp_octets, secondChar_octets]
  unfold nextPiece
  cases splitBudget budget (c :: cs) with
  | mk head rest =>
    cases head with
    | nil =>
      rw [if_pos (show a.length + Text.byteLen [] = a.length from rfl), length_octets]
      show _ = a.length + (c.utf8Size + 0)
      rw [Nat.add_zero]
    | cons d head =>
      have hd := d.utf8Size_pos
      have hbytes : Text.byteLen (d :: head) = d.utf8Size + Text.byteLen head := rfl
      rw [if_neg (by rw [hbytes]; omega), length_octets]

/-- One turn of the loop puts out one piece. -/
theorem foldLoop_succ (a : Bytes) (fuel budget : Nat) (c : Char) (cs : List Char) :
    foldLoop (a ++ octets (c :: cs)) (fuel + 1) a.length budget =
      (if 0 < a.length then utf8 "\r\n " else []) ++ octets (nextPiece budget c cs).1 ++
        foldLoop (a ++ octets (nextPiece budget c cs).1 ++ octets (nextPiece budget c cs).2) fuel
          (a ++ octets (nextPiece budget c cs).1).length (foldLimit - 1) := by
  have hstop := stop_octets a budget c cs
  have hjoin : octets (c :: cs) =
      octets (nextPiece budget c cs).1 ++ octets (nextPiece budget c cs).2 := by
    rw [← octets_append, nextPiece_append]
  have hpos : 0 < (octets (c :: cs)).length := by
    have := c.utf8Size_pos
    rw [octets_cons, List.length_append, String.length_utf8EncodeChar]
    omega
  rw [foldLoop, if_pos (by rw [List.length_append]; omega)]
  dsimp only at hstop ⊢
  rw [hstop, Nat.add_sub_cancel_left, List.drop_left, hjoin, List.take_left,
    List.append_assoc a, List.length_append]

/-- Each piece after the first, with the break before it. -/
def broken (pieces : List (List Char)) : List Char :=
  pieces.flatMap fun p => '\r' :: '\n' :: ' ' :: p

theorem intercalate_eq_broken (p : List Char) (ps : List (List Char)) :
    "\r\n ".toList.intercalate (p :: ps) = p ++ broken ps := by
  induction ps generalizing p with
  | nil => simp [broken]
  | cons q ps ih =>
    rw [List.intercalate_cons_cons, ih q, List.append_assoc]
    rfl

theorem octets_break (p : List Char) :
    octets ('\r' :: '\n' :: ' ' :: p) = utf8 "\r\n " ++ octets p := rfl

theorem foldLoop_broken {a : Bytes} (ha : 0 < a.length) {n m : Nat} (hn : s.length ≤ n)
    (hm : s.length ≤ m) (budget : Nat) :
    foldLoop (a ++ octets s) n a.length budget = octets (broken (foldPieces m budget s)) := by
  induction n generalizing a s m budget with
  | zero =>
    obtain rfl := List.length_eq_zero_iff.mp (Nat.le_zero.mp hn)
    cases m with
    | zero => rfl
    | succ m => rfl
  | succ n ih =>
    cases s with
    | nil =>
      rw [foldLoop, if_neg (by simp [octets])]
      cases m with
      | zero => rfl
      | succ m => rfl
    | cons c cs =>
      obtain ⟨m, rfl⟩ := Nat.exists_eq_add_of_lt (Nat.lt_of_lt_of_le (Nat.zero_lt_succ _) hm)
      rw [Nat.zero_add] at hm ⊢
      have hjoin := congrArg List.length (nextPiece_append budget c cs)
      have hpos := List.length_pos_iff.mpr (nextPiece_ne_nil budget c cs)
      rw [List.length_append, List.length_cons] at hjoin
      rw [List.length_cons] at hn hm
      rw [foldLoop_succ, if_pos ha, foldPieces_succ, ih (m := m) (by rw [List.length_append]; omega)
        (by omega) (by omega)]
      unfold broken
      rw [List.flatMap_cons, octets_append, octets_break]

/-- The loop on the octets of a line and the writer's `fold` of the line agree: every
break is between two characters. -/
theorem foldBytes_octets (line : List Char) : foldBytes (octets line) = octets (fold line) := by
  unfold foldBytes fold
  rw [length_octets]
  by_cases hshort : Text.byteLen line ≤ foldLimit
  · rw [if_pos hshort, if_pos hshort]
  rw [if_neg hshort, if_neg hshort]
  cases line with
  | nil => exact absurd (Nat.zero_le _) hshort
  | cons c cs =>
    have hlen := Text.length_le_byteLen (c :: cs)
    rw [List.length_cons] at hlen
    obtain ⟨n, hn⟩ := Nat.exists_eq_succ_of_ne_zero (n := Text.byteLen (c :: cs)) (by omega)
    have hfirst := foldLoop_succ [] n foldLimit c cs
    have hpos := List.length_pos_iff.mpr (nextPiece_ne_nil foldLimit c cs)
    have hjoin := congrArg List.length (nextPiece_append foldLimit c cs)
    have hbytes := Text.length_le_byteLen (nextPiece foldLimit c cs).1
    rw [List.length_append, List.length_cons] at hjoin
    rw [List.nil_append, List.nil_append, List.length_nil, if_neg (Nat.lt_irrefl 0),
      List.nil_append, foldLoop_broken (m := cs.length) (by rw [length_octets]; omega) (by omega)
        (by omega)] at hfirst
    rw [hn, hfirst, List.length_cons, foldPieces_succ, intercalate_eq_broken, octets_append]

/-! ### The physical lines -/

theorem byteLen_splitBudget_le (budget : Nat) (s : List Char) :
    Text.byteLen (splitBudget budget s).1 ≤ budget := by
  rw [← splitBudget_min]
  exact le_trans (splitBudget_boundary s (Nat.min_le_right _ _)).1 (Nat.min_le_left _ _)

/-- A piece is as long as the budget, or one character. -/
theorem byteLen_nextPiece_le {budget : Nat} (hbudget : 4 ≤ budget) (c : Char) (cs : List Char) :
    Text.byteLen (nextPiece budget c cs).1 ≤ budget := by
  have hle := byteLen_splitBudget_le budget (c :: cs)
  unfold nextPiece
  cases hs : splitBudget budget (c :: cs) with
  | mk head rest =>
    rw [hs] at hle
    cases head with
    | nil =>
      have := c.utf8Size_le_four
      show c.utf8Size + 0 ≤ budget
      omega
    | cons d head => exact hle

theorem byteLen_foldPieces_le {fuel : Nat} {s p : List Char}
    (hp : p ∈ foldPieces fuel (foldLimit - 1) s) : Text.byteLen p ≤ foldLimit - 1 := by
  induction fuel generalizing s with
  | zero => cases hp
  | succ fuel ih =>
    cases s with
    | nil => cases hp
    | cons c cs =>
      rw [foldPieces_succ] at hp
      rcases List.mem_cons.mp hp with rfl | hp
      · exact byteLen_nextPiece_le (by decide) c cs
      · exact ih hp

theorem byteLen_foldedLines_le {line l : List Char} (hl : l ∈ foldedLines line) :
    Text.byteLen l ≤ foldLimit := by
  unfold foldedLines at hl
  by_cases hshort : Text.byteLen line ≤ foldLimit
  · rw [if_pos hshort] at hl
    rw [List.mem_singleton.mp hl]
    exact hshort
  rw [if_neg hshort] at hl
  cases line with
  | nil => exact absurd (Nat.zero_le _) hshort
  | cons c cs =>
    rw [List.length_cons, foldPieces_succ] at hl
    rcases List.mem_cons.mp hl with rfl | hl
    · exact byteLen_nextPiece_le (by decide) c cs
    · obtain ⟨p, hp, rfl⟩ := List.mem_map.mp hl
      have hle := byteLen_foldPieces_le hp
      have hspace : Text.byteLen (' ' :: p) = 1 + Text.byteLen p := rfl
      have hlimit : foldLimit = 75 := rfl
      omega

theorem fold_eq_intercalate (line : List Char) :
    fold line = "\r\n".toList.intercalate (foldedLines line) := by
  unfold fold foldedLines
  by_cases hshort : Text.byteLen line ≤ foldLimit
  · rw [if_pos hshort, if_pos hshort, List.intercalate_singleton]
  rw [if_neg hshort, if_neg hshort]
  cases foldPieces line.length foldLimit line with
  | nil => rfl
  | cons p ps =>
    dsimp only
    induction ps generalizing p with
    | nil => rfl
    | cons q ps ih =>
      rw [List.intercalate_cons_cons, ih q, List.map_cons, List.intercalate_cons_cons]
      cases ps with
      | nil => simp
      | cons r ps => simp

/-- Lines joined by line ends are the lines the reader finds, but for a carriage return
at the very end. -/
theorem physicalLines_join {ls : List (List Char)} (hne : ls ≠ [])
    (hlf : ∀ l ∈ ls, '\n' ∉ l) (hcr : ∀ l, ls.getLast? = some l → l.getLast? ≠ some '\r') :
    physicalLines ("\r\n".toList.intercalate ls) = ls := by
  induction ls with
  | nil => exact absurd rfl hne
  | cons l ls ih =>
    have hl := hlf l List.mem_cons_self
    cases ls with
    | nil =>
      have hdrop : dropCr l = l := if_neg (hcr l rfl)
      unfold physicalLines
      rw [List.intercalate_singleton, splitOn_of_not_mem hl, List.map_singleton, hdrop]
    | cons k ls =>
      have hlcr : '\n' ∉ l ++ ['\r'] := by
        simp [hl]
      have hcons : "\r\n".toList.intercalate (l :: k :: ls) =
          (l ++ ['\r']) ++ '\n' :: "\r\n".toList.intercalate (k :: ls) := by
        rw [List.intercalate_cons_cons]
        simp
      have ih := ih (List.cons_ne_nil _ _) (fun x hx => hlf x (List.mem_cons_of_mem _ hx))
        (fun x hx => hcr x (by rw [List.getLast?_cons_cons]; exact hx))
      unfold physicalLines at ih ⊢
      rw [hcons, splitOn_append_newline hlcr, List.map_cons, dropCr_append_cr, ih]

theorem getLast?_foldedLines {line l : List Char} (hcr : line.getLast? ≠ some '\r')
    (hl : (foldedLines line).getLast? = some l) : l.getLast? ≠ some '\r' := by
  unfold foldedLines at hl
  have hflat := foldPieces_flatten foldLimit (le_refl line.length)
  by_cases hshort : Text.byteLen line ≤ foldLimit
  · rw [if_pos hshort, List.getLast?_singleton, Option.some_inj] at hl
    rw [← hl]
    exact hcr
  rw [if_neg hshort] at hl
  generalize foldPieces line.length foldLimit line = pieces at hl hflat
  cases pieces with
  | nil =>
    rw [List.getLast?_singleton, Option.some_inj] at hl
    rw [← hl]
    exact fun h => by cases h
  | cons p ps =>
    dsimp only at hl
    intro hlast
    refine hcr ?_
    rw [← hflat]
    rcases List.eq_nil_or_concat ps with rfl | ⟨init, q, rfl⟩
    · rw [List.map_nil, List.getLast?_singleton, Option.some_inj] at hl
      rw [List.flatten_cons, List.flatten_nil, List.append_nil, hl, hlast]
    · -- the last line is the last piece behind its space
      have hq : q.getLast? = some '\r' := by
        rw [List.concat_eq_append, List.map_append, List.map_singleton, ← List.cons_append,
          List.getLast?_concat, Option.some_inj] at hl
        rw [← hl] at hlast
        cases q with
        | nil => exact absurd hlast (by decide)
        | cons c q => rwa [List.getLast?_cons_cons] at hlast
      rw [List.concat_eq_append, ← List.cons_append, List.flatten_append, List.flatten_singleton,
        List.getLast?_append, hq]
      rfl

theorem foldedLines_ne_nil (line : List Char) : foldedLines line ≠ [] := by
  unfold foldedLines
  by_cases hshort : Text.byteLen line ≤ foldLimit
  · rw [if_pos hshort]
    exact List.cons_ne_nil _ _
  · rw [if_neg hshort]
    cases foldPieces line.length foldLimit line with
    | nil => exact List.cons_ne_nil _ _
    | cons p ps => exact List.cons_ne_nil _ _

theorem physicalLines_fold {line : List Char} (hlf : '\n' ∉ line)
    (hcr : line.getLast? ≠ some '\r') : physicalLines (fold line) = foldedLines line := by
  rw [fold_eq_intercalate]
  refine physicalLines_join (foldedLines_ne_nil line) (fun l hl hn => ?_)
    fun l hl => getLast?_foldedLines hcr hl
  rcases mem_of_mem_foldedLines hl hn with hn | hn
  · exact hlf hn
  · cases hn

theorem continuation_eq_none_of_head {line : List Char} (hspace : line.head? ≠ some ' ')
    (htab : line.head? ≠ some '\t') : continuation line = none := by
  unfold continuation
  split
  · exact absurd rfl hspace
  · exact absurd rfl htab
  · rfl

theorem unfold_fold {line : List Char} (hlf : '\n' ∉ line) (hcr : line.getLast? ≠ some '\r')
    (hhead : continuation line = none) : unfold (fold line) = [line] := by
  unfold unfold unfoldLines
  rw [physicalLines_fold hlf hcr]
  unfold foldedLines
  by_cases hshort : Text.byteLen line ≤ foldLimit
  · rw [if_pos hshort]
    exact unfoldStep_of_continuation_none hhead
  rw [if_neg hshort]
  have hflat := foldPieces_flatten foldLimit (le_refl line.length)
  cases line with
  | nil => exact absurd (Nat.zero_le _) hshort
  | cons c cs =>
    rw [List.length_cons] at hflat ⊢
    obtain ⟨p, ps, hp⟩ := foldPieces_cons cs.length foldLimit c cs
    rw [hp, List.flatten_cons] at hflat
    rw [hp]
    dsimp only
    have hp : continuation (c :: p) = none := by
      refine continuation_eq_none_of_head ?_ ?_
      · rintro ⟨⟩
        cases hhead
      · rintro ⟨⟩
        cases hhead
    rw [foldl_unfoldStep_cons hp, foldl_unfoldStep_spaced, hflat]
    rfl

theorem octets_intercalate (sep : List Char) (ls : List (List Char)) :
    octets (sep.intercalate ls) = (octets sep).intercalate (ls.map octets) := by
  induction ls with
  | nil => rfl
  | cons l ls ih =>
    cases ls with
    | nil => rw [List.intercalate_singleton, List.map_singleton, List.intercalate_singleton]
    | cons k ls =>
      simp only [List.map_cons] at ih ⊢
      rw [List.intercalate_cons_cons, octets_append, octets_append, ih,
        List.intercalate_cons_cons]

/-- Folding loses nothing: what goes out are texts of at most 75 octets, with line ends
between them, and joining them gives the line back. -/
theorem fold_lossless {line : List Char} (hlf : '\n' ∉ line) (hcr : '\r' ∉ line)
    (hspace : line.head? ≠ some ' ') (htab : line.head? ≠ some '\t') :
    foldBytes (octets line) = octets (fold line) ∧
      unfold (fold line) = [line] ∧
      foldBytes (octets line) =
        (octets "\r\n".toList).intercalate ((physicalLines (fold line)).map octets) ∧
      ∀ l ∈ physicalLines (fold line), (octets l).length ≤ 75 := by
  have hlast : line.getLast? ≠ some '\r' := fun h => hcr (List.mem_of_getLast? h)
  have hlines := physicalLines_fold hlf hlast
  refine ⟨foldBytes_octets line,
    unfold_fold hlf hlast (continuation_eq_none_of_head hspace htab), ?_, fun l hl => ?_⟩
  · rw [foldBytes_octets, hlines, fold_eq_intercalate, octets_intercalate]
  · rw [hlines] at hl
    rw [length_octets]
    exact byteLen_foldedLines_le hl

theorem fold_lossless_umlauts :
    let line := List.replicate 40 'ü'
    foldBytes (octets line) = octets (fold line) ∧
      unfold (fold line) = [line] ∧
      foldBytes (octets line) =
        (octets "\r\n".toList).intercalate ((physicalLines (fold line)).map octets) ∧
      ∀ l ∈ physicalLines (fold line), (octets l).length ≤ 75 :=
  fold_lossless (by decide) (by decide) (by decide) (by decide)

end Arlen.Calendar
