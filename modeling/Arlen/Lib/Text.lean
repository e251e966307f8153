import Mathlib.Algebra.GroupWithZero.Nat
import Mathlib.Data.List.DropRight
import Arlen.Lib.Lines

/-!
# Texts as lists of characters

The operations of `str` on texts held as lists of characters: trimming, cutting
at a character, cases, prefixes, and the slices that count octets. Trimming is
Unicode's; the two case conversions are the ASCII one and `to_uppercase`.
-/

namespace Arlen.Lib.Text

/-- `str::len`, in octets. -/
def byteLen (s : List Char) : Nat := (s.map Char.utf8Size).sum

def trimStart (s : List Char) : List Char := s.dropWhile isWhitespace

def trimEnd (s : List Char) : List Char := s.rdropWhile isWhitespace

def trim (s : List Char) : List Char := trimEnd (trimStart s)

/-- `str::trim_matches` of one character. -/
def trimMatches (c : Char) (s : List Char) : List Char :=
  (s.dropWhile (· = c)).rdropWhile (· = c)

def toAsciiUppercase (s : List Char) : List Char := s.map Char.toUpper

def eqIgnoreAsciiCase (s t : List Char) : Bool := toAsciiUppercase s == toAsciiUppercase t

/-- `str::to_uppercase`, as far as a comparison with an ASCII name can tell: the
letters whose upper case is ASCII. Every other character stays outside ASCII and
is left as it is. -/
def toUppercase (s : List Char) : List Char :=
  s.flatMap fun c =>
    match c with
    | 'ı' => ['I']
    | 'ſ' => ['S']
    | 'ß' => ['S', 'S']
    | 'ﬀ' => ['F', 'F']
    | 'ﬁ' => ['F', 'I']
    | 'ﬂ' => ['F', 'L']
    | 'ﬃ' => ['F', 'F', 'I']
    | 'ﬄ' => ['F', 'F', 'L']
    | 'ﬅ' => ['S', 'T']
    | 'ﬆ' => ['S', 'T']
    | c => [c.toUpper]

/-- `str::replace` of one character. -/
def replace (c : Char) (t s : List Char) : List Char :=
  s.flatMap fun x => if x = c then t else [x]

/-- `str::split_once`: the text before and behind the first `c`. -/
def splitOnce (c : Char) (s : List Char) : Option (List Char × List Char) :=
  match s.dropWhile (· ≠ c) with
  | [] => none
  | _ :: rest => some (s.takeWhile (· ≠ c), rest)

def stripPrefix (p s : List Char) : Option (List Char) :=
  if p.isPrefixOf s then some (s.drop p.length) else none

def stripSuffix (p s : List Char) : Option (List Char) :=
  if p.isSuffixOf s then some (s.take (s.length - p.length)) else none

/-- `str::contains`. -/
def contains (p s : List Char) : Bool := s.tails.any p.isPrefixOf

/-- The slice of the first `n` octets. There is none where the text is shorter or
the cut falls inside a character. -/
def takeBytes : List Char → Nat → Option (List Char)
  | _, 0 => some []
  | [], _ + 1 => none
  | c :: s, n + 1 =>
    if c.utf8Size ≤ n + 1 then (takeBytes s (n + 1 - c.utf8Size)).map (c :: ·) else none

/-- The slice behind the first `n` octets. -/
def dropBytes : List Char → Nat → Option (List Char)
  | s, 0 => some s
  | [], _ + 1 => none
  | c :: s, n + 1 => if c.utf8Size ≤ n + 1 then dropBytes s (n + 1 - c.utf8Size) else none

/-- `&s[i..j]`, of octets; there is none where it panics. -/
def slice (s : List Char) (i j : Nat) : Option (List Char) :=
  (dropBytes s i).bind (takeBytes · (j - i))

/-! ### Slices -/

theorem byteLen_append (s t : List Char) : byteLen (s ++ t) = byteLen s + byteLen t := by
  unfold byteLen
  rw [List.map_append, List.sum_append]

theorem length_le_byteLen (s : List Char) : s.length ≤ byteLen s := by
  induction s with
  | nil => exact Nat.le_refl 0
  | cons c s ih =>
    have := c.utf8Size_pos
    show s.length + 1 ≤ c.utf8Size + byteLen s
    omega

theorem utf8Size_of_isDigit {c : Char} (h : c.isDigit = true) : c.utf8Size = 1 := by
  simp only [Char.isDigit, Bool.and_eq_true, decide_eq_true_eq] at h
  unfold Char.utf8Size
  rw [if_pos]
  exact UInt32.le_trans h.2 (by decide)

theorem byteLen_of_digits {s : List Char} (h : ∀ c ∈ s, c.isDigit = true) :
    byteLen s = s.length := by
  unfold byteLen
  rw [List.map_congr_left fun c hc => utf8Size_of_isDigit (h c hc)]
  simp

theorem takeBytes_eq_some {s p : List Char} {n : Nat} (h : takeBytes s n = some p) :
    p <+: s ∧ byteLen p = n := by
  induction s generalizing n p with
  | nil =>
    cases n with
    | zero =>
      cases h
      exact ⟨List.nil_prefix, rfl⟩
    | succ n => cases h
  | cons c s ih =>
    cases n with
    | zero =>
      cases h
      exact ⟨List.nil_prefix, rfl⟩
    | succ n =>
      unfold takeBytes at h
      split at h
      · next hle =>
        obtain ⟨q, hq, rfl⟩ := Option.map_eq_some_iff.1 h
        obtain ⟨hpre, hlen⟩ := ih hq
        refine ⟨List.cons_prefix_cons.2 ⟨rfl, hpre⟩, ?_⟩
        show c.utf8Size + byteLen q = n + 1
        omega
      · cases h

theorem takeBytes_append (p q : List Char) : takeBytes (p ++ q) (byteLen p) = some p := by
  induction p with
  | nil => cases q <;> rfl
  | cons c p ih =>
    obtain ⟨n, hn⟩ := Nat.exists_eq_succ_of_ne_zero (Nat.pos_iff_ne_zero.1 c.utf8Size_pos)
    have hlen : byteLen (c :: p) = n + byteLen p + 1 := by
      show c.utf8Size + byteLen p = _
      omega
    have hrest : n + byteLen p + 1 - c.utf8Size = byteLen p := by omega
    rw [hlen, List.cons_append]
    unfold takeBytes
    rw [if_pos (by omega), hrest, ih]
    rfl

theorem dropBytes_append (p q : List Char) : dropBytes (p ++ q) (byteLen p) = some q := by
  induction p with
  | nil => cases q <;> rfl
  | cons c p ih =>
    obtain ⟨n, hn⟩ := Nat.exists_eq_succ_of_ne_zero (Nat.pos_iff_ne_zero.1 c.utf8Size_pos)
    have hlen : byteLen (c :: p) = n + byteLen p + 1 := by
      show c.utf8Size + byteLen p = _
      omega
    have hrest : n + byteLen p + 1 - c.utf8Size = byteLen p := by omega
    rw [hlen, List.cons_append]
    unfold dropBytes
    rw [if_pos (by omega), hrest, ih]

/-- A slice whose ends lie between characters. -/
theorem slice_eq_some {s pre mid post : List Char} {i j : Nat} (hs : s = pre ++ (mid ++ post))
    (hi : byteLen pre = i) (hj : i + byteLen mid = j) : slice s i j = some mid := by
  unfold slice
  rw [hs, ← hi, dropBytes_append, Option.bind_some, ← hj, hi, Nat.add_sub_cancel_left,
    takeBytes_append]

theorem byteLen_of_slice {s t : List Char} {i j : Nat} (h : slice s i j = some t) :
    byteLen t = j - i := by
  unfold slice at h
  obtain ⟨u, -, hu⟩ := Option.bind_eq_some_iff.1 h
  exact (takeBytes_eq_some hu).2

/-! ### Trimming -/

variable {c : Char} {s t p : List Char}

theorem trimStart_cons (h : isWhitespace c = false) : trimStart (c :: s) = c :: s := by
  unfold trimStart
  rw [List.dropWhile_cons_of_neg (by simp [h])]

theorem trimEnd_append (h : t ≠ []) (hlast : ∀ h, isWhitespace (t.getLast h) = false) :
    trimEnd (s ++ t) = s ++ t := by
  unfold trimEnd
  rw [List.rdropWhile_eq_self_iff]
  intro _
  rw [List.getLast_append_of_ne_nil _ h]
  simp [hlast h]

/-- What is trimmed off the end of a text that follows a solid character. -/
theorem trimEnd_append_cons (h : isWhitespace c = false) :
    trimEnd (s ++ c :: t) = s ++ c :: trimEnd t := by
  unfold trimEnd List.rdropWhile
  rw [List.reverse_append, List.reverse_cons, List.append_assoc]
  by_cases hall : ∀ x ∈ t.reverse, isWhitespace x = true
  · rw [List.dropWhile_append_of_pos hall, List.dropWhile_eq_nil_iff.2 hall]
    simp [List.dropWhile_cons_of_neg, h]
  · have hne : t.reverse.dropWhile isWhitespace ≠ [] := fun heq =>
      hall (List.dropWhile_eq_nil_iff.1 heq)
    rw [List.dropWhile_append]
    simp [hne]

@[simp] theorem trimEnd_nil : trimEnd [] = [] := rfl

theorem trimEnd_cons (h : isWhitespace c = false) : trimEnd (c :: t) = c :: trimEnd t :=
  trimEnd_append_cons (s := []) h

/-- A text that begins with a solid character loses only its trailing white space. -/
theorem trim_cons (h : isWhitespace c = false) : trim (c :: t) = c :: trimEnd t := by
  unfold trim
  rw [trimStart_cons h, trimEnd_cons h]

theorem trimEnd_of_trim_eq_self (h : trim s = s) : trimEnd s = s := by
  unfold trim trimEnd at *
  rw [← h, List.rdropWhile_idempotent]

/-! ### Cutting -/

theorem splitOnce_eq_some {a b : List Char} :
    splitOnce c s = some (a, b) ↔ s = a ++ c :: b ∧ c ∉ a := by
  unfold splitOnce
  constructor
  · intro h
    split at h
    · cases h
    · next d rest hd =>
      simp only [Option.some.injEq, Prod.mk.injEq] at h
      obtain ⟨rfl, rfl⟩ := h
      have hhead : d = c := by
        have hmem := List.head?_dropWhile_not (· ≠ c) s
        rw [hd] at hmem
        simpa using hmem
      refine ⟨?_, ?_⟩
      · rw [← hhead, ← hd, hhead, List.takeWhile_append_dropWhile]
      · intro hc
        have hall := List.all_eq_true.1 (List.all_takeWhile (p := (· ≠ c)) (l := s)) c hc
        simp at hall
  · rintro ⟨rfl, hc⟩
    have hall : ∀ x ∈ a, decide (x ≠ c) = true := by
      intro x hx
      refine decide_eq_true ?_
      rintro rfl
      exact hc hx
    rw [List.dropWhile_append_of_pos hall, List.takeWhile_append_of_pos hall]
    simp

theorem splitOnce_eq_none : splitOnce c s = none ↔ c ∉ s := by
  unfold splitOnce
  cases h : s.dropWhile (· ≠ c) with
  | nil =>
    rw [List.dropWhile_eq_nil_iff] at h
    exact iff_of_true rfl fun hm => by simpa using h c hm
  | cons x rest =>
    refine iff_of_false nofun fun hno => ?_
    have hnil : s.dropWhile (· ≠ c) = [] := by
      rw [List.dropWhile_eq_nil_iff]
      intro y hy
      refine decide_eq_true ?_
      rintro rfl
      exact hno hy
    cases h.symm.trans hnil

theorem stripPrefix_append (p s : List Char) : stripPrefix p (p ++ s) = some s := by
  unfold stripPrefix
  rw [if_pos (List.isPrefixOf_iff_prefix.2 (List.prefix_append p s)), List.drop_left]

theorem stripPrefix_eq_some {r : List Char} : stripPrefix p s = some r ↔ s = p ++ r := by
  constructor
  · unfold stripPrefix
    intro h
    split at h
    · next hp =>
      obtain ⟨r', rfl⟩ := List.isPrefixOf_iff_prefix.1 hp
      rw [List.drop_left] at h
      rw [Option.some.inj h]
    · cases h
  · rintro rfl
    exact stripPrefix_append p r

/-- The pieces between separators hold none. -/
theorem not_mem_of_mem_splitOn {α : Type*} [DecidableEq α] {c : α} {s t : List α}
    (h : t ∈ s.splitOn c) : c ∉ t := by
  induction s generalizing t with
  | nil =>
    rw [List.splitOn_nil, List.mem_singleton] at h
    rw [h]
    exact List.not_mem_nil
  | cons x s ih =>
    rw [List.splitOn_cons_eq_if_modifyHead] at h
    split at h
    · rcases List.mem_cons.1 h with rfl | h
      · exact List.not_mem_nil
      · exact ih h
    · next hx =>
      cases hs : s.splitOn c with
      | nil => exact absurd hs (List.splitOn_ne_nil c s)
      | cons piece pieces =>
        rw [hs, List.modifyHead_cons] at h
        rcases List.mem_cons.1 h with rfl | h
        · intro hm
          rcases List.mem_cons.1 hm with rfl | hm
          · exact hx (beq_self_eq_true c)
          · exact ih (by rw [hs]; exact List.mem_cons_self) hm
        · exact ih (by rw [hs]; exact List.mem_cons_of_mem _ h)

/-- The pieces are made of the text's characters. -/
theorem mem_of_mem_splitOn {x : Char} (h : t ∈ s.splitOn c) (hx : x ∈ t) : x ∈ s := by
  induction s generalizing t with
  | nil =>
    rw [List.splitOn_nil, List.mem_singleton] at h
    rw [h] at hx
    exact hx
  | cons y s ih =>
    rw [List.splitOn_cons_eq_if_modifyHead] at h
    split at h
    · rcases List.mem_cons.1 h with rfl | h
      · cases hx
      · exact List.mem_cons_of_mem _ (ih h hx)
    · cases hs : s.splitOn c with
      | nil => exact absurd hs (List.splitOn_ne_nil c s)
      | cons piece pieces =>
        rw [hs, List.modifyHead_cons] at h
        rcases List.mem_cons.1 h with rfl | h
        · rcases List.mem_cons.1 hx with rfl | hx
          · exact List.mem_cons_self
          · exact List.mem_cons_of_mem _ (ih (by rw [hs]; exact List.mem_cons_self) hx)
        · exact List.mem_cons_of_mem _ (ih (by rw [hs]; exact List.mem_cons_of_mem _ h) hx)

/-- A text without white space keeps its ends. -/
theorem trimEnd_of_solid (h : ∀ x ∈ s, isWhitespace x = false) : trimEnd s = s := by
  unfold trimEnd
  rw [List.rdropWhile_eq_self_iff]
  intro hne
  simp [h _ (List.getLast_mem hne)]

theorem trim_of_solid (h : ∀ x ∈ s, isWhitespace x = false) : trim s = s := by
  cases s with
  | nil => rfl
  | cons c s =>
    rw [trim_cons (h c List.mem_cons_self),
      trimEnd_of_solid fun x hx => h x (List.mem_cons_of_mem _ hx)]

end Arlen.Lib.Text
