import Arlen.Lib.Bytes
import Arlen.Lib.Text

/-!
# Compact JSON

What `serde_json::to_string` writes: strings with their escapes, integers, lists and
objects without white space. A printer is `SelfDelimiting` when its texts can be
told from what follows them; then printing is injective, and so is printing a
list, or one value behind another.
-/

namespace Arlen.Lib.Json

variable {α β : Type*}

/-- A text of the printer can be told from what follows it. -/
def SelfDelimiting (print : α → List Char) : Prop :=
  ∀ ⦃a b r s⦄, print a ++ r = print b ++ s → a = b ∧ r = s

theorem SelfDelimiting.injective {print : α → List Char} (h : SelfDelimiting print) {a b : α}
    (hab : print a = print b) : a = b := by
  have happ : print a ++ [] = print b ++ [] := by rw [hab]
  exact (h happ).1

/-! ## Strings -/

/-- One character of a string. -/
def escapeChar (c : Char) : List Char :=
  if c = '"' then ['\\', '"']
  else if c = '\\' then ['\\', '\\']
  else if 32 ≤ c.toNat then [c]
  else if c.toNat = 8 then ['\\', 'b']
  else if c.toNat = 9 then ['\\', 't']
  else if c.toNat = 10 then ['\\', 'n']
  else if c.toNat = 12 then ['\\', 'f']
  else if c.toNat = 13 then ['\\', 'r']
  else ['\\', 'u', '0', '0', hexDigit (c.toNat / 16), hexDigit (c.toNat % 16)]

def printString (s : String) : List Char := '"' :: s.toList.flatMap escapeChar ++ ['"']

/-- A lower-case hex digit read back. -/
def hexDigitValue (c : Char) : Nat := if c.toNat < 58 then c.toNat - 48 else c.toNat - 87

/-- The first character of a string's text and what follows it; none at its end. -/
def unescape : List Char → Option (Char × List Char)
  | '\\' :: 'u' :: _ :: _ :: high :: low :: rest =>
    some (Char.ofNat (16 * hexDigitValue high + hexDigitValue low), rest)
  | '\\' :: 'b' :: rest => some (Char.ofNat 8, rest)
  | '\\' :: 't' :: rest => some (Char.ofNat 9, rest)
  | '\\' :: 'n' :: rest => some (Char.ofNat 10, rest)
  | '\\' :: 'f' :: rest => some (Char.ofNat 12, rest)
  | '\\' :: 'r' :: rest => some (Char.ofNat 13, rest)
  | '\\' :: c :: rest => some (c, rest)
  | '"' :: _ => none
  | c :: rest => some (c, rest)
  | [] => none

theorem hexDigitValue_hexDigit {n : Nat} (h : n < 16) : hexDigitValue (hexDigit n) = n := by
  have hall : ∀ n < 16, hexDigitValue (hexDigit n) = n := by decide
  exact hall n h

theorem hexDigit_inj {n m : Nat} (hn : n < 16) (hm : m < 16) (h : hexDigit n = hexDigit m) :
    n = m := by
  rw [← hexDigitValue_hexDigit hn, h, hexDigitValue_hexDigit hm]

theorem hex_inj {b c : Bytes} (h : hex b = hex c) : b = c := by
  have hlist := String.ofList_injective h
  clear h
  induction b generalizing c with
  | nil =>
    cases c with
    | nil => rfl
    | cons y c => cases hlist
  | cons x b ih =>
    cases c with
    | nil => cases hlist
    | cons y c =>
      have hx := x.toNat_lt
      have hy := y.toNat_lt
      simp only [List.flatMap_cons, List.cons_append, List.nil_append, List.cons.injEq] at hlist
      obtain ⟨hhigh, hlow, hlist⟩ := hlist
      have hdiv := hexDigit_inj (by omega) (by omega) hhigh
      have hmod := hexDigit_inj (by omega) (by omega) hlow
      have hxy : x = y := UInt8.toNat_inj.1 (by omega)
      rw [hxy, ih hlist]

theorem unescape_escapeChar (c : Char) (rest : List Char) :
    unescape (escapeChar c ++ rest) = some (c, rest) := by
  have hofNat : ∀ n, c.toNat = n → Char.ofNat n = c := by
    rintro n rfl
    exact Char.ofNat_toNat c
  unfold escapeChar
  split_ifs with h₁ h₂ h₃ h₄ h₅ h₆ h₇ h₈
  · rw [h₁]
    rfl
  · rw [h₂]
    rfl
  · unfold unescape
    split
    all_goals simp_all
  · rw [← hofNat _ h₄]
    rfl
  · rw [← hofNat _ h₅]
    rfl
  · rw [← hofNat _ h₆]
    rfl
  · rw [← hofNat _ h₇]
    rfl
  · rw [← hofNat _ h₈]
    rfl
  · have hu : unescape ('\\' :: 'u' :: '0' :: '0' :: hexDigit (c.toNat / 16) ::
        hexDigit (c.toNat % 16) :: rest) = some (Char.ofNat (16 * hexDigitValue
          (hexDigit (c.toNat / 16)) + hexDigitValue (hexDigit (c.toNat % 16))), rest) := rfl
    refine hu.trans ?_
    rw [hexDigitValue_hexDigit (by omega), hexDigitValue_hexDigit (by omega), Nat.div_add_mod,
      Char.ofNat_toNat]

theorem escaped_inj {cs ds r s : List Char}
    (h : cs.flatMap escapeChar ++ '"' :: r = ds.flatMap escapeChar ++ '"' :: s) :
    cs = ds ∧ r = s := by
  have hend : ∀ rest, unescape ('"' :: rest) = none := fun _ => rfl
  induction cs generalizing ds with
  | nil =>
    cases ds with
    | nil => exact ⟨rfl, List.tail_eq_of_cons_eq h⟩
    | cons d ds =>
      have hu := congrArg unescape h
      rw [List.flatMap_nil, List.nil_append, List.flatMap_cons, List.append_assoc,
        unescape_escapeChar, hend] at hu
      cases hu
  | cons c cs ih =>
    cases ds with
    | nil =>
      have hu := congrArg unescape h
      rw [List.flatMap_nil, List.nil_append, List.flatMap_cons, List.append_assoc,
        unescape_escapeChar, hend] at hu
      cases hu
    | cons d ds =>
      have hu := congrArg unescape h
      rw [List.flatMap_cons, List.flatMap_cons, List.append_assoc, List.append_assoc,
        unescape_escapeChar, unescape_escapeChar, Option.some.injEq, Prod.mk.injEq] at hu
      obtain ⟨rfl, hrest⟩ := hu
      obtain ⟨rfl, hr⟩ := ih hrest
      exact ⟨rfl, hr⟩

theorem selfDelimiting_printString : SelfDelimiting printString := by
  intro a b r s h
  unfold printString at h
  simp only [List.cons_append, List.append_assoc, List.nil_append, List.cons.injEq,
    true_and] at h
  obtain ⟨hab, hr⟩ := escaped_inj h
  exact ⟨String.toList_injective hab, hr⟩

/-- Read a string up to its closing quote, with what follows, in at most `n` characters. -/
def readChars : Nat → List Char → Option (List Char × List Char)
  | 0, _ => none
  | n + 1, s =>
    match unescape s with
    | some (c, rest) => (readChars n rest).map fun r => (c :: r.1, r.2)
    | none =>
      match s with
      | '"' :: rest => some ([], rest)
      | _ => none

/-- A string and what follows it. -/
def readString : List Char → Option (String × List Char)
  | '"' :: s => (readChars s.length s).map fun r => (String.ofList r.1, r.2)
  | _ => none

theorem one_le_length_escapeChar (c : Char) : 1 ≤ (escapeChar c).length := by
  unfold escapeChar
  repeat' split
  all_goals exact Nat.succ_le_succ (Nat.zero_le _)

theorem readChars_escaped (cs rest : List Char) {n : Nat} (h : cs.length < n) :
    readChars n (cs.flatMap escapeChar ++ '"' :: rest) = some (cs, rest) := by
  induction cs generalizing n with
  | nil =>
    obtain ⟨n, rfl⟩ := Nat.exists_eq_succ_of_ne_zero (Nat.ne_zero_of_lt h)
    rfl
  | cons c cs ih =>
    obtain ⟨n, rfl⟩ := Nat.exists_eq_succ_of_ne_zero (Nat.ne_zero_of_lt h)
    rw [List.flatMap_cons, List.append_assoc]
    unfold readChars
    rw [unescape_escapeChar]
    simp only
    rw [ih (Nat.lt_of_succ_lt_succ h), Option.map_some]

/-- What is printed is read back. -/
theorem readString_printString (s : String) (rest : List Char) :
    readString (printString s ++ rest) = some (s, rest) := by
  have hlen : ∀ cs : List Char, cs.length ≤ (cs.flatMap escapeChar).length := by
    intro cs
    induction cs with
    | nil => exact Nat.le_refl 0
    | cons c cs ih =>
      have := one_le_length_escapeChar c
      rw [List.flatMap_cons, List.length_append, List.length_cons]
      omega
  unfold printString
  rw [List.cons_append, List.cons_append, List.append_assoc, List.singleton_append]
  unfold readString
  simp only
  rw [readChars_escaped s.toList rest, Option.map_some, String.ofList_toList]
  have := hlen s.toList
  rw [List.length_append, List.length_cons]
  omega

/-! ## Integers -/

/-- An integer and the brace that ends its object. -/
def printIntThenBrace (i : Int) : List Char := (toString i).toList ++ ['\x7d']

theorem toDigits_inj {n m : Nat} (h : Nat.toDigits 10 n = Nat.toDigits 10 m) : n = m := by
  have hn := Nat.ofDigitChars_toDigits (n := n) (by decide : 1 < 10) (Nat.le_refl 10)
  rw [h, Nat.ofDigitChars_toDigits (by decide) (Nat.le_refl 10)] at hn
  exact hn.symm

theorem toList_toString_int (i : Int) : (toString i).toList =
    if i < 0 then '-' :: Nat.toDigits 10 i.natAbs else Nat.toDigits 10 i.natAbs := by
  rw [Int.toString_eq_repr, Int.repr_eq_if]
  by_cases h : 0 ≤ i
  · have habs : i.toNat = i.natAbs := by omega
    rw [if_pos h, if_neg (by omega), Nat.toList_repr, habs]
  · have habs : (-i).toNat = i.natAbs := by omega
    rw [if_neg h, if_pos (by omega), String.toList_append, Nat.toList_repr, habs]
    rfl

theorem toString_int_inj {i j : Int} (h : (toString i).toList = (toString j).toList) : i = j := by
  have hdash : ∀ n, '-' ∉ Nat.toDigits 10 n := fun n hm =>
    absurd (Nat.isDigit_of_mem_toDigits (by decide) (Nat.le_refl 10) hm) (by decide)
  rw [toList_toString_int, toList_toString_int] at h
  split_ifs at h with hi hj hj
  · have habs := toDigits_inj (List.cons.inj h).2
    omega
  · exact absurd (h ▸ List.mem_cons_self) (hdash _)
  · exact absurd (h ▸ List.mem_cons_self) (hdash _)
  · have habs := toDigits_inj h
    omega

theorem brace_not_mem (i : Int) : '\x7d' ∉ (toString i).toList := by
  intro hm
  have hdigit : ∀ n, '\x7d' ∉ Nat.toDigits 10 n := fun n hm =>
    absurd (Nat.isDigit_of_mem_toDigits (by decide) (Nat.le_refl 10) hm) (by decide)
  rw [toList_toString_int] at hm
  split at hm
  · rcases List.mem_cons.1 hm with h | h
    · cases h
    · exact hdigit _ h
  · exact hdigit _ hm

theorem selfDelimiting_printIntThenBrace : SelfDelimiting printIntThenBrace := by
  intro a b r s h
  simp only [printIntThenBrace, List.append_assoc, List.singleton_append] at h
  have ha := (Text.splitOnce_eq_some (b := r)).2 ⟨rfl, brace_not_mem a⟩
  have hb := (Text.splitOnce_eq_some (b := s)).2 ⟨rfl, brace_not_mem b⟩
  rw [h, hb, Option.some.injEq, Prod.mk.injEq] at ha
  exact ⟨(toString_int_inj ha.1).symm, ha.2.symm⟩

/-- An integer and the comma or brace that comes after it. -/
def printIntThen (stop : Char) (i : Int) : List Char := (toString i).toList ++ [stop]

theorem not_mem_toString_int {c : Char} (hdigit : c.isDigit = false) (hdash : c ≠ '-') (i : Int) :
    c ∉ (toString i).toList := by
  intro hm
  have hno : ∀ n, c ∉ Nat.toDigits 10 n := fun n hm =>
    absurd (Nat.isDigit_of_mem_toDigits (by decide) (Nat.le_refl 10) hm) (ne_true_of_eq_false hdigit)
  rw [toList_toString_int] at hm
  split at hm
  · exact (List.mem_cons.1 hm).elim hdash (hno _)
  · exact hno _ hm

theorem selfDelimiting_printIntThen {stop : Char} (hdigit : stop.isDigit = false)
    (hdash : stop ≠ '-') : SelfDelimiting (printIntThen stop) := by
  intro a b r s h
  simp only [printIntThen, List.append_assoc, List.singleton_append] at h
  have ha := (Text.splitOnce_eq_some (b := r)).2 ⟨rfl, not_mem_toString_int hdigit hdash a⟩
  have hb := (Text.splitOnce_eq_some (b := s)).2 ⟨rfl, not_mem_toString_int hdigit hdash b⟩
  rw [h, hb, Option.some.injEq, Prod.mk.injEq] at ha
  exact ⟨(toString_int_inj ha.1).symm, ha.2.symm⟩

/-! ## Lists -/

/-- The elements behind the first, each with its comma, and the closing bracket. -/
def printTail (close : Char) (print : α → List Char) : List α → List Char
  | [] => [close]
  | a :: l => ',' :: print a ++ printTail close print l

/-- A list between brackets, with commas between its elements. -/
def printList (opening close : Char) (print : α → List Char) : List α → List Char
  | [] => [opening, close]
  | a :: l => opening :: print a ++ printTail close print l

theorem selfDelimiting_printTail {close : Char} {print : α → List Char} (hclose : close ≠ ',')
    (h : SelfDelimiting print) : SelfDelimiting (printTail close print) := by
  intro l m r s hlm
  induction l generalizing m with
  | nil =>
    cases m with
    | nil => exact ⟨rfl, List.tail_eq_of_cons_eq hlm⟩
    | cons b m => exact absurd (List.head_eq_of_cons_eq hlm) hclose
  | cons a l ih =>
    cases m with
    | nil => exact absurd (List.head_eq_of_cons_eq hlm).symm hclose
    | cons b m =>
      simp only [printTail, List.cons_append, List.append_assoc, List.cons.injEq, true_and] at hlm
      obtain ⟨rfl, hrest⟩ := h hlm
      obtain ⟨rfl, hr⟩ := ih hrest
      exact ⟨rfl, hr⟩

/-- A list of values none of whose texts begins with the closing bracket. -/
theorem selfDelimiting_printList {opening close : Char} {print : α → List Char}
    (hclose : close ≠ ',') (hhead : ∀ a, ∃ c t, print a = c :: t ∧ c ≠ close)
    (h : SelfDelimiting print) : SelfDelimiting (printList opening close print) := by
  have hfirst : ∀ a rest t, print a ++ rest ≠ close :: t := by
    intro a rest t heq
    obtain ⟨c, p, hp, hc⟩ := hhead a
    rw [hp, List.cons_append] at heq
    exact hc (List.cons.inj heq).1
  intro l m r s hlm
  cases l with
  | nil =>
    cases m with
    | nil =>
      simp only [printList, List.cons_append, List.nil_append, List.cons.injEq, true_and] at hlm
      exact ⟨rfl, hlm⟩
    | cons b m =>
      simp only [printList, List.cons_append, List.nil_append, List.append_assoc,
        List.cons.injEq, true_and] at hlm
      exact absurd hlm.symm (hfirst b _ _)
  | cons a l =>
    cases m with
    | nil =>
      simp only [printList, List.cons_append, List.nil_append, List.append_assoc,
        List.cons.injEq, true_and] at hlm
      exact absurd hlm (hfirst a _ _)
    | cons b m =>
      simp only [printList, List.cons_append, List.append_assoc, List.cons.injEq, true_and] at hlm
      obtain ⟨rfl, hrest⟩ := h hlm
      obtain ⟨rfl, hr⟩ := selfDelimiting_printTail hclose h hrest
      exact ⟨rfl, hr⟩

/-! ## Values behind each other -/

/-- One value behind another, with a fixed text before, between and behind them. -/
def printPair (before between behind : String) (print : α → List Char)
    (print' : β → List Char) (p : α × β) : List Char :=
  before.toList ++ (print p.1 ++ (between.toList ++ (print' p.2 ++ behind.toList)))

theorem selfDelimiting_printPair {print : α → List Char} {print' : β → List Char}
    (before between behind : String) (h : SelfDelimiting print) (h' : SelfDelimiting print') :
    SelfDelimiting (printPair before between behind print print') := by
  rintro ⟨a, b⟩ ⟨a', b'⟩ r s heq
  simp only [printPair, List.append_assoc] at heq
  obtain ⟨rfl, hrest⟩ := h (List.append_cancel_left heq)
  obtain ⟨rfl, hrest'⟩ := h' (List.append_cancel_left hrest)
  exact ⟨rfl, List.append_cancel_left hrest'⟩

theorem SelfDelimiting.comp {print : α → List Char} {f : β → α} (h : SelfDelimiting print)
    (hf : Function.Injective f) : SelfDelimiting (print ∘ f) := by
  intro a b r s heq
  obtain ⟨hab, hr⟩ := h heq
  exact ⟨hf hab, hr⟩

/-- A variant with a payload: an object of one field. The payload's text ends with
the closing brace. -/
def printVariant (name : String) (payload : List Char) : List Char :=
  '\x7b' :: (printString name ++ ':' :: payload)

theorem printVariant_inj {name name' : String} {payload payload' r s : List Char}
    (h : printVariant name payload ++ r = printVariant name' payload' ++ s) :
    name = name' ∧ payload ++ r = payload' ++ s := by
  simp only [printVariant, List.cons_append, List.append_assoc, List.cons.injEq, true_and] at h
  obtain ⟨rfl, hrest⟩ := selfDelimiting_printString h
  exact ⟨rfl, (List.cons.inj hrest).2⟩

end Arlen.Lib.Json
