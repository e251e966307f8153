import Arlen.Lib.Bytes

/-!
# UTF-8

The bytes of a string, character by character: one byte below `0x80` for an
ASCII character, and only bytes from `0x80` on for any other. A byte string
below `0x80` is therefore text, and a byte scanner that looks for ASCII bytes
never finds one inside a longer character.
-/

namespace Arlen.Lib

/-- The text of a byte string, if it is UTF-8. -/
def decodeUtf8 (b : Bytes) : Option String := String.fromUTF8? ⟨b.toArray⟩

@[simp] theorem decodeUtf8_utf8 (s : String) : decodeUtf8 (utf8 s) = some s := by
  simp [decodeUtf8, utf8, String.fromUTF8?, s.isValidUTF8, String.fromUTF8]

theorem utf8_of_decodeUtf8 {b : Bytes} {s : String} (h : decodeUtf8 b = some s) : utf8 s = b := by
  unfold decodeUtf8 String.fromUTF8? at h
  split at h
  · obtain rfl := Option.some.inj h
    simp [utf8, String.fromUTF8]
  · cases h

@[simp] theorem utf8_append (s t : String) : utf8 (s ++ t) = utf8 s ++ utf8 t := by
  simp [utf8]

theorem utf8_inj {s t : String} (h : utf8 s = utf8 t) : s = t := by
  have := congrArg decodeUtf8 h
  simpa using this

theorem utf8_ofList (cs : List Char) :
    utf8 (String.ofList cs) = cs.flatMap String.utf8EncodeChar := by
  simp [utf8, String.toUTF8, List.utf8Encode]

theorem utf8_eq_flatMap (s : String) : utf8 s = s.toList.flatMap String.utf8EncodeChar := by
  rw [← utf8_ofList, String.ofList_toList]

theorem utf8_join (l : List String) : utf8 (String.join l) = l.flatMap utf8 := by
  rw [utf8_eq_flatMap, String.toList_join, List.flatMap_assoc]
  exact List.flatMap_congr fun s _ => (utf8_eq_flatMap s).symm

theorem utf8_intercalate (sep : String) (l : List String) :
    utf8 (String.intercalate sep l) = (utf8 sep).intercalate (l.map utf8) := by
  induction l with
  | nil => simp [utf8]
  | cons s l ih =>
    cases l with
    | nil => simp
    | cons t l =>
      simp only [String.intercalate_cons_cons, utf8_append, ih, List.map_cons,
        List.intercalate_cons_cons]

/-! ## ASCII -/

theorem utf8EncodeChar_ascii {c : Char} (h : c.toNat < 128) :
    String.utf8EncodeChar c = [UInt8.ofNat c.toNat] := by
  have hle : c.val.toNat ≤ 127 := Nat.le_of_lt_succ h
  simp only [String.utf8EncodeChar, hle, ↓reduceIte]
  rfl

/-- Every byte of a character outside ASCII is at least `0x80`. -/
theorem le_of_mem_utf8EncodeChar {c : Char} (h : 128 ≤ c.toNat) {b : UInt8}
    (hb : b ∈ String.utf8EncodeChar c) : 128 ≤ b.toNat := by
  have hgt : ¬ c.val.toNat ≤ 127 := Nat.not_le_of_lt h
  simp only [String.utf8EncodeChar, hgt, ↓reduceIte] at hb
  split at hb
  · simp only [List.mem_cons, List.not_mem_nil, or_false] at hb
    rcases hb with rfl | rfl <;> simp [UInt8.toNat_ofNat'] <;> omega
  split at hb
  · simp only [List.mem_cons, List.not_mem_nil, or_false] at hb
    rcases hb with rfl | rfl | rfl <;> simp [UInt8.toNat_ofNat'] <;> omega
  · simp only [List.mem_cons, List.not_mem_nil, or_false] at hb
    rcases hb with rfl | rfl | rfl | rfl <;> simp [UInt8.toNat_ofNat'] <;> omega

/-- An ASCII byte occurs in the encoding of its own character only. -/
theorem ne_of_mem_utf8EncodeChar {c : Char} {n : Nat} (hn : n < 128) (hc : c ≠ Char.ofNat n)
    {b : UInt8} (hb : b ∈ String.utf8EncodeChar c) : b ≠ UInt8.ofNat n := by
  rintro rfl
  by_cases hascii : c.toNat < 128
  · rw [utf8EncodeChar_ascii hascii, List.mem_singleton] at hb
    have hnat := congrArg UInt8.toNat hb
    rw [UInt8.toNat_ofNat', UInt8.toNat_ofNat', Nat.mod_eq_of_lt (by omega),
      Nat.mod_eq_of_lt (by omega)] at hnat
    exact hc (by rw [hnat, Char.ofNat_toNat])
  · have hhigh := le_of_mem_utf8EncodeChar (Nat.le_of_not_lt hascii) hb
    rw [UInt8.toNat_ofNat', Nat.mod_eq_of_lt (by omega)] at hhigh
    omega

/-- A text of ASCII characters is one byte for each. -/
theorem utf8_of_ascii {s : String} (h : ∀ c ∈ s.toList, c.toNat < 128) :
    utf8 s = s.toList.map fun c => UInt8.ofNat c.toNat := by
  rw [utf8_eq_flatMap]
  generalize s.toList = cs at h ⊢
  induction cs with
  | nil => rfl
  | cons c cs ih =>
    rw [List.flatMap_cons, utf8EncodeChar_ascii (h c List.mem_cons_self),
      ih fun c' hm => h c' (List.mem_cons_of_mem _ hm)]
    rfl

/-- Bytes below `0x80` are the UTF-8 of a text. -/
theorem exists_utf8_of_ascii {b : Bytes} (h : ∀ x ∈ b, x.toNat < 128) : ∃ s, utf8 s = b := by
  refine ⟨String.ofList (b.map Char.ofUInt8), ?_⟩
  have hascii : ∀ c ∈ (String.ofList (b.map Char.ofUInt8)).toList, c.toNat < 128 := by
    intro c hc
    simp only [String.toList_ofList, List.mem_map] at hc
    obtain ⟨x, hx, rfl⟩ := hc
    exact h x hx
  rw [utf8_of_ascii hascii, String.toList_ofList, List.map_map]
  have hid : (fun c => UInt8.ofNat c.toNat) ∘ Char.ofUInt8 = id := by
    funext x
    exact UInt8.ofNat_toNat
  rw [hid, List.map_id]

/-! ## Lossy decoding -/

/-- A byte that continues a character. -/
def isContinuation (b : UInt8) : Bool := 0x80 ≤ b && b ≤ 0xbf

/-- The second bytes a first byte of three or four allows: no overlong form, no
surrogate, nothing past the last code point. -/
def secondInRange (b second : UInt8) : Bool :=
  if b = 0xe0 then 0xa0 ≤ second && second ≤ 0xbf
  else if b = 0xed then 0x80 ≤ second && second ≤ 0x9f
  else if b = 0xf0 then 0x90 ≤ second && second ≤ 0xbf
  else if b = 0xf4 then 0x80 ≤ second && second ≤ 0x8f
  else isContinuation second

/-- The bytes a first byte outside ASCII announces, 0 where it starts no character. -/
def utf8Width (b : UInt8) : Nat :=
  if 0xc2 ≤ b && b ≤ 0xdf then 2
  else if 0xe0 ≤ b && b ≤ 0xef then 3
  else if 0xf0 ≤ b && b ≤ 0xf4 then 4
  else 0

/-- The replacement character. -/
def replacementChar : Char := Char.ofNat 0xfffd

/-- The low six bits of a continuation byte, behind the bits read so far. -/
def addContinuation (n : Nat) (b : UInt8) : Nat := 64 * n + b.toNat % 64

/-- The character at the head of a byte string and the bytes behind it. What begins
a character and breaks off is one replacement character. -/
def lossyStep (b : UInt8) (rest : Bytes) : Char × Bytes :=
  if b < 0x80 then (Char.ofNat b.toNat, rest) else
  match utf8Width b, rest with
  | 2, second :: rest =>
    if isContinuation second then (Char.ofNat (addContinuation (b.toNat % 32) second), rest)
    else (replacementChar, second :: rest)
  | 3, second :: third :: rest =>
    if secondInRange b second then
      if isContinuation third then
        (Char.ofNat (addContinuation (addContinuation (b.toNat % 16) second) third), rest)
      else (replacementChar, third :: rest)
    else (replacementChar, second :: third :: rest)
  | 4, second :: third :: fourth :: rest =>
    if secondInRange b second then
      if isContinuation third then
        if isContinuation fourth then
          (Char.ofNat (addContinuation
            (addContinuation (addContinuation (b.toNat % 8) second) third) fourth), rest)
        else (replacementChar, fourth :: rest)
      else (replacementChar, third :: fourth :: rest)
    else (replacementChar, second :: third :: fourth :: rest)
  | 3, [second] => (replacementChar, if secondInRange b second then [] else [second])
  | 4, [second] => (replacementChar, if secondInRange b second then [] else [second])
  | 4, [second, third] =>
    (replacementChar,
      if secondInRange b second then if isContinuation third then [] else [third]
      else [second, third])
  | _, rest => (replacementChar, rest)

/-- Decode with as many steps as there are bytes. -/
def lossyChars : Nat → Bytes → List Char
  | 0, _ => []
  | _ + 1, [] => []
  | fuel + 1, b :: rest => (lossyStep b rest).1 :: lossyChars fuel (lossyStep b rest).2

/-- `String::from_utf8_lossy`. -/
def fromUtf8Lossy (b : Bytes) : String := String.ofList (lossyChars b.length b)

example : fromUtf8Lossy [0x61, 0xe2, 0x82, 0xac, 0xc3, 0x28] = "a€\uFFFD(" := by decide

theorem lossyStep_ascii {b : UInt8} (h : b.toNat < 128) (rest : Bytes) :
    lossyStep b rest = (Char.ofNat b.toNat, rest) := by
  have hlt : b < 0x80 := UInt8.lt_iff_toNat_lt.2 h
  exact if_pos hlt

/-- ASCII bytes decode to their characters. -/
theorem lossyChars_ascii {b : Bytes} (h : ∀ x ∈ b, x.toNat < 128) :
    lossyChars b.length b = b.map fun x => Char.ofNat x.toNat := by
  induction b with
  | nil => rfl
  | cons x b ih =>
    rw [List.length_cons, lossyChars, lossyStep_ascii (h x List.mem_cons_self),
      ih fun y hy => h y (List.mem_cons_of_mem _ hy)]
    rfl

/-- A text of ASCII characters survives its bytes. -/
theorem fromUtf8Lossy_utf8 {s : String} (h : ∀ c ∈ s.toList, c.toNat < 128) :
    fromUtf8Lossy (utf8 s) = s := by
  have hb : ∀ x ∈ utf8 s, x.toNat < 128 := by
    intro x hx
    rw [utf8_of_ascii h, List.mem_map] at hx
    obtain ⟨c, hc, rfl⟩ := hx
    rw [UInt8.toNat_ofNat', Nat.mod_eq_of_lt (by have := h c hc; omega)]
    exact h c hc
  unfold fromUtf8Lossy
  rw [lossyChars_ascii hb, utf8_of_ascii h, List.map_map]
  refine (congrArg String.ofList ?_).trans (String.ofList_toList)
  refine (List.map_congr_left fun c hc => ?_).trans (List.map_id _)
  have hc' := h c hc
  simp only [Function.comp_apply, UInt8.toNat_ofNat', id_eq]
  rw [Nat.mod_eq_of_lt (by omega), Char.ofNat_toNat]

end Arlen.Lib
