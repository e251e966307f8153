import Arlen.Lib.Bytes

/-!
# Base64

The standard alphabet, padded: three bytes are four digits, and what is left over is padded
with `=`. The decoder takes no digit outside the alphabet, no padding but at the end, and no
bits behind the last byte. What is encoded reads back.
-/

namespace Arlen.Lib.Base64

/-- The digit of six bits. -/
def digit (n : Nat) : UInt8 :=
  if n < 26 then UInt8.ofNat (65 + n)
  else if n < 52 then UInt8.ofNat (71 + n)
  else if n < 62 then UInt8.ofNat (n - 4)
  else if n = 62 then 0x2b
  else 0x2f

def padding : UInt8 := 0x3d

/-- The six bits of a digit. -/
def digitValue (b : UInt8) : Option Nat :=
  if 65 ≤ b.toNat ∧ b.toNat ≤ 90 then some (b.toNat - 65)
  else if 97 ≤ b.toNat ∧ b.toNat ≤ 122 then some (b.toNat - 71)
  else if 48 ≤ b.toNat ∧ b.toNat ≤ 57 then some (b.toNat + 4)
  else if b = 0x2b then some 62
  else if b = 0x2f then some 63
  else none

def encode : Bytes → Bytes
  | a :: b :: c :: rest =>
    [digit (a.toNat / 4), digit (a.toNat % 4 * 16 + b.toNat / 16),
      digit (b.toNat % 16 * 4 + c.toNat / 64), digit (c.toNat % 64)] ++ encode rest
  | [a, b] =>
    [digit (a.toNat / 4), digit (a.toNat % 4 * 16 + b.toNat / 16), digit (b.toNat % 16 * 4), padding]
  | [a] => [digit (a.toNat / 4), digit (a.toNat % 4 * 16), padding, padding]
  | [] => []

/-- The bytes of the last four digits, which may be padded. -/
def decodeLast (a b c d : UInt8) : Option Bytes :=
  (digitValue a).bind fun x => (digitValue b).bind fun y =>
    if c = padding ∧ d = padding then
      if y % 16 = 0 then some [UInt8.ofNat (x * 4 + y / 16)] else none
    else
      (digitValue c).bind fun z =>
        if d = padding then
          if z % 4 = 0 then some [UInt8.ofNat (x * 4 + y / 16), UInt8.ofNat (y % 16 * 16 + z / 4)]
          else none
        else
          (digitValue d).map fun w =>
            [UInt8.ofNat (x * 4 + y / 16), UInt8.ofNat (y % 16 * 16 + z / 4),
              UInt8.ofNat (z % 4 * 64 + w)]

def decode : Bytes → Option Bytes
  | [] => some []
  | [a, b, c, d] => decodeLast a b c d
  | a :: b :: c :: d :: rest =>
    if c = padding ∨ d = padding then none
    else (decodeLast a b c d).bind fun front => (decode rest).map (front ++ ·)
  | _ => none

example : encode (utf8 "Many") = utf8 "TWFueQ==" := by decide +kernel

variable {n : Nat} {a b c d : UInt8} {s : Bytes}

theorem digitValue_digit (h : n < 64) : digitValue (digit n) = some n := by
  have hall : ∀ n < 64, digitValue (digit n) = some n := by decide
  exact hall n h

theorem digit_ne_padding (n : Nat) : digit n ≠ padding := by
  unfold digit padding
  split_ifs with h1 h2 h3 h4
  · have hall : ∀ n < 26, UInt8.ofNat (65 + n) ≠ 0x3d := by decide
    exact hall n h1
  · have hall : ∀ n < 52, UInt8.ofNat (71 + n) ≠ 0x3d := by decide
    exact hall n h2
  · have hall : ∀ n < 62, 52 ≤ n → UInt8.ofNat (n - 4) ≠ 0x3d := by decide
    exact hall n h3 (by omega)
  · decide
  · decide

theorem ofNat_of_toNat {x : UInt8} (h : n = x.toNat) : UInt8.ofNat n = x := by
  rw [h, UInt8.ofNat_toNat]

theorem decodeLast_three (a b c : UInt8) :
    decodeLast (digit (a.toNat / 4)) (digit (a.toNat % 4 * 16 + b.toNat / 16))
      (digit (b.toNat % 16 * 4 + c.toNat / 64)) (digit (c.toNat % 64)) = some [a, b, c] := by
  have ha := a.toNat_lt
  have hb := b.toNat_lt
  have hc := c.toNat_lt
  unfold decodeLast
  rw [digitValue_digit (by omega), digitValue_digit (by omega), digitValue_digit (by omega),
    digitValue_digit (by omega)]
  simp only [Option.bind_some, digit_ne_padding, and_false, if_false, Option.map_some]
  rw [ofNat_of_toNat (x := a) (by omega), ofNat_of_toNat (x := b) (by omega),
    ofNat_of_toNat (x := c) (by omega)]

theorem decodeLast_two (a b : UInt8) :
    decodeLast (digit (a.toNat / 4)) (digit (a.toNat % 4 * 16 + b.toNat / 16))
      (digit (b.toNat % 16 * 4)) padding = some [a, b] := by
  have ha := a.toNat_lt
  have hb := b.toNat_lt
  unfold decodeLast
  rw [digitValue_digit (by omega), digitValue_digit (by omega), digitValue_digit (by omega)]
  simp only [Option.bind_some, digit_ne_padding, false_and, if_false, if_true]
  rw [if_pos (by omega), ofNat_of_toNat (x := a) (by omega), ofNat_of_toNat (x := b) (by omega)]

theorem decodeLast_one (a : UInt8) :
    decodeLast (digit (a.toNat / 4)) (digit (a.toNat % 4 * 16)) padding padding = some [a] := by
  have ha := a.toNat_lt
  unfold decodeLast
  rw [digitValue_digit (by omega), digitValue_digit (by omega)]
  simp only [Option.bind_some, and_self, if_true]
  rw [if_pos (by omega), ofNat_of_toNat (x := a) (by omega)]

/-- Four digits and more. -/
theorem decode_append (hc : c ≠ padding) (hd : d ≠ padding) (s : Bytes) :
    decode ([a, b, c, d] ++ s) =
      (decodeLast a b c d).bind fun front => (decode s).map (front ++ ·) := by
  cases s with
  | nil => cases h : decodeLast a b c d <;> simp [decode, h]
  | cons x s => simp [decode, hc, hd]

/-- **What is encoded reads back.** -/
theorem decode_encode (s : Bytes) : decode (encode s) = some s := by
  induction s using encode.induct with
  | case1 a b c rest ih =>
    rw [encode, decode_append (digit_ne_padding _) (digit_ne_padding _), decodeLast_three, ih]
    rfl
  | case2 a b => exact decodeLast_two a b
  | case3 a => exact decodeLast_one a
  | case4 => rfl

/-- The digits and the padding are printable. -/
theorem printable_digit (n : Nat) : 0x2b ≤ (digit n).toNat := by
  unfold digit
  split_ifs with h1 h2 h3 h4
  · have hall : ∀ n < 26, 0x2b ≤ (UInt8.ofNat (65 + n)).toNat := by decide
    exact hall n h1
  · have hall : ∀ n < 52, 0x2b ≤ (UInt8.ofNat (71 + n)).toNat := by decide
    exact hall n h2
  · have hall : ∀ n < 62, 52 ≤ n → 0x2b ≤ (UInt8.ofNat (n - 4)).toNat := by decide
    exact hall n h3 (by omega)
  · decide
  · decide

theorem printable_encode (s : Bytes) : ∀ x ∈ encode s, 0x2b ≤ x.toNat := by
  have hpad : 0x2b ≤ padding.toNat := by decide
  induction s using encode.induct with
  | case1 a b c rest ih =>
    rw [encode]
    intro x hx
    simp only [List.cons_append, List.nil_append, List.mem_cons] at hx
    rcases hx with rfl | rfl | rfl | rfl | hx
    all_goals first | exact printable_digit _ | exact ih x hx
  | case2 a b =>
    intro x hx
    simp only [encode, List.mem_cons, List.not_mem_nil, or_false] at hx
    rcases hx with rfl | rfl | rfl | rfl
    all_goals first | exact printable_digit _ | exact hpad
  | case3 a =>
    intro x hx
    simp only [encode, List.mem_cons, List.not_mem_nil, or_false] at hx
    rcases hx with rfl | rfl | rfl | rfl
    all_goals first | exact printable_digit _ | exact hpad
  | case4 => simp [encode]

end Arlen.Lib.Base64
