import Arlen.Lib.Utf8

/-!
# Percent-encoding

A byte is kept or becomes `%` and two upper-case hex digits. The decoder reads
either case and passes a `%` that no two hex digits follow. What is encoded reads
back whatever is kept, as long as `%` is not.
-/

namespace Arlen.Lib

def upperHex (n : Nat) : UInt8 := if n < 10 then UInt8.ofNat (48 + n) else UInt8.ofNat (55 + n)

/-- `percent_encode`, with the bytes outside the set. -/
def percentEncode (keep : UInt8 → Bool) (b : Bytes) : Bytes :=
  b.flatMap fun x =>
    if keep x then [x] else [0x25, upperHex (x.toNat / 16), upperHex (x.toNat % 16)]

/-- `char::to_digit(16)`. -/
def hexValue (b : UInt8) : Option Nat :=
  if 48 ≤ b.toNat ∧ b.toNat ≤ 57 then some (b.toNat - 48)
  else if 65 ≤ b.toNat ∧ b.toNat ≤ 70 then some (b.toNat - 55)
  else if 97 ≤ b.toNat ∧ b.toNat ≤ 102 then some (b.toNat - 87)
  else none

/-- The byte two hex digits stand for. -/
def hexPair (high low : UInt8) : Option UInt8 := do
  let h ← hexValue high
  let l ← hexValue low
  some (UInt8.ofNat (16 * h + l))

/-- `percent_decode`. -/
def percentDecode : Bytes → Bytes
  | b :: high :: low :: rest =>
    if b = 0x25 then
      match hexPair high low with
      | some x => x :: percentDecode rest
      | none => b :: percentDecode (high :: low :: rest)
    else b :: percentDecode (high :: low :: rest)
  | b :: rest => b :: percentDecode rest
  | [] => []

variable {keep : UInt8 → Bool} {x : UInt8} {b : Bytes}

theorem toNat_upperHex {n : Nat} (h : n < 16) :
    (upperHex n).toNat = if n < 10 then 48 + n else 55 + n := by
  unfold upperHex
  split
  · rw [UInt8.toNat_ofNat', Nat.mod_eq_of_lt (by omega)]
  · rw [UInt8.toNat_ofNat', Nat.mod_eq_of_lt (by omega)]

theorem hexValue_upperHex {n : Nat} (h : n < 16) : hexValue (upperHex n) = some n := by
  unfold hexValue
  rw [toNat_upperHex h]
  split_ifs <;> first | omega | exact congrArg some (by omega)

theorem hexPair_upperHex (x : UInt8) :
    hexPair (upperHex (x.toNat / 16)) (upperHex (x.toNat % 16)) = some x := by
  have hx := x.toNat_lt
  unfold hexPair
  rw [hexValue_upperHex (by omega), hexValue_upperHex (by omega)]
  simp only [Option.bind_eq_bind, Option.bind_some, Option.some.injEq]
  rw [Nat.div_add_mod, UInt8.ofNat_toNat]

theorem percentDecode_of_ne (h : x ≠ 0x25) : percentDecode (x :: b) = x :: percentDecode b := by
  cases b with
  | nil => rfl
  | cons y b =>
    cases b with
    | nil => rfl
    | cons z b => simp only [percentDecode, h, ↓reduceIte]

/-- **Percent-encoding reads back.** -/
theorem percentDecode_percentEncode (h : keep 0x25 = false) (b rest : Bytes) :
    percentDecode (percentEncode keep b ++ rest) = b ++ percentDecode rest := by
  induction b with
  | nil => rfl
  | cons x b ih =>
    unfold percentEncode at ih ⊢
    rw [List.flatMap_cons, List.append_assoc]
    split
    · next hx =>
      have hne : x ≠ 0x25 := by
        rintro rfl
        rw [h] at hx
        cases hx
      rw [List.singleton_append, percentDecode_of_ne hne, ih]
      rfl
    · rw [List.cons_append, List.cons_append, List.singleton_append, percentDecode,
        if_pos rfl, hexPair_upperHex, ih]
      rfl

/-- What an encoding is made of. -/
theorem mem_percentEncode (h : x ∈ percentEncode keep b) :
    keep x = true ∨ x = 0x25 ∨ ∃ n, n < 16 ∧ x = upperHex n := by
  obtain ⟨y, _, hx⟩ := List.mem_flatMap.1 h
  have hy := y.toNat_lt
  split at hx
  · next hk =>
    rw [List.mem_singleton.1 hx]
    exact Or.inl hk
  · simp only [List.mem_cons, List.not_mem_nil, or_false] at hx
    rcases hx with rfl | rfl | rfl
    · exact Or.inr (Or.inl rfl)
    · exact Or.inr (Or.inr ⟨_, by omega, rfl⟩)
    · exact Or.inr (Or.inr ⟨_, by omega, rfl⟩)

end Arlen.Lib
