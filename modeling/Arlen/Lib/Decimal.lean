import Mathlib.Algebra.Group.Nat.Defs
import Mathlib.Data.List.Induction
import Mathlib.Data.Nat.Init

/-!
# Decimal numerals of a fixed width

`fixedDigits w n` is the last `w` decimal digits of `n`. A numeral padded with
zeros to a width it does not exceed is that, and reads as `n` again.
-/

namespace Arlen.Lib

/-- The last `w` decimal digits of a number. -/
def fixedDigits : Nat → Nat → List Char
  | 0, _ => []
  | w + 1, n => fixedDigits w (n / 10) ++ [(n % 10).digitChar]

/-- A numeral padded with zeros. -/
def zeroPadded (w n : Nat) : List Char :=
  List.replicate (w - (Nat.toDigits 10 n).length) '0' ++ Nat.toDigits 10 n

@[simp] theorem fixedDigits_zero (w : Nat) : fixedDigits w 0 = List.replicate w '0' := by
  induction w with
  | zero => rfl
  | succ w ih =>
    rw [fixedDigits, Nat.zero_div, ih, List.replicate_succ']
    rfl

theorem zeroPadded_eq {w n : Nat} (hw : 0 < w) (h : n < 10 ^ w) :
    zeroPadded w n = fixedDigits w n := by
  induction w generalizing n with
  | zero => omega
  | succ w ih =>
    unfold zeroPadded
    by_cases hn : n < 10
    · rw [Nat.toDigits_of_lt_base hn, fixedDigits, Nat.div_eq_of_lt hn, fixedDigits_zero,
        Nat.mod_eq_of_lt hn]
      rfl
    · have hw' : 0 < w := by
        rcases Nat.eq_zero_or_pos w with rfl | hpos
        · omega
        · exact hpos
      have hdiv : n / 10 < 10 ^ w := Nat.div_lt_of_lt_mul (by rw [Nat.pow_succ] at h; omega)
      have hih := ih hw' hdiv
      unfold zeroPadded at hih
      rw [Nat.toDigits_of_base_le (by decide) (by omega), fixedDigits, List.length_append,
        List.length_singleton, Nat.add_sub_add_right, ← List.append_assoc, hih]

theorem isDigit_of_mem_fixedDigits {w n : Nat} {c : Char} (h : c ∈ fixedDigits w n) :
    c.isDigit = true := by
  induction w generalizing n with
  | zero => cases h
  | succ w ih =>
    rcases List.mem_append.1 h with h | h
    · exact ih h
    · rw [List.mem_singleton] at h
      refine Nat.isDigit_of_mem_toDigits (n := n % 10) (by decide : 0 < 10) (Nat.le_refl 10) ?_
      rw [Nat.toDigits_of_lt_base (Nat.mod_lt _ (by decide)), h]
      exact List.mem_singleton_self _

/-! ### Reading -/

/-- The value of a numeral. -/
def numeralValue (ds : List Char) : Nat := ds.foldl (fun n c => 10 * n + (c.toNat - 48)) 0

/-- The text behind a plus sign. -/
def dropPlus : List Char → List Char
  | '+' :: rest => rest
  | s => s

/-- `str::parse` of an unsigned integer below a bound: digits, and a plus sign before them. -/
def parseUnsigned (bound : Nat) (s : List Char) : Option Nat :=
  let ds := dropPlus s
  if ds ≠ [] ∧ ds.all Char.isDigit ∧ numeralValue ds < bound then some (numeralValue ds) else none

theorem length_fixedDigits (w n : Nat) : (fixedDigits w n).length = w := by
  induction w generalizing n with
  | zero => rfl
  | succ w ih => rw [fixedDigits, List.length_append, ih, List.length_singleton]

theorem numeralValue_concat (ds : List Char) (c : Char) :
    numeralValue (ds ++ [c]) = 10 * numeralValue ds + (c.toNat - 48) := by
  unfold numeralValue
  rw [List.foldl_append, List.foldl_cons, List.foldl_nil]

theorem toNat_digitChar_lt {n : Nat} (h : n < 10) : n.digitChar.toNat - 48 = n := by
  revert n
  decide

theorem numeralValue_fixedDigits {w n : Nat} (h : n < 10 ^ w) :
    numeralValue (fixedDigits w n) = n := by
  induction w generalizing n with
  | zero =>
    rw [Nat.pow_zero, Nat.lt_one_iff] at h
    rw [h]
    rfl
  | succ w ih =>
    have hdiv : n / 10 < 10 ^ w := Nat.div_lt_of_lt_mul (by rw [Nat.pow_succ] at h; omega)
    rw [fixedDigits, numeralValue_concat, ih hdiv, toNat_digitChar_lt (Nat.mod_lt n (by decide))]
    omega

theorem numeralValue_toDigits (n : Nat) : numeralValue (Nat.toDigits 10 n) = n :=
  Nat.ofDigitChars_eq_foldl.symm.trans Nat.ofDigitChars_ten_toDigits

theorem numeralValue_lt {ds : List Char} (h : ds.all Char.isDigit = true) :
    numeralValue ds < 10 ^ ds.length := by
  induction ds using List.reverseRecOn with
  | nil => exact Nat.one_pos
  | append_singleton ds c ih =>
    rw [List.all_append, Bool.and_eq_true] at h
    have hc : c.isDigit = true := by simpa using h.2
    simp only [Char.isDigit, Bool.and_eq_true, decide_eq_true_eq] at hc
    have hle : c.toNat ≤ 57 := hc.2
    have hrest := ih h.1
    rw [numeralValue_concat, List.length_append, List.length_singleton, Nat.pow_succ]
    omega

theorem length_dropPlus_le (s : List Char) : (dropPlus s).length ≤ s.length := by
  unfold dropPlus
  split
  · exact Nat.le_succ _
  · exact Nat.le_refl _

theorem dropPlus_of_digits {s : List Char} (h : s.all Char.isDigit = true) : dropPlus s = s := by
  unfold dropPlus
  split
  · next rest =>
    rw [List.all_cons] at h
    exact absurd h (by simp [Char.isDigit])
  · rfl

/-- What is read has no more digits than the text has characters. -/
theorem parseUnsigned_lt {bound n : Nat} {s : List Char} (h : parseUnsigned bound s = some n) :
    n < 10 ^ s.length := by
  unfold parseUnsigned at h
  dsimp only at h
  split_ifs at h with hds
  cases h
  exact Nat.lt_of_lt_of_le (numeralValue_lt hds.2.1)
    (Nat.pow_le_pow_right (by decide) (length_dropPlus_le s))

/-- A number below the bound is read as it is written. -/
theorem parseUnsigned_toDigits {bound n : Nat} (h : n < bound) :
    parseUnsigned bound (Nat.toDigits 10 n) = some n := by
  have hdigits : (Nat.toDigits 10 n).all Char.isDigit = true :=
    List.all_eq_true.2 fun c hc => Nat.isDigit_of_mem_toDigits (by decide) (Nat.le_refl 10) hc
  unfold parseUnsigned
  dsimp only
  rw [dropPlus_of_digits hdigits, numeralValue_toDigits]
  exact if_pos ⟨Nat.toDigits_ne_nil, hdigits, h⟩

theorem parseUnsigned_fixedDigits {bound w n : Nat} (hw : 0 < w) (h : n < 10 ^ w)
    (hbound : n < bound) : parseUnsigned bound (fixedDigits w n) = some n := by
  have hdigits : (fixedDigits w n).all Char.isDigit = true :=
    List.all_eq_true.2 fun c hc => isDigit_of_mem_fixedDigits hc
  have hne : fixedDigits w n ≠ [] := by
    intro hnil
    have hlen := length_fixedDigits w n
    rw [hnil, List.length_nil] at hlen
    omega
  unfold parseUnsigned
  dsimp only
  rw [dropPlus_of_digits hdigits, numeralValue_fixedDigits h]
  exact if_pos ⟨hne, hdigits, hbound⟩

end Arlen.Lib
