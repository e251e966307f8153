import Mathlib.Data.String.Basic

/-!
# Lower case

`str::to_lowercase` over the character tables of Unicode: each character by its
own mapping, and a capital sigma by whether it ends a word. The tables are a
parameter; of them it is used that a lower case character is its own lower case.
-/

namespace Arlen.Lib

structure CaseTables where
  lower : Char → List Char
  cased : Char → Bool
  caseIgnorable : Char → Bool
  stable : ∀ c, ∀ d ∈ lower c, d ≠ 'Σ' ∧ lower d = [d]
  sigma : lower 'σ' = ['σ']
  finalSigma : lower 'ς' = ['ς']

namespace CaseTables

variable (T : CaseTables)

/-- Behind the characters that do not count stands a cased one. -/
def ignorableThenCased (s : List Char) : Bool :=
  match s.dropWhile T.caseIgnorable with
  | [] => false
  | c :: _ => T.cased c

/-- The conversion, with the characters before in reverse order. -/
def lowerFrom : List Char → List Char → List Char
  | _, [] => []
  | before, c :: rest =>
    (if c = 'Σ' then
      if T.ignorableThenCased before && !T.ignorableThenCased rest then ['ς'] else ['σ']
    else T.lower c) ++ lowerFrom (c :: before) rest

def toLowercase (s : String) : String := String.ofList (T.lowerFrom [] s.toList)

/-- A character the conversion leaves alone. -/
def Lower (c : Char) : Prop := c ≠ 'Σ' ∧ T.lower c = [c]

theorem isUpper_iff (c : Char) : c.isUpper = true ↔ 65 ≤ c.toNat ∧ c.toNat ≤ 90 :=
  decide_eq_true_iff

/-- An ASCII capital's small letter. -/
theorem toNat_toLower {c : Char} (h : c.isUpper = true) : c.toLower.toNat = c.toNat + 32 := by
  have hle := (isUpper_iff c).1 h
  delta Char.toLower
  rw [dif_pos (of_decide_eq_true h)]
  show (c.val + 32).toNat = c.val.toNat + 32
  rw [UInt32.toNat_add]
  show (c.toNat + 32) % 2 ^ 32 = c.toNat + 32
  omega

theorem toLower_of_not_isUpper {c : Char} (h : c.isUpper = false) : c.toLower = c := by
  delta Char.toLower
  exact dif_neg (of_decide_eq_false h)

theorem isUpper_toLower (c : Char) : c.toLower.isUpper = false := by
  rw [Bool.eq_false_iff, Ne, isUpper_iff]
  cases h : c.isUpper with
  | true =>
    have := (isUpper_iff c).1 h
    rw [toNat_toLower h]
    omega
  | false =>
    rw [toLower_of_not_isUpper h, ← isUpper_iff, h]
    exact Bool.false_ne_true

theorem eq_of_toLower_eq {c d : Char} (hd : 128 ≤ d.toNat) (h : c.toLower = d) : c = d := by
  cases hup : c.isUpper with
  | false => exact (toLower_of_not_isUpper hup).symm.trans h
  | true =>
    have hle := ((isUpper_iff c).1 hup).2
    have hsmall := toNat_toLower hup
    rw [h] at hsmall
    omega

/-- The tables of ASCII, with the two small sigmas. -/
def ascii : CaseTables where
  lower c := if c = 'Σ' then ['σ'] else [c.toLower]
  cased c := c.isAlpha
  caseIgnorable c := c == '.'
  stable := by
    intro c d hd
    have hstable : d.isUpper = false ∧ d ≠ 'Σ' := by
      split_ifs at hd with hsigma
      · rw [List.mem_singleton.mp hd]
        decide
      · rw [List.mem_singleton.mp hd]
        exact ⟨isUpper_toLower c, fun heq => hsigma (eq_of_toLower_eq (by decide) heq)⟩
    rw [if_neg hstable.2, toLower_of_not_isUpper hstable.1]
    exact ⟨hstable.2, rfl⟩
  sigma := by decide
  finalSigma := by decide

end CaseTables

end Arlen.Lib
