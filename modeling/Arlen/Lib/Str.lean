import Mathlib.Data.List.Basic
import Mathlib.Data.List.TakeWhile

/-!
# Cutting strings

`starts_with`, `ends_with`, `strip_prefix`, `strip_suffix`, `split_once` and
`splitn` on strings, each with the decomposition it stands for.
-/

namespace Arlen.Lib

def startsWith (s p : String) : Bool := p.toList.isPrefixOf s.toList

def endsWith (s p : String) : Bool := p.toList.isSuffixOf s.toList

/-- What follows a prefix as long as `p`: the slice `s[p.len()..]`. -/
def dropPrefix (s p : String) : String := String.ofList (s.toList.drop p.toList.length)

def stripPrefix (s p : String) : Option String :=
  if startsWith s p then some (dropPrefix s p) else none

def stripSuffix (s p : String) : Option String :=
  if endsWith s p then
    some (String.ofList (s.toList.take (s.toList.length - p.toList.length)))
  else none

variable {s p r t : String}

theorem startsWith_iff : startsWith s p = true ↔ ∃ r, s = p ++ r := by
  unfold startsWith
  rw [List.isPrefixOf_iff_prefix]
  constructor
  · rintro ⟨r, hr⟩
    refine ⟨String.ofList r, String.toList_injective ?_⟩
    rw [String.toList_append, String.toList_ofList, hr]
  · rintro ⟨r, rfl⟩
    rw [String.toList_append]
    exact List.prefix_append _ _

theorem endsWith_iff : endsWith s p = true ↔ ∃ r, s = r ++ p := by
  unfold endsWith
  rw [List.isSuffixOf_iff_suffix]
  constructor
  · rintro ⟨r, hr⟩
    refine ⟨String.ofList r, String.toList_injective ?_⟩
    rw [String.toList_append, String.toList_ofList, hr]
  · rintro ⟨r, rfl⟩
    rw [String.toList_append]
    exact List.suffix_append _ _

@[simp] theorem dropPrefix_append : dropPrefix (p ++ r) p = r := by
  unfold dropPrefix
  rw [String.toList_append, List.drop_left, String.ofList_toList]

theorem stripPrefix_eq_some : stripPrefix s p = some r ↔ s = p ++ r := by
  unfold stripPrefix
  split
  · next h =>
    obtain ⟨r', rfl⟩ := startsWith_iff.1 h
    simp [String.append_right_inj]
  · next h =>
    constructor
    · intro h'
      cases h'
    · rintro rfl
      exact absurd (startsWith_iff.2 ⟨r, rfl⟩) h

theorem stripSuffix_eq_some : stripSuffix s p = some r ↔ s = r ++ p := by
  unfold stripSuffix
  split
  · next h =>
    obtain ⟨r', rfl⟩ := endsWith_iff.1 h
    simp [String.append_left_inj]
  · next h =>
    constructor
    · intro h'
      cases h'
    · rintro rfl
      exact absurd (endsWith_iff.2 ⟨r, rfl⟩) h

theorem stripSuffix_eq_none : stripSuffix s p = none ↔ ∀ r, s ≠ r ++ p := by
  rw [Option.eq_none_iff_forall_ne_some]
  exact forall_congr' fun r => not_congr stripSuffix_eq_some

@[simp] theorem stripSuffix_append : stripSuffix (r ++ p) p = some r := stripSuffix_eq_some.2 rfl

/-- Two ways to cut one string: the earlier cut leaves the later one behind it. -/
theorem append_eq_append_of_le (h : s ++ t = p ++ r) (hle : r.length ≤ t.length) :
    ∃ m, p = s ++ m ∧ t = m ++ r := by
  have hl := congrArg String.toList h
  rw [String.toList_append, String.toList_append] at hl
  rcases List.append_eq_append_iff.1 hl with ⟨m, hp, ht⟩ | ⟨m, hs, hr⟩
  · refine ⟨String.ofList m, String.toList_injective ?_, String.toList_injective ?_⟩
    · rw [String.toList_append, String.toList_ofList, hp]
    · rw [String.toList_append, String.toList_ofList, ht]
  · -- the cuts can only coincide
    have hm : m = [] := by
      have hlen := congrArg List.length hr
      rw [List.length_append, String.length_toList, String.length_toList] at hlen
      exact List.length_eq_zero_iff.1 (by omega)
    subst hm
    refine ⟨"", String.toList_injective ?_, String.toList_injective ?_⟩
    · simpa using hs.symm
    · simpa using hr.symm

/-- A string that begins with `p` and goes on with `r`. -/
theorem startsWith_dropPrefix_iff :
    (startsWith s p && startsWith (dropPrefix s p) r) = true ↔ ∃ t, s = p ++ (r ++ t) := by
  rw [Bool.and_eq_true, startsWith_iff, startsWith_iff]
  constructor
  · rintro ⟨⟨r', rfl⟩, t, ht⟩
    rw [dropPrefix_append] at ht
    exact ⟨t, by rw [ht]⟩
  · rintro ⟨t, rfl⟩
    exact ⟨⟨_, rfl⟩, t, by simp⟩

/-- The string before and behind the first `c`. -/
def splitOnce (s : String) (c : Char) : Option (String × String) :=
  match s.toList.dropWhile (· ≠ c) with
  | [] => none
  | _ :: rest => some (String.ofList (s.toList.takeWhile (· ≠ c)), String.ofList rest)

/-- The string before and behind the last `c`. -/
def rsplitOnce (s : String) (c : Char) : Option (String × String) :=
  match s.toList.reverse.dropWhile (· ≠ c) with
  | [] => none
  | _ :: rest => some (String.ofList rest.reverse,
      String.ofList (s.toList.reverse.takeWhile (· ≠ c)).reverse)

/-- At most `n` pieces between the first occurrences of `c`; the last piece keeps
the rest. -/
def splitn : Nat → Char → String → List String
  | 0, _, _ => []
  | 1, _, s => [s]
  | n + 2, c, s =>
    match splitOnce s c with
    | none => [s]
    | some (a, rest) => a :: splitn (n + 1) c rest

theorem splitOnce_eq_some {c : Char} {a b : String} :
    splitOnce s c = some (a, b) ↔ s = a ++ (String.singleton c ++ b) ∧ c ∉ a.toList := by
  unfold splitOnce
  constructor
  · intro h
    split at h
    · cases h
    · next d rest hd =>
      simp only [Option.some.injEq, Prod.mk.injEq] at h
      obtain ⟨rfl, rfl⟩ := h
      have hhead : d = c := by
        have hmem := List.head?_dropWhile_not (· ≠ c) s.toList
        rw [hd] at hmem
        simpa using hmem
      refine ⟨String.toList_injective ?_, ?_⟩
      · rw [String.toList_append, String.toList_append, String.toList_ofList,
          String.toList_singleton, String.toList_ofList, List.singleton_append, ← hhead, ← hd,
          hhead, List.takeWhile_append_dropWhile]
      · rw [String.toList_ofList]
        intro hc
        have hall := List.all_eq_true.1 (List.all_takeWhile (p := (· ≠ c)) (l := s.toList)) c hc
        simp at hall
  · rintro ⟨rfl, hc⟩
    have hall : ∀ x ∈ a.toList, decide (x ≠ c) = true := by
      intro x hx
      refine decide_eq_true ?_
      rintro rfl
      exact hc hx
    rw [String.toList_append, String.toList_append, String.toList_singleton,
      List.dropWhile_append_of_pos hall, List.takeWhile_append_of_pos hall]
    simp

theorem splitOnce_eq_none {c : Char} : splitOnce s c = none ↔ c ∉ s.toList := by
  unfold splitOnce
  constructor
  · intro h hc
    split at h
    · next hd =>
      have hall := List.dropWhile_eq_nil_iff.1 hd c hc
      simp at hall
    · cases h
  · intro hc
    have hd : s.toList.dropWhile (· ≠ c) = [] := by
      refine List.dropWhile_eq_nil_iff.2 fun x hx => decide_eq_true ?_
      rintro rfl
      exact hc hx
    rw [hd]

/-- Two pieces: the separator stands once. -/
theorem splitn_three_eq_pair {c : Char} {a b : String} :
    splitn 3 c s = [a, b] ↔ s = a ++ (String.singleton c ++ b) ∧ c ∉ a.toList ∧ c ∉ b.toList := by
  constructor
  · intro h
    unfold splitn at h
    split at h
    · cases h
    · next a' rest ha =>
      obtain ⟨rfl, hrest⟩ := List.cons.inj h
      unfold splitn at hrest
      split at hrest
      · next hb =>
        obtain ⟨rfl, -⟩ := List.cons.inj hrest
        obtain ⟨hs, hca⟩ := splitOnce_eq_some.1 ha
        exact ⟨hs, hca, splitOnce_eq_none.1 hb⟩
      · cases hrest
  · rintro ⟨hs, ha, hb⟩
    have hrest : splitn 2 c b = [b] := by
      unfold splitn
      rw [splitOnce_eq_none.2 hb]
    unfold splitn
    rw [splitOnce_eq_some.2 ⟨hs, ha⟩]
    exact congrArg (a :: ·) hrest

/-- Three pieces: the last keeps what follows the second separator. -/
theorem splitn_three_eq_triple {c : Char} {a b f : String} :
    splitn 3 c s = [a, b, f] ↔
      s = a ++ (String.singleton c ++ (b ++ (String.singleton c ++ f))) ∧
        c ∉ a.toList ∧ c ∉ b.toList := by
  constructor
  · intro h
    unfold splitn at h
    split at h
    · cases h
    · next a' rest ha =>
      obtain ⟨rfl, hrest⟩ := List.cons.inj h
      unfold splitn at hrest
      split at hrest
      · cases hrest
      · next b' rest' hb =>
        obtain ⟨rfl, hf⟩ := List.cons.inj hrest
        obtain rfl : rest' = f := (List.cons.inj hf).1
        obtain ⟨hs, hca⟩ := splitOnce_eq_some.1 ha
        obtain ⟨rfl, hcb⟩ := splitOnce_eq_some.1 hb
        exact ⟨hs, hca, hcb⟩
  · rintro ⟨hs, ha, hb⟩
    have hrest : splitn 2 c (b ++ (String.singleton c ++ f)) = [b, f] := by
      unfold splitn
      rw [splitOnce_eq_some.2 ⟨rfl, hb⟩]
      rfl
    unfold splitn
    rw [splitOnce_eq_some.2 ⟨hs, ha⟩]
    exact congrArg (a :: ·) hrest

end Arlen.Lib
