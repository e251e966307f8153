import Mathlib.Algebra.Group.Int.Defs
import Mathlib.Algebra.Group.Nat.Defs
import Mathlib.Data.List.Basic

/-!
# Byte strings, digests and serialisers

Fixed-width big-endian integers, length-prefixed fields, lower-case hex, the
32-byte digests a keyed hash returns, and `Serde`, the shape of a serialiser
whose code is not part of the program.
-/

namespace Arlen.Lib

/-- What holds of every member of a list is checked member by member, also where the
type of the members is finite. -/
instance (priority := high) decidableForallMem {α : Type*} {p : α → Prop} [DecidablePred p]
    (l : List α) : Decidable (∀ x ∈ l, p x) := List.decidableBAll p l

abbrev Bytes := List UInt8

/-- The UTF-8 bytes of a string. -/
def utf8 (s : String) : Bytes := s.toUTF8.data.toList

/-! ## Big-endian integers -/

/-- The low `w` bytes of `n`, most significant first. -/
def beBytes : Nat → Nat → Bytes
  | 0, _ => []
  | w + 1, n => beBytes w (n / 256) ++ [UInt8.ofNat n]

@[simp] theorem length_beBytes (w n : Nat) : (beBytes w n).length = w := by
  induction w generalizing n with
  | zero => rfl
  | succ w ih => simp [beBytes, ih]

/-- `w` bytes determine the number they spell. -/
theorem beBytes_inj {w n m : Nat} (hn : n < 256 ^ w) (hm : m < 256 ^ w)
    (h : beBytes w n = beBytes w m) : n = m := by
  induction w generalizing n m with
  | zero =>
    rw [Nat.pow_zero] at hn hm
    omega
  | succ w ih =>
    obtain ⟨hhigh, hlow⟩ := List.append_inj h (by simp)
    rw [Nat.pow_succ] at hn hm
    have hdiv := ih (Nat.div_lt_of_lt_mul (by omega)) (Nat.div_lt_of_lt_mul (by omega)) hhigh
    have hmod : n % 256 = m % 256 := by
      have := congrArg UInt8.toNat (List.singleton_inj.1 hlow)
      simpa [UInt8.toNat_ofNat'] using this
    omega

/-- The two's complement reading of a signed 64-bit integer, as `i64 as u64`. -/
def asU64 (i : Int) : Nat := (i % 2 ^ 64).toNat

theorem asU64_lt (i : Int) : asU64 i < 2 ^ 64 := by
  unfold asU64
  omega

@[simp] theorem asU64_ofNat {n : Nat} (h : n < 2 ^ 64) : asU64 (n : Int) = n := by
  unfold asU64
  omega

theorem asU64_inj {i j : Int} (hi : -2 ^ 63 ≤ i ∧ i < 2 ^ 63) (hj : -2 ^ 63 ≤ j ∧ j < 2 ^ 63)
    (h : asU64 i = asU64 j) : i = j := by
  unfold asU64 at h
  omega

/-- `u64 as i64`. -/
def asI64 (n : Nat) : Int := if n % 2 ^ 64 < 2 ^ 63 then n % 2 ^ 64 else n % 2 ^ 64 - 2 ^ 64

theorem asI64_of_lt {n : Nat} (h : n < 2 ^ 63) : asI64 n = n := by
  unfold asI64
  omega

/-- A field preceded by its length, so that fields cannot run into each other. -/
def lengthPrefixed (b : Bytes) : Bytes := beBytes 8 b.length ++ b

theorem lengthPrefixed_append_inj {a b x y : Bytes} (ha : a.length < 2 ^ 64) (hb : b.length < 2 ^ 64)
    (h : lengthPrefixed a ++ x = lengthPrefixed b ++ y) : a = b ∧ x = y := by
  unfold lengthPrefixed at h
  rw [List.append_assoc, List.append_assoc] at h
  obtain ⟨hlen, h⟩ := List.append_inj h (by simp)
  exact List.append_inj h (beBytes_inj (w := 8) ha hb hlen)

/-! ## Hex -/

def hexDigit (n : Nat) : Char :=
  if n < 10 then Char.ofNat (48 + n) else Char.ofNat (87 + n)

/-- Lower-case hex, two digits a byte. -/
def hex (b : Bytes) : String :=
  String.ofList (b.flatMap fun x => [hexDigit (x.toNat / 16), hexDigit (x.toNat % 16)])

/-! ## Digests -/

/-- A 32-byte hash value. -/
structure Digest where
  bytes : Bytes
  size : bytes.length = 32
  deriving DecidableEq, Repr

theorem Digest.ext {d e : Digest} (h : d.bytes = e.bytes) : d = e := by
  cases d
  cases e
  cases h
  rfl

/-- 32 zero bytes, where a chain starts. -/
def Digest.zero : Digest := ⟨List.replicate 32 0, rfl⟩

/-- `<[u8; 32]>::try_from`. -/
def Digest.ofBytes? (b : Bytes) : Option Digest := if h : b.length = 32 then some ⟨b, h⟩ else none

@[simp] theorem Digest.ofBytes?_bytes (d : Digest) : Digest.ofBytes? d.bytes = some d := by
  simp [ofBytes?, d.size]

/-! ## Serialisers -/

/-- A serialiser to text and its parser. -/
structure Serde (α : Type) where
  toStr : α → String
  fromStr : String → Except String α

/-- Parsing undoes printing at this value. -/
def Serde.RoundTrips {α : Type} (c : Serde α) (a : α) : Prop := c.fromStr (c.toStr a) = .ok a

/-- A serialiser on the one value it meets. -/
def serdeOf {α : Type} (a : α) (print : α → String) : Serde α where
  toStr := print
  fromStr := fun s => if s = print a then .ok a else .error "expected value at line 1 column 1"

theorem serdeOf_roundTrips {α : Type} (a : α) (print : α → String) :
    (serdeOf a print).RoundTrips a := by
  simp [Serde.RoundTrips, serdeOf]

end Arlen.Lib
