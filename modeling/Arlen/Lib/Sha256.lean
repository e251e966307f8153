import Arlen.Lib.Bytes

/-!
# HMAC-SHA-256

An executable keyed hash. The chains of this development are proved for an
arbitrary keyed hash; this is the one they run with.
-/

namespace Arlen.Lib

namespace Sha256

def rotr (x n : UInt32) : UInt32 := (x >>> n) ||| (x <<< (32 - n))

/-- The round constants. -/
def constants : List UInt32 := [
  0x428a2f98, 0x71374491, 0xb5c0fbcf, 0xe9b5dba5, 0x3956c25b, 0x59f111f1, 0x923f82a4, 0xab1c5ed5,
  0xd807aa98, 0x12835b01, 0x243185be, 0x550c7dc3, 0x72be5d74, 0x80deb1fe, 0x9bdc06a7, 0xc19bf174,
  0xe49b69c1, 0xefbe4786, 0x0fc19dc6, 0x240ca1cc, 0x2de92c6f, 0x4a7484aa, 0x5cb0a9dc, 0x76f988da,
  0x983e5152, 0xa831c66d, 0xb00327c8, 0xbf597fc7, 0xc6e00bf3, 0xd5a79147, 0x06ca6351, 0x14292967,
  0x27b70a85, 0x2e1b2138, 0x4d2c6dfc, 0x53380d13, 0x650a7354, 0x766a0abb, 0x81c2c92e, 0x92722c85,
  0xa2bfe8a1, 0xa81a664b, 0xc24b8b70, 0xc76c51a3, 0xd192e819, 0xd6990624, 0xf40e3585, 0x106aa070,
  0x19a4c116, 0x1e376c08, 0x2748774c, 0x34b0bcb5, 0x391c0cb3, 0x4ed8aa4a, 0x5b9cca4f, 0x682e6ff3,
  0x748f82ee, 0x78a5636f, 0x84c87814, 0x8cc70208, 0x90befffa, 0xa4506ceb, 0xbef9a3f7, 0xc67178f2]

structure State where
  a : UInt32 := 0x6a09e667
  b : UInt32 := 0xbb67ae85
  c : UInt32 := 0x3c6ef372
  d : UInt32 := 0xa54ff53a
  e : UInt32 := 0x510e527f
  f : UInt32 := 0x9b05688c
  g : UInt32 := 0x1f83d9ab
  h : UInt32 := 0x5be0cd19

def round (s : State) (k w : UInt32) : State :=
  let s1 := rotr s.e 6 ^^^ rotr s.e 11 ^^^ rotr s.e 25
  let ch := (s.e &&& s.f) ^^^ (~~~s.e &&& s.g)
  let t1 := s.h + s1 + ch + k + w
  let s0 := rotr s.a 2 ^^^ rotr s.a 13 ^^^ rotr s.a 22
  let maj := (s.a &&& s.b) ^^^ (s.a &&& s.c) ^^^ (s.b &&& s.c)
  ⟨t1 + (s0 + maj), s.a, s.b, s.c, s.d + t1, s.e, s.f, s.g⟩

/-- The schedule word after the sixteen in the window `w`. -/
def nextWord (w : List UInt32) : UInt32 :=
  let w1 := w.getD 1 0
  let w14 := w.getD 14 0
  let s0 := rotr w1 7 ^^^ rotr w1 18 ^^^ (w1 >>> 3)
  let s1 := rotr w14 17 ^^^ rotr w14 19 ^^^ (w14 >>> 10)
  w.getD 0 0 + s0 + w.getD 9 0 + s1

def rounds : List UInt32 → List UInt32 → State → State
  | [], _, s => s
  | k :: ks, w, s => rounds ks (w.tail ++ [nextWord w]) (round s k (w.getD 0 0))

def compress (h : State) (block : List UInt32) : State :=
  let s := rounds constants block h
  ⟨h.a + s.a, h.b + s.b, h.c + s.c, h.d + s.d, h.e + s.e, h.f + s.f, h.g + s.g, h.h + s.h⟩

def words : Bytes → List UInt32
  | b0 :: b1 :: b2 :: b3 :: bs =>
    ((b0.toUInt32 <<< 24) ||| (b1.toUInt32 <<< 16) ||| (b2.toUInt32 <<< 8) ||| b3.toUInt32)
      :: words bs
  | _ => []

/-- A one bit, zeros up to a block boundary, and the length in bits. -/
def pad (m : Bytes) : Bytes :=
  m ++ 0x80 :: List.replicate ((119 - m.length % 64) % 64) 0 ++ beBytes 8 (8 * m.length)

def blocks : Nat → State → List UInt32 → State
  | 0, s, _ => s
  | n + 1, s, ws => blocks n (compress s (ws.take 16)) (ws.drop 16)

def bytesOf (w : UInt32) : Bytes :=
  [(w >>> 24).toUInt8, (w >>> 16).toUInt8, (w >>> 8).toUInt8, w.toUInt8]

end Sha256

def sha256 (m : Bytes) : Digest :=
  let ws := Sha256.words (Sha256.pad m)
  let s := Sha256.blocks (ws.length / 16) {} ws
  ⟨[s.a, s.b, s.c, s.d, s.e, s.f, s.g, s.h].flatMap Sha256.bytesOf, by simp [Sha256.bytesOf]⟩

def hmacSha256 (key m : Bytes) : Digest :=
  let key := if key.length > 64 then (sha256 key).bytes else key
  let key := key ++ List.replicate (64 - key.length) 0
  sha256 (key.map (· ^^^ 0x5c) ++ (sha256 (key.map (· ^^^ 0x36) ++ m)).bytes)

example : hex (sha256 (utf8 "abc")).bytes =
    "ba7816bf8f01cfea414140de5dae2223b00361a396177a9cb410ff61f20015ad" := by decide +kernel

end Arlen.Lib
