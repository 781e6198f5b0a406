/-
# SHA-256

The hash function itself, as FIPS 180-4 states it, so that statements about
every digest with hexadecimal output can be evaluated on the real one. The
message schedule is kept as a window of its last sixteen words, and the
compression loop walks the round constants.
-/

import TamperEvidentLog.Crypto.Digest

namespace TamperEvidentLog.Crypto

open TamperEvidentLog.Text

namespace Sha256

/-- The round constants. -/
def roundConstants : List UInt32 := [
  0x428a2f98, 0x71374491, 0xb5c0fbcf, 0xe9b5dba5, 0x3956c25b, 0x59f111f1, 0x923f82a4, 0xab1c5ed5,
  0xd807aa98, 0x12835b01, 0x243185be, 0x550c7dc3, 0x72be5d74, 0x80deb1fe, 0x9bdc06a7, 0xc19bf174,
  0xe49b69c1, 0xefbe4786, 0x0fc19dc6, 0x240ca1cc, 0x2de92c6f, 0x4a7484aa, 0x5cb0a9dc, 0x76f988da,
  0x983e5152, 0xa831c66d, 0xb00327c8, 0xbf597fc7, 0xc6e00bf3, 0xd5a79147, 0x06ca6351, 0x14292967,
  0x27b70a85, 0x2e1b2138, 0x4d2c6dfc, 0x53380d13, 0x650a7354, 0x766a0abb, 0x81c2c92e, 0x92722c85,
  0xa2bfe8a1, 0xa81a664b, 0xc24b8b70, 0xc76c51a3, 0xd192e819, 0xd6990624, 0xf40e3585, 0x106aa070,
  0x19a4c116, 0x1e376c08, 0x2748774c, 0x34b0bcb5, 0x391c0cb3, 0x4ed8aa4a, 0x5b9cca4f, 0x682e6ff3,
  0x748f82ee, 0x78a5636f, 0x84c87814, 0x8cc70208, 0x90befffa, 0xa4506ceb, 0xbef9a3f7, 0xc67178f2]

/-- Rotation to the right. -/
def rotr (n : UInt32) (x : UInt32) : UInt32 := (x >>> n) ||| (x <<< (32 - n))

/-- Choose: each bit of `x` selects the bit of `y` or of `z`. -/
def ch (x y z : UInt32) : UInt32 := (x &&& y) ^^^ (~~~x &&& z)

/-- The bitwise majority. -/
def maj (x y z : UInt32) : UInt32 := (x &&& y) ^^^ (x &&& z) ^^^ (y &&& z)

def bigSigma0 (x : UInt32) : UInt32 := rotr 2 x ^^^ rotr 13 x ^^^ rotr 22 x

def bigSigma1 (x : UInt32) : UInt32 := rotr 6 x ^^^ rotr 11 x ^^^ rotr 25 x

def smallSigma0 (x : UInt32) : UInt32 := rotr 7 x ^^^ rotr 18 x ^^^ (x >>> 3)

def smallSigma1 (x : UInt32) : UInt32 := rotr 17 x ^^^ rotr 19 x ^^^ (x >>> 10)

/-- The eight working variables, and the chaining value between blocks. -/
structure State where
  (a b c d e f g h : UInt32)

/-- The chaining value before the first block. -/
def State.init : State :=
  ⟨0x6a09e667, 0xbb67ae85, 0x3c6ef372, 0xa54ff53a, 0x510e527f, 0x9b05688c, 0x1f83d9ab, 0x5be0cd19⟩

/-- The word-by-word sum that ends a block. -/
def State.add (s t : State) : State :=
  ⟨s.a + t.a, s.b + t.b, s.c + t.c, s.d + t.d, s.e + t.e, s.f + t.f, s.g + t.g, s.h + t.h⟩

/-- One round with constant `k` and schedule word `w`. -/
def State.round (s : State) (k w : UInt32) : State :=
  let t1 := s.h + bigSigma1 s.e + ch s.e s.f s.g + k + w
  let t2 := bigSigma0 s.a + maj s.a s.b s.c
  ⟨t1 + t2, s.a, s.b, s.c, s.d + t1, s.e, s.f, s.g⟩

/-- The schedule word that follows a window of sixteen. -/
def nextWord : List UInt32 → UInt32
  | [w0, w1, _, _, _, _, _, _, _, w9, _, _, _, _, w14, _] =>
      smallSigma1 w14 + w9 + smallSigma0 w1 + w0
  | _ => 0

/-- The rounds of one block, walking the constants and sliding the window. -/
def rounds : List UInt32 → List UInt32 → State → State
  | k :: ks, w :: ws, s => rounds ks (ws ++ [nextWord (w :: ws)]) (s.round k w)
  | _, _, s => s

/-- Four bytes as one big-endian word. -/
def word (a b c d : UInt8) : UInt32 :=
  (a.toUInt32 <<< 24) ||| (b.toUInt32 <<< 16) ||| (c.toUInt32 <<< 8) ||| d.toUInt32

/-- A byte string as big-endian words; a rest of less than four bytes is dropped. -/
def words : List UInt8 → List UInt32
  | a :: b :: c :: d :: rest => word a b c d :: words rest
  | _ => []

/-- The message, a one bit, zeros up to eight bytes short of a block, and the
length in bits as eight big-endian bytes. -/
def pad (message : List UInt8) : List UInt8 :=
  message ++ 0x80 :: List.replicate ((119 - message.length % 64) % 64) 0 ++
    (List.range 8).map fun i => (8 * message.length / 256 ^ (7 - i)).toUInt8

/-- Compress block after block; the first argument bounds the number of blocks. -/
def compress : Nat → List UInt32 → State → State
  | 0, _, s => s
  | blocks + 1, ws, s =>
      compress blocks (ws.drop 16) (s.add (rounds roundConstants (ws.take 16) s))

/-- A word as eight hexadecimal characters. -/
def hexWord (w : UInt32) : JsString :=
  (List.range 8).map fun i => hexDigit (w.toNat / 16 ^ (7 - i))

/-- `crypto.createHash('sha256').update(message).digest('hex')`. -/
def hex (message : List UInt8) : JsString :=
  let s := compress ((message.length + 72) / 64) (words (pad message)) State.init
  hexWord s.a ++ hexWord s.b ++ hexWord s.c ++ hexWord s.d ++
    hexWord s.e ++ hexWord s.f ++ hexWord s.g ++ hexWord s.h

theorem length_hexWord (w : UInt32) : (hexWord w).length = 8 := by
  simp [hexWord]

theorem isHexDigit_of_mem_hexWord {w : UInt32} {u : UInt16} (hu : u ∈ hexWord w) :
    isHexDigit u = true := by
  obtain ⟨i, _, rfl⟩ := List.mem_map.mp hu
  exact isHexDigit_hexDigit _

theorem isHexDigest_hex (message : List UInt8) : IsHexDigest (hex message) := by
  refine ⟨by simp [hex, length_hexWord], fun u hu => ?_⟩
  simp only [hex, List.mem_append] at hu
  rcases hu with ((((((hu | hu) | hu) | hu) | hu) | hu) | hu) | hu <;>
    exact isHexDigit_of_mem_hexWord hu

example : hex (utf8 (js "abc")) =
    js "ba7816bf8f01cfea414140de5dae2223b00361a396177a9cb410ff61f20015ad" := by
  decide +kernel

end Sha256

/-- SHA-256 as a digest. -/
def sha256 : Digest := ⟨Sha256.hex, Sha256.isHexDigest_hex⟩

end TamperEvidentLog.Crypto
