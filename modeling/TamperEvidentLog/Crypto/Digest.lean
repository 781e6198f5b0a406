/-
# Digests with hexadecimal output

What a hash chain needs from its hash function is carried by one structure: a
map from bytes to 64 lower-case hexadecimal characters. No such map is injective
on all byte strings, so freedom from collisions is never a property of the
digest; it is assumed of the byte strings an argument compares.
-/

import TamperEvidentLog.Text.Digits

namespace TamperEvidentLog.Crypto

open TamperEvidentLog.Text

/-- A text of 64 lower-case hexadecimal characters. -/
def IsHexDigest (text : JsString) : Prop :=
  text.length = 64 ∧ ∀ u ∈ text, isHexDigit u = true

instance (text : JsString) : Decidable (IsHexDigest text) :=
  inferInstanceAs (Decidable (_ ∧ _))

/-- A hash function with hexadecimal output,
`crypto.createHash('sha256').update(bytes).digest('hex')` among them. -/
structure Digest where
  /-- The digest of a byte string. -/
  hex : List UInt8 → JsString
  /-- Every digest is 64 hexadecimal characters. -/
  isHexDigest_hex : ∀ bytes, IsHexDigest (hex bytes)

namespace Digest

variable (H : Digest)

/-- No two different byte strings of this set have the same digest. -/
def CollisionFreeOn (inputs : Set (List UInt8)) : Prop := Set.InjOn H.hex inputs

variable {H}

theorem CollisionFreeOn.mono {small large : Set (List UInt8)} (hsub : small ⊆ large)
    (hlarge : H.CollisionFreeOn large) : H.CollisionFreeOn small :=
  Set.InjOn.mono hsub hlarge

/-- Two byte strings with different digests. -/
theorem collisionFreeOn_pair {first second : List UInt8} (hne : H.hex first ≠ H.hex second) :
    H.CollisionFreeOn {first, second} := by
  rintro x (rfl | rfl) y (rfl | rfl) hdigest
  · rfl
  · exact absurd hdigest hne
  · exact absurd hdigest hne.symm
  · rfl

/-- Byte strings with pairwise different digests. -/
theorem collisionFreeOn_of_nodup {inputs : List (List UInt8)}
    (hnodup : (inputs.map H.hex).Nodup) : H.CollisionFreeOn {bytes | bytes ∈ inputs} :=
  fun _ hx _ hy hdigest => List.inj_on_of_nodup_map hnodup hx hy hdigest

@[simp]
theorem length_hex (bytes : List UInt8) : (H.hex bytes).length = 64 :=
  (H.isHexDigest_hex bytes).1

theorem isAscii_of_mem_hex {bytes : List UInt8} {u : UInt16} (hu : u ∈ H.hex bytes) :
    isAscii u = true :=
  isAscii_of_isHexDigit ((H.isHexDigest_hex bytes).2 u hu)

/-- A text of another length is no digest. -/
theorem hex_ne_of_length_ne {text : JsString} (hlength : text.length ≠ 64)
    (bytes : List UInt8) : H.hex bytes ≠ text := by
  intro hequal
  exact hlength (by rw [← hequal, length_hex])

/-- A character that is no hexadecimal digit does not occur in a digest. -/
theorem not_mem_hex {u : UInt16} (hu : isHexDigit u = false) (bytes : List UInt8) :
    u ∉ H.hex bytes := by
  intro hmem
  rw [(H.isHexDigest_hex bytes).2 u hmem] at hu
  cases hu

end Digest

end TamperEvidentLog.Crypto
