/-
# Decimal and hexadecimal digits

The digits that the program's texts are made of: lower-case hexadecimal for
digests and escape sequences, and zero-padded decimal fields of a fixed width
for timestamps. A fixed width is what makes the concatenation of several fields
readable back without separators.
-/

import TamperEvidentLog.Text.Utf16

namespace TamperEvidentLog.Text

/-- A decimal digit. -/
def isDigit (u : UInt16) : Bool := 0x30 ≤ u && u ≤ 0x39

/-- A lower-case hexadecimal digit. -/
def isHexDigit (u : UInt16) : Bool := isDigit u || (0x61 ≤ u && u ≤ 0x66)

/-- The lower-case hexadecimal digit of a number below sixteen. -/
def hexDigit (n : Nat) : UInt16 :=
  if n % 16 < 10 then (0x30 + n % 16).toUInt16 else (0x57 + n % 16).toUInt16

/-- The number a hexadecimal digit of either case stands for. -/
def hexDigitValue (u : UInt16) : Option Nat :=
  if isDigit u then some (u.toNat - 0x30)
  else if 0x61 ≤ u && u ≤ 0x66 then some (u.toNat - 0x57)
  else if 0x41 ≤ u && u ≤ 0x46 then some (u.toNat - 0x37)
  else none

theorem isHexDigit_hexDigit (n : Nat) : isHexDigit (hexDigit n) = true := by
  have hall : ∀ m : Fin 16, isHexDigit (hexDigit m) = true := by decide
  simpa [hexDigit] using hall ⟨n % 16, Nat.mod_lt _ (by decide)⟩

theorem hexDigitValue_hexDigit (n : Nat) : hexDigitValue (hexDigit n) = some (n % 16) := by
  have hall : ∀ m : Fin 16, hexDigitValue (hexDigit m) = some m.val := by decide
  simpa [hexDigit] using hall ⟨n % 16, Nat.mod_lt _ (by decide)⟩

theorem isAscii_of_isDigit {u : UInt16} (hu : isDigit u = true) : isAscii u = true := by
  simp only [isDigit, isAscii, Bool.and_eq_true, decide_eq_true_eq, UInt16.le_iff_toNat_le,
    UInt16.lt_iff_toNat_lt, UInt16.reduceToNat] at *
  omega

theorem isAscii_of_isHexDigit {u : UInt16} (hu : isHexDigit u = true) : isAscii u = true := by
  simp only [isHexDigit, isDigit, isAscii, Bool.or_eq_true, Bool.and_eq_true,
    decide_eq_true_eq, UInt16.le_iff_toNat_le, UInt16.lt_iff_toNat_lt,
    UInt16.reduceToNat] at *
  omega

/-- The last decimal digit of a number. -/
def decimalDigit (n : Nat) : UInt16 := (0x30 + n % 10).toUInt16

theorem isDigit_decimalDigit (n : Nat) : isDigit (decimalDigit n) = true := by
  have hall : ∀ m : Fin 10, isDigit (decimalDigit m) = true := by decide
  simpa [decimalDigit] using hall ⟨n % 10, Nat.mod_lt _ (by decide)⟩

theorem decimalDigit_inj {m n : Nat} (h : decimalDigit m = decimalDigit n) :
    m % 10 = n % 10 := by
  have hall : ∀ a b : Fin 10, decimalDigit a = decimalDigit b → a = b := by decide
  have hfin := hall ⟨m % 10, Nat.mod_lt _ (by decide)⟩ ⟨n % 10, Nat.mod_lt _ (by decide)⟩
    (by simpa [decimalDigit] using h)
  simpa using hfin

/-- The last `width` decimal digits of a number, zero-padded on the left. -/
def padded : Nat → Nat → JsString
  | 0, _ => []
  | width + 1, n => padded width (n / 10) ++ [decimalDigit n]

@[simp]
theorem length_padded (width n : Nat) : (padded width n).length = width := by
  induction width generalizing n with
  | zero => rfl
  | succ width ih => simp [padded, ih]

theorem isDigit_of_mem_padded {width n : Nat} {u : UInt16} (hu : u ∈ padded width n) :
    isDigit u = true := by
  induction width generalizing n with
  | zero => simp [padded] at hu
  | succ width ih =>
    rw [padded, List.mem_append, List.mem_singleton] at hu
    rcases hu with hu | rfl
    · exact ih hu
    · exact isDigit_decimalDigit n

/-- A field wide enough for its number determines it. -/
theorem padded_inj {width m n : Nat} (hm : m < 10 ^ width) (hn : n < 10 ^ width)
    (h : padded width m = padded width n) : m = n := by
  induction width generalizing m n with
  | zero =>
    rw [pow_zero] at hm hn
    omega
  | succ width ih =>
    rw [padded, padded] at h
    obtain ⟨hinit, hlast⟩ := List.append_inj h (by simp)
    have hdigit : m % 10 = n % 10 := decimalDigit_inj (by simpa using hlast)
    have hquot : m / 10 = n / 10 := by
      refine ih ?_ ?_ hinit
      · rw [Nat.div_lt_iff_lt_mul (by decide), ← pow_succ]
        exact hm
      · rw [Nat.div_lt_iff_lt_mul (by decide), ← pow_succ]
        exact hn
    omega

/-- `String(n)` for a natural number: its decimal digits without padding. -/
def decimal (n : Nat) : JsString := (Nat.toDigits 10 n).map fun c => c.toNat.toUInt16

end TamperEvidentLog.Text
