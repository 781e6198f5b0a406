/-
# `parseInt`

`parseInt(text, 10)` reads the integer that a text begins with: it skips white
space, takes a sign, and then as many decimal digits as there are. What follows
them is not looked at, and where there is no digit the result is `NaN`.

The text may be of any length and the integer of any size. Its value in binary64
is the integer rounded, or infinity. An engine is free to read digits behind the
twentieth significant one as 0; here they all count.
-/

import TamperEvidentLog.Number.Binary64
import TamperEvidentLog.Text.Join
import TamperEvidentLog.Text.JsonOrder

namespace TamperEvidentLog.Text

open TamperEvidentLog.Number

/-! ## Digits -/

theorem toNat_of_isDigit {u : UInt16} (hu : isDigit u = true) :
    0x30 ≤ u.toNat ∧ u.toNat - 0x30 ≤ 9 := by
  simp only [isDigit, Bool.and_eq_true, decide_eq_true_eq, UInt16.le_iff_toNat_le,
    UInt16.reduceToNat] at hu
  omega

theorem digitsValue_snoc (s : JsString) (u : UInt16) :
    digitsValue (s ++ [u]) = 10 * digitsValue s + (u.toNat - 0x30) := by
  rw [digitsValue, List.foldl_append]
  rfl

theorem toNat_decimalDigit (n : Nat) : (decimalDigit n).toNat - 0x30 = n % 10 := by
  have hall : ∀ m : Fin 10, (decimalDigit m).toNat - 0x30 = m := by decide
  simpa [decimalDigit] using hall ⟨n % 10, Nat.mod_lt _ (by decide)⟩

/-- Reading a padded number. -/
theorem digitsValue_padded {width n : Nat} (hn : n < 10 ^ width) :
    digitsValue (padded width n) = n := by
  induction width generalizing n with
  | zero =>
    rw [pow_zero, Nat.lt_one_iff] at hn
    rw [hn]
    rfl
  | succ width ih =>
    have hquot : n / 10 < 10 ^ width := by
      rw [Nat.div_lt_iff_lt_mul (by decide), ← pow_succ]
      exact hn
    rw [padded, digitsValue_snoc, ih hquot, toNat_decimalDigit]
    exact Nat.div_add_mod n 10

theorem decimalDigit_of_isDigit {u : UInt16} (hu : isDigit u = true) (n : Nat) :
    decimalDigit (10 * n + (u.toNat - 0x30)) = u := by
  obtain ⟨hlow, hhigh⟩ := toNat_of_isDigit hu
  have hmod : 0x30 + (10 * n + (u.toNat - 0x30)) % 10 = u.toNat := by omega
  rw [decimalDigit, hmod]
  exact UInt16.ofNat_toNat

/-- Digits stand for a number of their width, and are that number padded. -/
theorem padded_digitsValue {digits : JsString} (hdigits : digits.all isDigit = true) :
    digitsValue digits < 10 ^ digits.length ∧
      padded digits.length (digitsValue digits) = digits := by
  induction digits using List.reverseRecOn with
  | nil => exact ⟨by decide, rfl⟩
  | append_singleton digits u ih =>
    rw [List.all_append, Bool.and_eq_true, List.all_cons, List.all_nil, Bool.and_true] at hdigits
    obtain ⟨hlt, hpadded⟩ := ih hdigits.1
    obtain ⟨_, hu⟩ := toNat_of_isDigit hdigits.2
    rw [List.length_append, List.length_singleton, digitsValue_snoc]
    constructor
    · rw [pow_succ]
      omega
    · have hquot : (10 * digitsValue digits + (u.toNat - 0x30)) / 10 = digitsValue digits := by omega
      rw [padded, decimalDigit_of_isDigit hdigits.2, hquot, hpadded]

/-! ## Integers -/

/-- The code units that `trim` removes: white space and line terminators. -/
def isWhiteSpace (u : UInt16) : Bool :=
  [0x09, 0x0A, 0x0B, 0x0C, 0x0D, 0x20, 0xA0, 0x1680, 0x2028, 0x2029, 0x202F, 0x205F, 0x3000,
    0xFEFF].contains u || (0x2000 ≤ u && u ≤ 0x200A)

/-- `text.trim()`. -/
def trim (text : JsString) : JsString :=
  ((text.dropWhile isWhiteSpace).reverse.dropWhile isWhiteSpace).reverse

/-- Whether there is a minus sign, and what follows the sign. -/
def readSign : JsString → Bool × JsString
  | [] => (false, [])
  | u :: s => if u = 0x2D then (true, s) else if u = 0x2B then (false, s) else (false, u :: s)

/-- The integer that a text begins with. -/
def leadingInteger (text : JsString) : Option ℤ :=
  let signed := readSign (text.dropWhile isWhiteSpace)
  let digits := signed.2.takeWhile isDigit
  if digits = [] then none
  else some (if signed.1 then -(digitsValue digits : ℤ) else digitsValue digits)

/-- `parseInt(text, 10)`. -/
def parseInt (text : JsString) : Binary64 := (leadingInteger text).elim .nan .ofInt

example : leadingInteger (js " -12.5") = some (-12) := by decide

/-- A digit is neither skipped nor a sign. -/
theorem readSign_of_isDigit {u : UInt16} (hu : isDigit u = true) (s : JsString) :
    readSign ((u :: s).dropWhile isWhiteSpace) = (false, u :: s) := by
  have hall : ∀ m : Fin 10, isWhiteSpace (decimalDigit m) = false ∧ decimalDigit m ≠ 0x2D ∧
      decimalDigit m ≠ 0x2B := by decide
  obtain ⟨hspace, hminus, hplus⟩ : isWhiteSpace u = false ∧ u ≠ 0x2D ∧ u ≠ 0x2B := by
    rw [← decimalDigit_of_isDigit hu 0]
    simpa [decimalDigit] using hall ⟨(u.toNat - 0x30) % 10, Nat.mod_lt _ (by decide)⟩
  rw [List.dropWhile_cons_of_neg (by simp [hspace]), readSign, if_neg hminus, if_neg hplus]

/-- What follows the digits is not looked at. -/
theorem leadingInteger_append {digits rest : JsString} (hne : digits ≠ [])
    (hdigits : digits.all isDigit = true) (hrest : ∀ u ∈ rest.head?, isDigit u = false) :
    leadingInteger (digits ++ rest) = some (digitsValue digits : ℤ) := by
  have hspan : (digits ++ rest).takeWhile isDigit = digits := by
    rw [List.takeWhile_append_of_pos (List.all_eq_true.mp hdigits)]
    cases rest with
    | nil => exact List.append_nil digits
    | cons v rest =>
      rw [List.takeWhile_cons_of_neg (by simp [hrest v rfl]), List.append_nil]
  obtain ⟨u, s, rfl⟩ := List.exists_cons_of_ne_nil hne
  have hu : isDigit u = true := List.all_eq_true.mp hdigits u (by simp)
  have hsigned := readSign_of_isDigit hu (s ++ rest)
  simp only [leadingInteger, List.cons_append] at hspan ⊢
  rw [hsigned, hspan, if_neg hne, if_neg Bool.false_ne_true]

/-- Reading a padded number. -/
theorem leadingInteger_padded {width n : ℕ} (hwidth : width ≠ 0) (hn : n < 10 ^ width) :
    leadingInteger (padded width n) = some (n : ℤ) := by
  have hne : padded width n ≠ [] := by
    rw [← List.length_pos_iff, length_padded]
    exact Nat.pos_of_ne_zero hwidth
  have hdigits : (padded width n).all isDigit = true :=
    List.all_eq_true.mpr fun u hu => isDigit_of_mem_padded hu
  have hread := @leadingInteger_append _ [] hne hdigits (by simp)
  rwa [List.append_nil, digitsValue_padded hn] at hread

/-- A sign is read from what is in front of a code unit that is none. -/
theorem readSign_append_cons {u : UInt16} (hminus : u ≠ 0x2D) (hplus : u ≠ 0x2B)
    (s t : JsString) :
    readSign (s ++ u :: t) = ((readSign s).1, (readSign s).2 ++ u :: t) := by
  cases s with
  | nil =>
    have hnone : readSign (u :: t) = (false, u :: t) := by
      rw [readSign, if_neg hminus, if_neg hplus]
    exact hnone
  | cons v s =>
    rw [List.cons_append, readSign, readSign]
    split_ifs <;> rfl

/-- Of several texts with commas between them it is the first that is read. -/
theorem leadingInteger_joinWith (text : JsString) (texts : List JsString) :
    leadingInteger (joinWith 0x2C (text :: texts)) = leadingInteger text := by
  cases texts with
  | nil => rfl
  | cons next texts =>
    have hspace : ∀ s t : JsString,
        (s ++ 0x2C :: t).dropWhile isWhiteSpace = s.dropWhile isWhiteSpace ++ 0x2C :: t := by
      intro s t
      rw [List.dropWhile_append]
      split
      case isTrue hempty =>
        rw [List.isEmpty_iff.mp hempty]
        rfl
      case isFalse => rfl
    have hdigit : ∀ s t : JsString, (s ++ 0x2C :: t).takeWhile isDigit = s.takeWhile isDigit := by
      intro s t
      rw [List.takeWhile_append]
      split
      case isTrue hlength =>
        have hall := (List.takeWhile_prefix isDigit).eq_of_length hlength
        rw [hall]
        exact List.append_nil s
      case isFalse => rfl
    rw [joinWith_cons_cons, leadingInteger, leadingInteger, hspace,
      readSign_append_cons (by decide) (by decide), hdigit]

end TamperEvidentLog.Text
