/-
# Whole numbers in binary64

A binary64 number has 53 significant bits. A whole number that needs more is
rounded to the nearest one that does not, and halfway between two of them to the
one with an even significand; from `2 ^ 1024` on there is only infinity.

Sums, differences and products of whole numbers are whole numbers, so code that
does nothing else with its numbers stays within the ones of this file. The two
zeros are one value here.
-/

import Mathlib

namespace TamperEvidentLog.Number

/-! ## Rounding -/

/-- It takes no more than 53 significant bits to write the number. -/
def Representable (n : ℕ) : Prop := ∃ significand exponent, significand < 2 ^ 53 ∧
  n = significand * 2 ^ exponent

/-- The value of the last of the first 53 bits. -/
def lastPlace (n : ℕ) : ℕ := 2 ^ (n.log2 - 52)

/-- The nearest representable number, an even significand in doubt. -/
def roundNat (n : ℕ) : ℕ :=
  let quotient := n / lastPlace n
  let remainder := n % lastPlace n
  if 2 * remainder < lastPlace n ∨ (2 * remainder = lastPlace n ∧ quotient % 2 = 0) then
    quotient * lastPlace n
  else (quotient + 1) * lastPlace n

theorem lastPlace_pos (n : ℕ) : 0 < lastPlace n := Nat.two_pow_pos _

/-- The first 53 bits are 53 bits. -/
theorem div_lastPlace_lt (n : ℕ) : n / lastPlace n < 2 ^ 53 := by
  rw [Nat.div_lt_iff_lt_mul (lastPlace_pos n), lastPlace, ← pow_add]
  calc n < 2 ^ (n.log2 + 1) := Nat.lt_log2_self
    _ ≤ 2 ^ (53 + (n.log2 - 52)) := Nat.pow_le_pow_right (by decide) (by omega)

/-- Where bits are dropped, there are 53 that are not. -/
theorem lastPlace_eq_one_or_le (n : ℕ) : lastPlace n = 1 ∨ 2 ^ 52 * lastPlace n ≤ n := by
  by_cases hsmall : n.log2 ≤ 52
  · exact .inl (by rw [lastPlace, Nat.sub_eq_zero_of_le hsmall, pow_zero])
  · right
    have hne : n ≠ 0 := by
      rintro rfl
      exact hsmall (by decide)
    rw [lastPlace, ← pow_add, Nat.add_sub_cancel' (by omega)]
    exact Nat.log2_self_le hne

/-- No representable number lies between the two neighbours of a number. -/
theorem Representable.gap {a : ℕ} (ha : Representable a) (n : ℕ) :
    a ≤ n / lastPlace n * lastPlace n ∨ (n / lastPlace n + 1) * lastPlace n ≤ a := by
  obtain ⟨significand, exponent, hsignificand, rfl⟩ := ha
  by_cases hexponent : n.log2 - 52 ≤ exponent
  · -- It is a multiple of the last place.
    have hsplit : significand * 2 ^ exponent =
        significand * 2 ^ (exponent - (n.log2 - 52)) * lastPlace n := by
      rw [lastPlace, mul_assoc, ← pow_add, Nat.sub_add_cancel hexponent]
    rw [hsplit]
    rcases Nat.lt_or_ge (n / lastPlace n) (significand * 2 ^ (exponent - (n.log2 - 52))) with
      hlt | hle
    · exact .inr (Nat.mul_le_mul_right _ hlt)
    · exact .inl (Nat.mul_le_mul_right _ hle)
  · -- It is smaller than the numbers with this last place.
    left
    have hplace : 2 ^ 52 ≤ n / lastPlace n := by
      rw [Nat.le_div_iff_mul_le (lastPlace_pos n)]
      rcases lastPlace_eq_one_or_le n with hone | hle
      · rw [lastPlace] at hone
        have hzero := Nat.pow_right_injective le_rfl (hone.trans (pow_zero 2).symm)
        omega
      · exact hle
    calc significand * 2 ^ exponent
        ≤ 2 ^ 53 * 2 ^ exponent := Nat.mul_le_mul_right _ hsignificand.le
      _ = 2 ^ 52 * 2 ^ (exponent + 1) := by ring
      _ ≤ 2 ^ 52 * lastPlace n := Nat.mul_le_mul_left _ (Nat.pow_le_pow_right (by decide) (by omega))
      _ ≤ n / lastPlace n * lastPlace n := Nat.mul_le_mul_right _ hplace

/-- Rounding gives the lower neighbour, or the upper one if the number is not
the lower one itself. -/
theorem roundNat_cases (n : ℕ) :
    roundNat n = n / lastPlace n * lastPlace n ∨
      (roundNat n = (n / lastPlace n + 1) * lastPlace n ∧ n / lastPlace n * lastPlace n < n) := by
  simp only [roundNat]
  split
  case isTrue => exact .inl rfl
  case isFalse hup =>
    refine .inr ⟨rfl, ?_⟩
    have hsum := Nat.div_add_mod' n (lastPlace n)
    have hpos := lastPlace_pos n
    rw [not_or] at hup
    omega

theorem representable_roundNat (n : ℕ) : Representable (roundNat n) := by
  have hlt := div_lastPlace_lt n
  rcases roundNat_cases n with hdown | ⟨hup, _⟩
  · exact ⟨_, _, hlt, hdown⟩
  · rcases Nat.lt_or_ge (n / lastPlace n + 1) (2 ^ 53) with hfits | hcarry
    · exact ⟨_, _, hfits, hup⟩
    · -- The carry adds a bit in front; the last one is zero.
      have hfull : n / lastPlace n + 1 = 2 ^ 53 := by omega
      refine ⟨2 ^ 52, n.log2 - 52 + 1, by decide, ?_⟩
      rw [hup, hfull, lastPlace]
      ring

/-- Rounding does not lead below a representable number. -/
theorem Representable.le_roundNat {a n : ℕ} (ha : Representable a) (hle : a ≤ n) :
    a ≤ roundNat n := by
  have hlower : n < (n / lastPlace n + 1) * lastPlace n := by
    rw [mul_comm]
    exact Nat.lt_mul_div_succ n (lastPlace_pos n)
  have hbelow := (ha.gap n).resolve_right fun habove => absurd (habove.trans hle) hlower.not_ge
  rcases roundNat_cases n with hdown | ⟨hup, _⟩
  · exact hbelow.trans_eq hdown.symm
  · rw [hup]
    exact hbelow.trans (Nat.mul_le_mul_right _ (Nat.le_succ _))

/-- Rounding does not lead above a representable number. -/
theorem Representable.roundNat_le {a n : ℕ} (ha : Representable a) (hle : n ≤ a) :
    roundNat n ≤ a := by
  rcases roundNat_cases n with hdown | ⟨hup, hlt⟩
  · rw [hdown]
    exact (Nat.div_mul_le_self n _).trans hle
  · rw [hup]
    exact (ha.gap n).resolve_left fun hbelow => absurd (hle.trans hbelow) hlt.not_ge

/-- What is representable is not changed. -/
theorem Representable.roundNat_eq {n : ℕ} (hn : Representable n) : roundNat n = n :=
  (hn.roundNat_le le_rfl).antisymm (hn.le_roundNat le_rfl)

theorem representable_of_le {n : ℕ} (hn : n ≤ 2 ^ 53) : Representable n := by
  rcases hn.lt_or_eq with hlt | rfl
  · exact ⟨n, 0, hlt, (mul_one n).symm⟩
  · exact ⟨1, 53, by decide, (one_mul _).symm⟩

/-- Two numbers with nothing representable from the one to the other have the
same first 53 bits. -/
theorem lastPlace_eq_of_between {m n : ℕ} (hle : m ≤ n)
    (hnone : ∀ a, m ≤ a → a ≤ n → ¬ Representable a) :
    lastPlace m = lastPlace n ∧ m / lastPlace m = n / lastPlace n := by
  have hm : m ≠ 0 := by
    rintro rfl
    exact hnone 0 le_rfl hle (representable_of_le (Nat.zero_le _))
  have hn : n ≠ 0 := ((Nat.pos_of_ne_zero hm).trans_le hle).ne'
  have hplace : lastPlace m = lastPlace n := by
    by_contra hne
    have hbits : m.log2 < n.log2 := by
      refine ((Nat.le_log2 hn).mpr ((Nat.log2_self_le hm).trans hle)).lt_of_ne fun heq => hne ?_
      rw [lastPlace, heq, lastPlace]
    have habove : m ≤ 2 ^ n.log2 :=
      Nat.lt_log2_self.le.trans (Nat.pow_le_pow_right (by decide) hbits)
    exact hnone _ habove (Nat.log2_self_le hn) ⟨1, n.log2, by decide, (one_mul _).symm⟩
  refine ⟨hplace, ?_⟩
  rw [hplace]
  by_contra hne
  have hlt : m / lastPlace n < n / lastPlace n := (Nat.div_le_div_right hle).lt_of_ne hne
  have habove : m ≤ n / lastPlace n * lastPlace n := by
    rw [Nat.div_lt_iff_lt_mul (lastPlace_pos n)] at hlt
    exact hlt.le
  exact hnone _ habove (Nat.div_mul_le_self n _) ⟨_, _, div_lastPlace_lt n, rfl⟩

/-- **Rounding is monotone.** -/
theorem roundNat_mono {m n : ℕ} (hle : m ≤ n) : roundNat m ≤ roundNat n := by
  by_cases hbetween : ∃ a, m ≤ a ∧ a ≤ n ∧ Representable a
  · obtain ⟨a, hm, hn, ha⟩ := hbetween
    exact (ha.roundNat_le hm).trans (ha.le_roundNat hn)
  · have hnone : ∀ a, m ≤ a → a ≤ n → ¬ Representable a := fun a hm hn ha =>
      hbetween ⟨a, hm, hn, ha⟩
    obtain ⟨hplace, hquotient⟩ := lastPlace_eq_of_between hle hnone
    have hsum := Nat.div_add_mod' m (lastPlace m)
    have hsum' := Nat.div_add_mod' n (lastPlace n)
    rw [hquotient, hplace] at hsum
    have hremainder : m % lastPlace n ≤ n % lastPlace n := by omega
    have hstep := Nat.le_succ (n / lastPlace n)
    rw [roundNat, roundNat, hquotient, hplace]
    split
    case isTrue hdown =>
      split
      · exact le_rfl
      · exact Nat.mul_le_mul_right _ hstep
    case isFalse hup =>
      rw [if_neg (by omega)]

/-- The number that a whole number is rounded to. -/
def roundInt : ℤ → ℤ
  | .ofNat n => roundNat n
  | .negSucc n => -(roundNat (n + 1) : ℤ)

@[simp]
theorem natAbs_roundInt (n : ℤ) : (roundInt n).natAbs = roundNat n.natAbs := by
  cases n with
  | ofNat n => rfl
  | negSucc n => exact Int.natAbs_neg _

theorem roundInt_mono {m n : ℤ} (hle : m ≤ n) : roundInt m ≤ roundInt n := by
  cases m with
  | ofNat m =>
    obtain ⟨n, rfl⟩ := Int.eq_ofNat_of_zero_le ((Int.natCast_nonneg m).trans hle)
    exact Int.ofNat_le.mpr (roundNat_mono (Int.ofNat_le.mp hle))
  | negSucc m =>
    cases n with
    | ofNat n => exact Int.neg_natCast_le_natCast _ _
    | negSucc n =>
      have hle' : n + 1 ≤ m + 1 := by omega
      exact neg_le_neg (Int.ofNat_le.mpr (roundNat_mono hle'))

theorem roundInt_eq {n : ℤ} (hn : Representable n.natAbs) : roundInt n = n := by
  cases n with
  | ofNat n => exact congrArg Int.ofNat hn.roundNat_eq
  | negSucc n =>
    have hsame : roundNat (n + 1) = n + 1 := hn.roundNat_eq
    rw [roundInt, hsame]
    rfl

/-- Only 0 is rounded to 0. -/
theorem roundInt_eq_zero_iff {n : ℤ} : roundInt n = 0 ↔ n = 0 := by
  constructor
  · intro hzero
    have hone : roundInt 1 = 1 := roundInt_eq (representable_of_le (by decide))
    have hminus : roundInt (-1) = -1 := roundInt_eq (representable_of_le (by decide))
    by_contra hne
    rcases lt_or_gt_of_ne hne with hlt | hgt
    · have hle : roundInt n ≤ roundInt (-1) := roundInt_mono (by omega)
      omega
    · have hle : roundInt 1 ≤ roundInt n := roundInt_mono (by omega)
      omega
  · rintro rfl
    exact roundInt_eq (representable_of_le (by decide))

/-- Nothing leads back below `2 ^ 53`. -/
theorem le_roundInt {n : ℤ} (hn : 2 ^ 53 ≤ n) : 2 ^ 53 ≤ roundInt n := by
  have hsame : roundInt (2 ^ 53) = 2 ^ 53 := roundInt_eq (representable_of_le (by decide))
  exact hsame ▸ roundInt_mono hn

/-! ## Values -/

/-- From here on there is only infinity. -/
def limit : ℕ := 2 ^ 1024

theorem lt_limit : 2 ^ 53 < limit := by
  decide +kernel

attribute [irreducible] limit

/-- The finite whole numbers of binary64. -/
def IsFinite (n : ℤ) : Prop := Representable n.natAbs ∧ n.natAbs < limit

theorem isFinite_of_le {n : ℤ} (hn : n.natAbs ≤ 2 ^ 53) : IsFinite n :=
  ⟨representable_of_le hn, hn.trans_lt lt_limit⟩

theorem isFinite_roundInt {n : ℤ} (hn : (roundInt n).natAbs < limit) : IsFinite (roundInt n) :=
  ⟨natAbs_roundInt n ▸ representable_roundNat _, hn⟩

/-- A whole number in binary64, or what comes out where there is none. -/
inductive Binary64
  | /-- Not a number. -/
    nan
  | /-- Infinity, of either sign. -/
    infinity (negative : Bool)
  | /-- A whole number. -/
    finite (value : ℤ) (hvalue : IsFinite value)
  deriving DecidableEq

namespace Binary64

/-- The value of a whole number: rounded, and infinite where that is too
large. -/
def ofInt (n : ℤ) : Binary64 :=
  if hn : (roundInt n).natAbs < limit then .finite (roundInt n) (isFinite_roundInt hn)
  else .infinity (n < 0)

/-- The whole number, if it is one. -/
def finiteValue : Binary64 → Option ℤ
  | .finite value _ => some value
  | _ => none

/-- Where a value stands among the others: infinity is beyond all finite
ones. -/
def key : Binary64 → ℤ
  | .nan => 0
  | .infinity negative => if negative then -limit else limit
  | .finite value _ => value

@[simp]
theorem key_infinity (negative : Bool) :
    (infinity negative).key = if negative then -(limit : ℤ) else limit := rfl

@[simp]
theorem key_finite (value : ℤ) (hvalue : IsFinite value) : (finite value hvalue).key = value := rfl

/-- `Math.max(a, b)`. -/
def mathMax (a b : Binary64) : Binary64 :=
  if a = .nan ∨ b = .nan then .nan else if a.key ≤ b.key then b else a

/-- `Math.min(a, b)`. -/
def mathMin (a b : Binary64) : Binary64 :=
  if a = .nan ∨ b = .nan then .nan else if a.key ≤ b.key then a else b

/-- `a || b`. -/
def or : Binary64 → Binary64 → Binary64
  | .nan, b => b
  | .infinity negative, _ => .infinity negative
  | .finite value hvalue, b => if value = 0 then b else .finite value hvalue

/-- `a - b`. -/
def sub : Binary64 → Binary64 → Binary64
  | .nan, _ => .nan
  | _, .nan => .nan
  | .infinity a, .infinity b => if a = b then .nan else .infinity a
  | .infinity a, .finite _ _ => .infinity a
  | .finite _ _, .infinity b => .infinity !b
  | .finite a _, .finite b _ => .ofInt (a - b)

/-- `a * b`. -/
def mul : Binary64 → Binary64 → Binary64
  | .nan, _ => .nan
  | _, .nan => .nan
  | .infinity a, .infinity b => .infinity (a != b)
  | .infinity a, .finite b _ => if b = 0 then .nan else .infinity (a != decide (b < 0))
  | .finite a _, .infinity b => if a = 0 then .nan else .infinity (decide (a < 0) != b)
  | .finite a _, .finite b _ => .ofInt (a * b)

theorem eq_ofInt_of_finiteValue {a : Binary64} {n : ℤ} (ha : a.finiteValue = some n) :
    a = .ofInt n := by
  cases a with
  | nan => cases ha
  | infinity negative => cases ha
  | finite value hvalue =>
    cases ha
    have hsame := roundInt_eq hvalue.1
    rw [ofInt, dif_pos (by rw [hsame]; exact hvalue.2)]
    simp only [hsame]

theorem finiteValue_ofInt {n : ℤ} (hn : IsFinite n) : (ofInt n).finiteValue = some n := by
  have hsame := roundInt_eq hn.1
  rw [ofInt, dif_pos (by rw [hsame]; exact hn.2)]
  exact congrArg some hsame

theorem finiteValue_ofInt_of_le {n : ℤ} (hn : n.natAbs ≤ 2 ^ 53) :
    (ofInt n).finiteValue = some n :=
  finiteValue_ofInt (isFinite_of_le hn)

theorem roundInt_of_finiteValue {n p : ℤ} (hp : (ofInt n).finiteValue = some p) :
    roundInt n = p := by
  rw [ofInt] at hp
  split at hp
  case isTrue => exact Option.some.inj hp
  case isFalse => cases hp

theorem key_eq_of_finiteValue {a : Binary64} {n : ℤ} (ha : a.finiteValue = some n) :
    a.key = n := by
  cases a with
  | nan => cases ha
  | infinity negative => cases ha
  | finite value hvalue => exact Option.some.inj ha

theorem ofInt_ne_nan (n : ℤ) : ofInt n ≠ .nan := by
  rw [ofInt]
  split <;> exact Binary64.noConfusion

/-- Rounding, as far as there are numbers. -/
theorem key_ofInt (n : ℤ) : (ofInt n).key = max (-(limit : ℤ)) (min (limit : ℤ) (roundInt n)) := by
  have hnegative : n < 0 → roundInt n ≤ 0 := fun hn => roundInt_mono hn.le
  have hpositive : 0 ≤ n → 0 ≤ roundInt n := fun hn => roundInt_mono hn
  rw [ofInt]
  split
  case isTrue hn =>
    rw [key_finite]
    omega
  case isFalse hn =>
    rw [key_infinity]
    by_cases hsign : n < 0
    · rw [decide_eq_true hsign, if_pos rfl]
      omega
    · rw [decide_eq_false hsign, if_neg Bool.false_ne_true]
      omega

/-- Values are told apart by where they stand. -/
theorem eq_of_key_eq {a b : Binary64} (ha : a ≠ .nan) (hb : b ≠ .nan) (hkey : a.key = b.key) :
    a = b := by
  have hinfinite : ∀ negative value hvalue,
      (infinity negative).key ≠ (finite value hvalue).key := by
    intro negative value hvalue heq
    have hlt := hvalue.2
    rw [key_infinity, key_finite] at heq
    split at heq <;> omega
  cases a with
  | nan => exact absurd rfl ha
  | infinity negative =>
    cases b with
    | nan => exact absurd rfl hb
    | infinity negative' =>
      have hlimit := lt_limit
      cases negative <;> cases negative' <;> simp at hkey ⊢ <;> omega
    | finite value hvalue => exact absurd hkey (hinfinite _ _ _)
  | finite value hvalue =>
    cases b with
    | nan => exact absurd rfl hb
    | infinity negative => exact absurd hkey.symm (hinfinite _ _ _)
    | finite value' hvalue' =>
      obtain rfl : value = value' := hkey
      rfl

theorem key_ofInt_mono {m n : ℤ} (hle : m ≤ n) : (ofInt m).key ≤ (ofInt n).key := by
  rw [key_ofInt, key_ofInt]
  exact max_le_max_left _ (min_le_min_left _ (roundInt_mono hle))

/-- Rounding may come behind the larger of two numbers. -/
theorem ofInt_max (m n : ℤ) : ofInt (max m n) = (ofInt m).mathMax (ofInt n) := by
  rw [mathMax, if_neg (by simp [ofInt_ne_nan])]
  rcases le_total m n with hle | hle
  · rw [max_eq_right hle, if_pos (key_ofInt_mono hle)]
  · rw [max_eq_left hle]
    split
    case isTrue hge =>
      exact eq_of_key_eq (ofInt_ne_nan m) (ofInt_ne_nan n) (hge.antisymm (key_ofInt_mono hle))
    case isFalse => rfl

/-- Rounding may come behind the smaller of two numbers. -/
theorem ofInt_min (m n : ℤ) : ofInt (min m n) = (ofInt m).mathMin (ofInt n) := by
  rw [mathMin, if_neg (by simp [ofInt_ne_nan])]
  rcases le_total m n with hle | hle
  · rw [min_eq_left hle, if_pos (key_ofInt_mono hle)]
  · rw [min_eq_right hle]
    split
    case isTrue hge =>
      exact eq_of_key_eq (ofInt_ne_nan n) (ofInt_ne_nan m) ((key_ofInt_mono hle).antisymm hge)
    case isFalse => rfl

/-- What is rounded is falsy as it was before. -/
theorem ofInt_or (m n : ℤ) : (ofInt m).or (ofInt n) = ofInt (if m = 0 then n else m) := by
  by_cases hm : (roundInt m).natAbs < limit
  · have hfinite : ofInt m = .finite (roundInt m) _ := dif_pos hm
    have hor : (ofInt m).or (ofInt n) = if roundInt m = 0 then ofInt n else ofInt m := by
      rw [hfinite]
      rfl
    rw [hor, apply_ite ofInt]
    exact if_congr roundInt_eq_zero_iff rfl rfl
  · have hinfinite : ofInt m = .infinity (m < 0) := dif_neg hm
    have hne : m ≠ 0 := by
      rintro rfl
      exact hm ((Nat.zero_le _).trans_lt lt_limit)
    rw [if_neg hne, hinfinite]
    rfl

/-! ## Where arithmetic is exact -/

theorem sub_eq_ofInt {a b : Binary64} {m n : ℤ} (ha : a.finiteValue = some m)
    (hb : b.finiteValue = some n) : a.sub b = ofInt (m - n) := by
  cases a <;> cases ha
  cases b <;> cases hb
  rfl

theorem mul_eq_ofInt {a b : Binary64} {m n : ℤ} (ha : a.finiteValue = some m)
    (hb : b.finiteValue = some n) : a.mul b = ofInt (m * n) := by
  cases a <;> cases ha
  cases b <;> cases hb
  rfl

/-- A number that is not negative is rounded or has become infinite. -/
theorem ofInt_cases {n : ℤ} (hn : 0 ≤ n) :
    (ofInt n).finiteValue = some (roundInt n) ∨ ofInt n = infinity false := by
  rw [ofInt]
  split
  case isTrue => exact .inl rfl
  case isFalse => exact .inr (congrArg infinity (decide_eq_false hn.not_gt))

theorem le_key_ofInt {n : ℤ} (hn : 2 ^ 53 ≤ n) : 2 ^ 53 ≤ (ofInt n).key := by
  have hround := le_roundInt hn
  have hlimit := lt_limit
  rw [key_ofInt]
  omega

theorem le_key_infinity : 2 ^ 53 ≤ (infinity false).key := by
  have hlimit := lt_limit
  rw [key_infinity, if_neg Bool.false_ne_true]
  omega

theorem infinity_sub {b : Binary64} {n : ℤ} (hb : b.finiteValue = some n) :
    (infinity false).sub b = infinity false := by
  cases b <;> cases hb
  rfl

theorem infinity_mul {b : Binary64} {s : ℤ} (hb : b.finiteValue = some s) (hs : 1 ≤ s) :
    (infinity false).mul b = infinity false := by
  cases b with
  | nan => cases hb
  | infinity negative => cases hb
  | finite value hvalue =>
    cases hb
    rw [mul, if_neg (by omega), decide_eq_false (by omega)]
    rfl

/-- A product that is too large is not rounded to one that is not. -/
theorem le_key_mul {b : Binary64} {n s : ℤ} (hn : 0 ≤ n) (hb : b.finiteValue = some s)
    (hs : 1 ≤ s) (hproduct : 2 ^ 53 ≤ n * s) : 2 ^ 53 ≤ ((ofInt n).mul b).key := by
  rcases ofInt_cases hn with hfinite | hinfinite
  · rw [mul_eq_ofInt hfinite hb]
    apply le_key_ofInt
    rcases le_total n (2 ^ 53) with hsmall | hlarge
    · rwa [roundInt_eq (representable_of_le (by omega))]
    · have hround := le_roundInt hlarge
      calc (2 : ℤ) ^ 53 ≤ roundInt n := hround
        _ ≤ roundInt n * s := le_mul_of_one_le_right (by omega) hs
  · rw [hinfinite, infinity_mul hb hs]
    exact le_key_infinity

end Binary64

end TamperEvidentLog.Number
