/-
# Dates and their ISO 8601 text

A valid ECMAScript `Date` is a number of milliseconds since the epoch within
one hundred million days of it. `toISOString` writes it in the proleptic
Gregorian calendar with fixed-width fields; years outside 0000 to 9999 take a
sign and six digits.

Two properties of the text matter to whoever concatenates it with other texts:
different dates have different texts, and the text is made of digits, `-`, `+`,
`:`, `.`, `T` and `Z` only.
-/

import TamperEvidentLog.Text.Digits

namespace TamperEvidentLog.Time

open TamperEvidentLog.Text

/-- A valid `Date`. -/
@[ext]
structure JsDate where
  /-- Milliseconds since the epoch. -/
  ms : Int
  /-- Not before the earliest time value. -/
  lower : -8640000000000000 ≤ ms
  /-- Not after the latest time value. -/
  upper : ms ≤ 8640000000000000
  deriving DecidableEq

/-- The time value 0. -/
def JsDate.epoch : JsDate := ⟨0, by decide, by decide⟩

/-! ## The calendar -/

/-- The day number of the first day of a year (`DayFromYear`). -/
def dayFromYear (y : Int) : Int :=
  365 * (y - 1970) + (y - 1969) / 4 - (y - 1901) / 100 + (y - 1601) / 400

/-- The year a day lies in (`YearFromTime`): an estimate from the mean length
of a year, corrected by at most one. -/
def yearFromDay (day : Int) : Int :=
  let y := 1970 + 400 * day / 146097
  if dayFromYear (y + 1) ≤ day then y + 1
  else if day < dayFromYear y then y - 1
  else y

theorem dayFromYear_yearFromDay_le (day : Int) : dayFromYear (yearFromDay day) ≤ day := by
  simp only [yearFromDay]
  split
  case isTrue hnext => exact hnext
  case isFalse =>
    split
    case isTrue =>
      unfold dayFromYear
      omega
    case isFalse hthis => omega

theorem lt_dayFromYear_yearFromDay_succ (day : Int) :
    day < dayFromYear (yearFromDay day + 1) := by
  simp only [yearFromDay]
  split
  case isTrue =>
    unfold dayFromYear
    omega
  case isFalse hnext =>
    split
    case isTrue hthis =>
      rw [Int.sub_add_cancel]
      exact hthis
    case isFalse => omega

/-- One in a leap year, zero otherwise. -/
def leapDays (y : Int) : Int := dayFromYear (y + 1) - dayFromYear y - 365

theorem leapDays_bounds (y : Int) : 0 ≤ leapDays y ∧ leapDays y ≤ 1 := by
  unfold leapDays dayFromYear
  omega

/-- The lengths of the months. -/
def monthLengths (leap : Int) : List Int :=
  [31, 28 + leap, 31, 30, 31, 30, 31, 31, 30, 31, 30, 31]

/-- Walk the months from number `month` on: the month a day falls into and the
days of it that passed before. -/
def monthFromDay : List Int → Nat → Int → Nat × Int
  | length :: lengths, month, day =>
    if day < length then (month, day) else monthFromDay lengths (month + 1) (day - length)
  | [], month, day => (month, day)

/-- A day within these months falls into one of them, behind the months walked
before it. -/
theorem monthFromDay_spec {lengths : List Int} (month : Nat) (day : Int) (hfirst : 0 ≤ day)
    (hlast : day < lengths.sum) (hlengths : ∀ length ∈ lengths, length ≤ 31) :
    month ≤ (monthFromDay lengths month day).1 ∧
      (monthFromDay lengths month day).1 < month + lengths.length ∧
      0 ≤ (monthFromDay lengths month day).2 ∧ (monthFromDay lengths month day).2 < 31 ∧
      day = (lengths.take ((monthFromDay lengths month day).1 - month)).sum +
        (monthFromDay lengths month day).2 := by
  induction lengths generalizing month day with
  | nil =>
    rw [List.sum_nil] at hlast
    omega
  | cons length lengths ih =>
    have hlength := hlengths length (by simp)
    rw [List.sum_cons] at hlast
    rw [monthFromDay]
    split
    case isTrue hday => simpa using ⟨hfirst, by omega⟩
    case isFalse hday =>
      obtain ⟨hmonth, hbound, hlow, hhigh, hsum⟩ := ih (month + 1) (day - length)
        (by omega) (by omega) fun l hl => hlengths l (by simp [hl])
      refine ⟨by omega, by simp only [List.length_cons]; omega, hlow, hhigh, ?_⟩
      obtain ⟨k, hk⟩ := Nat.exists_eq_add_of_le hmonth
      rw [hk] at hsum ⊢
      rw [show month + 1 + k - month = k + 1 by omega, List.take_succ_cons, List.sum_cons]
      rw [show month + 1 + k - (month + 1) = k by omega] at hsum
      omega

theorem monthFromDay_monthLengths {leap day : Int} (hleap : 0 ≤ leap ∧ leap ≤ 1)
    (hday : 0 ≤ day ∧ day < 365 + leap) :
    1 ≤ (monthFromDay (monthLengths leap) 1 day).1 ∧
      (monthFromDay (monthLengths leap) 1 day).1 ≤ 12 ∧
      0 ≤ (monthFromDay (monthLengths leap) 1 day).2 ∧
      (monthFromDay (monthLengths leap) 1 day).2 < 31 ∧
      day = ((monthLengths leap).take ((monthFromDay (monthLengths leap) 1 day).1 - 1)).sum +
        (monthFromDay (monthLengths leap) 1 day).2 := by
  have hlengths : ∀ length ∈ monthLengths leap, length ≤ 31 := by
    simp only [monthLengths, List.mem_cons, List.not_mem_nil, or_false]
    omega
  have hsum : day < (monthLengths leap).sum := by
    simp only [monthLengths, List.sum_cons, List.sum_nil]
    omega
  obtain ⟨hlow, hhigh, hrest⟩ := monthFromDay_spec 1 _ hday.1 hsum hlengths
  exact ⟨hlow, Nat.le_of_lt_succ hhigh, hrest⟩

/-- The calendar and clock fields of a date, in UTC. -/
@[ext]
structure Civil where
  year : Int
  month : Nat
  day : Nat
  hour : Nat
  minute : Nat
  second : Nat
  millisecond : Nat

/-- Every field but the year fits its width. -/
structure Civil.InRange (c : Civil) : Prop where
  year : c.year.natAbs < 10 ^ 6
  month : c.month < 10 ^ 2
  day : c.day < 10 ^ 2
  hour : c.hour < 10 ^ 2
  minute : c.minute < 10 ^ 2
  second : c.second < 10 ^ 2
  millisecond : c.millisecond < 10 ^ 3

namespace JsDate

/-- The fields of a date. -/
def civil (d : JsDate) : Civil :=
  let day := d.ms / 86400000
  let time := (d.ms % 86400000).toNat
  let year := yearFromDay day
  let month := monthFromDay (monthLengths (leapDays year)) 1 (day - dayFromYear year)
  { year
    month := month.1
    day := month.2.toNat + 1
    hour := time / 3600000
    minute := time / 60000 % 60
    second := time / 1000 % 60
    millisecond := time % 1000 }

/-- A day of a year is one of its days. -/
theorem dayInYear_bounds (day : Int) :
    0 ≤ day - dayFromYear (yearFromDay day) ∧
      day - dayFromYear (yearFromDay day) < 365 + leapDays (yearFromDay day) := by
  have hlow := dayFromYear_yearFromDay_le day
  have hhigh := lt_dayFromYear_yearFromDay_succ day
  unfold leapDays
  omega

/-- The day number, from the fields. -/
theorem day_eq_of_civil (d : JsDate) :
    d.ms / 86400000 = dayFromYear d.civil.year +
      ((monthLengths (leapDays d.civil.year)).take (d.civil.month - 1)).sum +
        d.civil.day - 1 := by
  simp only [civil]
  obtain ⟨_, _, hlow, _, hsum⟩ := monthFromDay_monthLengths
    (leapDays_bounds _) (dayInYear_bounds (d.ms / 86400000))
  omega

/-- The time within the day, from the fields. -/
theorem time_eq_of_civil (d : JsDate) :
    d.ms % 86400000 = d.civil.hour * 3600000 + d.civil.minute * 60000 +
      d.civil.second * 1000 + d.civil.millisecond := by
  simp only [civil]
  omega

/-- The fields determine the date. -/
theorem civil_injective : Function.Injective civil := by
  intro first second hcivil
  have hday := day_eq_of_civil first
  have htime := time_eq_of_civil first
  rw [hcivil, ← day_eq_of_civil second] at hday
  rw [hcivil, ← time_eq_of_civil second] at htime
  apply JsDate.ext
  omega

theorem civil_inRange (d : JsDate) : d.civil.InRange := by
  have hlower := d.lower
  have hupper := d.upper
  obtain ⟨_, hmonth, _, hday, _⟩ := monthFromDay_monthLengths
    (leapDays_bounds _) (dayInYear_bounds (d.ms / 86400000))
  constructor <;> simp only [civil]
  case year =>
    have hlow := dayFromYear_yearFromDay_le (d.ms / 86400000)
    have hhigh := lt_dayFromYear_yearFromDay_succ (d.ms / 86400000)
    unfold dayFromYear at hlow hhigh
    omega
  all_goals omega

end JsDate

/-! ## The text -/

/-- The year of an ISO 8601 text: four digits, or a sign and six. -/
def yearText (year : Int) : JsString :=
  if 0 ≤ year ∧ year ≤ 9999 then padded 4 year.natAbs
  else (if year < 0 then 0x2D else 0x2B) :: padded 6 year.natAbs

/-- The fields behind the year. -/
def Civil.tail (c : Civil) : JsString :=
  0x2D :: padded 2 c.month ++ 0x2D :: padded 2 c.day ++ 0x54 :: padded 2 c.hour ++
    0x3A :: padded 2 c.minute ++ 0x3A :: padded 2 c.second ++
    0x2E :: padded 3 c.millisecond ++ [0x5A]

theorem Civil.length_tail (c : Civil) : c.tail.length = 20 := by
  simp [Civil.tail]

theorem Civil.tail_inj {c e : Civil} (hc : c.InRange) (he : e.InRange) (h : c.tail = e.tail) :
    c.month = e.month ∧ c.day = e.day ∧ c.hour = e.hour ∧ c.minute = e.minute ∧
      c.second = e.second ∧ c.millisecond = e.millisecond := by
  have split {a b : JsString} {u : UInt16} {s t : JsString} (hlength : a.length = b.length)
      (hequal : a ++ u :: s = b ++ u :: t) : a = b ∧ s = t := by
    obtain ⟨hinit, hrest⟩ := List.append_inj hequal hlength
    exact ⟨hinit, (List.cons.inj hrest).2⟩
  simp only [Civil.tail, List.append_assoc, List.cons_append] at h
  obtain ⟨hmonth, h⟩ := split (by simp) (List.cons.inj h).2
  obtain ⟨hday, h⟩ := split (by simp) h
  obtain ⟨hhour, h⟩ := split (by simp) h
  obtain ⟨hminute, h⟩ := split (by simp) h
  obtain ⟨hsecond, h⟩ := split (by simp) h
  obtain ⟨hms, _⟩ := split (by simp) h
  exact ⟨padded_inj hc.month he.month hmonth, padded_inj hc.day he.day hday,
    padded_inj hc.hour he.hour hhour, padded_inj hc.minute he.minute hminute,
    padded_inj hc.second he.second hsecond, padded_inj hc.millisecond he.millisecond hms⟩

theorem yearText_inj {y z : Int} (hy : y.natAbs < 10 ^ 6) (hz : z.natAbs < 10 ^ 6)
    (h : yearText y = yearText z) : y = z := by
  have hlength := congrArg List.length h
  unfold yearText at h hlength
  split_ifs at h hlength with hy4 hyneg hz4 hzneg hz4 hzneg hzneg
  all_goals simp only [List.length_cons, length_padded] at hlength
  all_goals try omega
  · have habs := padded_inj (by omega) (by omega) h
    omega
  all_goals obtain ⟨hsign, hdigits⟩ := List.cons.inj h
  all_goals try exact absurd hsign (by decide)
  all_goals have habs := padded_inj hy hz hdigits
  all_goals omega

namespace JsDate

/-- `date.toISOString()`. -/
def toISOString (d : JsDate) : JsString := yearText d.civil.year ++ d.civil.tail

/-- Different dates have different texts. -/
theorem toISOString_injective : Function.Injective toISOString := by
  intro first second h
  have hfirst := first.civil_inRange
  have hsecond := second.civil_inRange
  obtain ⟨hyear, htail⟩ := List.append_inj' h (by simp only [Civil.length_tail])
  obtain ⟨hmonth, hday, hhour, hminute, hsec, hms⟩ := Civil.tail_inj hfirst hsecond htail
  exact civil_injective (Civil.ext (yearText_inj hfirst.year hsecond.year hyear) hmonth hday
    hhour hminute hsec hms)

theorem toISOString_ne_nil (d : JsDate) : d.toISOString ≠ [] := by
  intro hnil
  have htail := congrArg List.length (List.append_eq_nil_iff.mp hnil).2
  rw [Civil.length_tail] at htail
  cases htail

/-- What a text of a date is made of. -/
def isIsoUnit (u : UInt16) : Bool :=
  isDigit u || u = 0x2D || u = 0x2B || u = 0x54 || u = 0x3A || u = 0x2E || u = 0x5A

theorem isIsoUnit_of_mem_toISOString {d : JsDate} {u : UInt16} (hu : u ∈ d.toISOString) :
    isIsoUnit u = true := by
  have hdigits {width n : Nat} (hmem : u ∈ padded width n) : isIsoUnit u = true := by
    simp [isIsoUnit, isDigit_of_mem_padded hmem]
  simp only [toISOString, yearText, Civil.tail, List.mem_append, List.mem_cons,
    List.not_mem_nil, or_false] at hu
  rcases hu with hu | hu
  · split_ifs at hu
    · exact hdigits hu
    · rcases List.mem_cons.mp hu with rfl | hu
      · decide
      · exact hdigits hu
    · rcases List.mem_cons.mp hu with rfl | hu
      · decide
      · exact hdigits hu
  · rcases hu with (((((((rfl | hu) | rfl | hu) | rfl | hu) | rfl | hu) | rfl | hu) | rfl | hu) | rfl)
    all_goals first | exact hdigits hu | decide

theorem isAscii_of_isIsoUnit {u : UInt16} (hu : isIsoUnit u = true) : isAscii u = true := by
  simp only [isIsoUnit, Bool.or_eq_true, decide_eq_true_eq] at hu
  rcases hu with ((((((hu | rfl) | rfl) | rfl) | rfl) | rfl) | rfl)
  · exact isAscii_of_isDigit hu
  all_goals decide

example : toISOString ⟨1705312800000, by decide, by decide⟩ = js "2024-01-15T10:00:00.000Z" := by
  decide

end JsDate

end TamperEvidentLog.Time
