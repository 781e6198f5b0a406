/-
# Reading a date from its ISO 8601 text

What comes in as a time stamp is checked by its shape first: digits in the right
places, an arbitrary number of them behind the point, and a final `Z`. Only then
`new Date` looks at the numbers, and it may find one out of its range.

`Date` counts whole milliseconds and drops the digits behind the third. The
instant that a text denotes is therefore at or behind the date made of it, by
less than a millisecond.
-/

import TamperEvidentLog.Text.ParseInt
import TamperEvidentLog.Time.IsoDate

namespace TamperEvidentLog.Time

open TamperEvidentLog.Text

/-! ## The shape -/

/-- The numbers that a time stamp is written with. -/
structure DateTime where
  year : Nat
  month : Nat
  day : Nat
  hour : Nat
  minute : Nat
  second : Nat
  /-- The digits behind the point, none if there is no point. -/
  fraction : JsString
  deriving DecidableEq

/-- The number that the first `width` digits stand for, and what follows
them. -/
def readDigits (width : Nat) (s : JsString) : Option (Nat × JsString) :=
  if width ≤ s.length ∧ (s.take width).all isDigit then
    some (digitsValue (s.take width), s.drop width)
  else none

/-- What follows this code unit. -/
def readUnit (u : UInt16) : JsString → Option JsString
  | [] => none
  | v :: s => if v = u then some s else none

/-- The digits behind a point, if there is one, and what follows them. -/
def readFraction : JsString → Option (JsString × JsString)
  | [] => some ([], [])
  | u :: s =>
    if u = 0x2E then
      if (s.takeWhile isDigit).isEmpty then none
      else some (s.takeWhile isDigit, s.dropWhile isDigit)
    else some ([], u :: s)

/-- A text of the shape `dddd-dd-ddTdd:dd:dd`, optionally a point and digits, and
a final `Z`. -/
def DateTime.parse (text : JsString) : Option DateTime := do
  let (year, s) ← readDigits 4 text
  let (month, s) ← readDigits 2 (← readUnit 0x2D s)
  let (day, s) ← readDigits 2 (← readUnit 0x2D s)
  let (hour, s) ← readDigits 2 (← readUnit 0x54 s)
  let (minute, s) ← readDigits 2 (← readUnit 0x3A s)
  let (second, s) ← readDigits 2 (← readUnit 0x3A s)
  let (fraction, s) ← readFraction s
  if s = [0x5A] then some ⟨year, month, day, hour, minute, second, fraction⟩ else none

/-! ## Reading the parts -/

theorem readDigits_eq_some_iff {width n : Nat} {s rest : JsString} :
    readDigits width s = some (n, rest) ↔ n < 10 ^ width ∧ s = padded width n ++ rest := by
  unfold readDigits
  constructor
  · intro hread
    split at hread
    case isTrue hshape =>
      have hlength : (s.take width).length = width := by simp [hshape.1]
      obtain ⟨hlt, hpadded⟩ := padded_digitsValue hshape.2
      cases hread
      rw [hlength] at hlt hpadded
      exact ⟨hlt, by rw [hpadded, List.take_append_drop]⟩
    case isFalse => cases hread
  · rintro ⟨hn, rfl⟩
    have htake : (padded width n ++ rest).take width = padded width n :=
      List.take_left' (length_padded ..)
    have hall : (padded width n).all isDigit = true :=
      List.all_eq_true.mpr fun u hu => isDigit_of_mem_padded hu
    rw [htake, if_pos ⟨by simp, hall⟩, digitsValue_padded hn, List.drop_left' (length_padded ..)]

theorem readUnit_eq_some_iff {u : UInt16} {s rest : JsString} :
    readUnit u s = some rest ↔ s = u :: rest := by
  cases s with
  | nil => simp [readUnit]
  | cons v s =>
    rw [readUnit]
    split
    case isTrue hv => simp [hv, eq_comm]
    case isFalse hv => simp [hv]

/-- The text of a fraction. -/
def fractionText (fraction : JsString) : JsString :=
  if fraction = [] then [] else 0x2E :: fraction

/-- In front of a `Z`, a fraction is read from its text and from nothing else. -/
theorem readFraction_eq_some_iff {s digits : JsString} :
    readFraction s = some (digits, [0x5A]) ↔
      digits.all isDigit = true ∧ s = fractionText digits ++ [0x5A] := by
  constructor
  · intro hread
    cases s with
    | nil => cases hread
    | cons u s =>
      rw [readFraction] at hread
      split_ifs at hread with hpoint hempty
      · obtain ⟨hdigits, hrest⟩ := Prod.mk.inj (Option.some.inj hread)
        rw [List.isEmpty_iff, hdigits] at hempty
        refine ⟨List.all_eq_true.mpr fun v hv => ?_, ?_⟩
        · rw [← hdigits] at hv
          exact List.mem_takeWhile_imp hv
        · rw [fractionText, if_neg hempty, hpoint, ← hdigits, ← hrest, List.cons_append,
            List.takeWhile_append_dropWhile]
      · cases hread
        exact ⟨rfl, rfl⟩
  · rintro ⟨hdigits, rfl⟩
    have htake : (digits ++ [0x5A]).takeWhile isDigit = digits := by
      rw [List.takeWhile_append_of_pos (List.all_eq_true.mp hdigits)]
      simp [isDigit]
    have hdrop : (digits ++ [0x5A]).dropWhile isDigit = [0x5A] := by
      rw [List.dropWhile_append_of_pos (List.all_eq_true.mp hdigits)]
      rfl
    rw [fractionText]
    split
    case isTrue hempty =>
      rw [hempty]
      rfl
    case isFalse hempty =>
      rw [List.cons_append, readFraction, if_pos rfl, htake, hdrop, if_neg (by simpa using hempty)]

/-- The fields of a time stamp fit their widths. -/
structure DateTime.FitsShape (t : DateTime) : Prop where
  year : t.year < 10 ^ 4
  month : t.month < 10 ^ 2
  day : t.day < 10 ^ 2
  hour : t.hour < 10 ^ 2
  minute : t.minute < 10 ^ 2
  second : t.second < 10 ^ 2
  fraction : t.fraction.all isDigit = true

/-- The text of a time stamp. -/
def DateTime.toText (t : DateTime) : JsString :=
  padded 4 t.year ++ 0x2D :: (padded 2 t.month ++ 0x2D :: (padded 2 t.day ++
    0x54 :: (padded 2 t.hour ++ 0x3A :: (padded 2 t.minute ++ 0x3A :: (padded 2 t.second ++
      (fractionText t.fraction ++ [0x5A]))))))

/-- A time stamp is read from its text and from nothing else. -/
theorem DateTime.parse_eq_some_iff {text : JsString} {t : DateTime} :
    DateTime.parse text = some t ↔ t.FitsShape ∧ text = t.toText := by
  simp only [DateTime.parse, ↓Option.bind_eq_bind, ↓Option.bind_eq_some_iff, Prod.exists,
    readDigits_eq_some_iff, readUnit_eq_some_iff]
  constructor
  · rintro ⟨year, _, ⟨hyear, rfl⟩, _, rfl, month, _, ⟨hmonth, rfl⟩, _, rfl, day, _, ⟨hday, rfl⟩,
      _, rfl, hour, _, ⟨hhour, rfl⟩, _, rfl, minute, _, ⟨hminute, rfl⟩, _, rfl, second, _,
      ⟨hsecond, rfl⟩, fraction, _, hread, hend⟩
    split_ifs at hend with hZ
    cases hend
    rw [hZ, readFraction_eq_some_iff] at hread
    obtain ⟨hfraction, rfl⟩ := hread
    exact ⟨⟨hyear, hmonth, hday, hhour, hminute, hsecond, hfraction⟩, rfl⟩
  · rintro ⟨ht, rfl⟩
    exact ⟨t.year, _, ⟨ht.year, rfl⟩, _, rfl, t.month, _, ⟨ht.month, rfl⟩, _, rfl, t.day, _,
      ⟨ht.day, rfl⟩, _, rfl, t.hour, _, ⟨ht.hour, rfl⟩, _, rfl, t.minute, _, ⟨ht.minute, rfl⟩, _,
      rfl, t.second, _, ⟨ht.second, rfl⟩, t.fraction, _,
      readFraction_eq_some_iff.mpr ⟨ht.fraction, rfl⟩, if_pos rfl⟩

/-! ## Decimal fractions -/

/-- What digits behind a point stand for. -/
def fractionValue : JsString → ℚ
  | [] => 0
  | u :: s => ((u.toNat - 0x30 : Nat) + fractionValue s) / 10

theorem fractionValue_nonneg (s : JsString) : 0 ≤ fractionValue s := by
  induction s with
  | nil => exact le_rfl
  | cons u s ih =>
    rw [fractionValue]
    positivity

theorem fractionValue_lt_one {s : JsString} (hdigits : s.all isDigit = true) :
    fractionValue s < 1 := by
  induction s with
  | nil => exact zero_lt_one
  | cons u s ih =>
    rw [List.all_cons, Bool.and_eq_true] at hdigits
    have hu : ((u.toNat - 0x30 : Nat) : ℚ) ≤ 9 := by
      exact_mod_cast (toNat_of_isDigit hdigits.1).2
    have hs := ih hdigits.2
    rw [fractionValue, div_lt_one (by norm_num)]
    linarith

/-- Nothing but zeros. -/
def isZeros (s : JsString) : Bool := s.all fun u => u = 0x30

theorem fractionValue_eq_zero_iff {s : JsString} (hdigits : s.all isDigit = true) :
    fractionValue s = 0 ↔ isZeros s = true := by
  induction s with
  | nil => exact iff_of_true rfl rfl
  | cons u s ih =>
    rw [List.all_cons, Bool.and_eq_true] at hdigits
    have hu : u.toNat - 0x30 = 0 ↔ u = 0x30 := by
      have hdigit := hdigits.1
      simp only [isDigit, Bool.and_eq_true, decide_eq_true_eq, UInt16.le_iff_toNat_le,
        UInt16.reduceToNat] at hdigit
      rw [← UInt16.toNat_inj]
      simp only [UInt16.reduceToNat]
      omega
    rw [fractionValue, div_eq_zero_iff, or_iff_left (by norm_num),
      add_eq_zero_iff_of_nonneg (Nat.cast_nonneg _) (fractionValue_nonneg s), ih hdigits.2,
      Nat.cast_eq_zero, hu]
    simp [isZeros]

/-- The first three digits, zeros where there are fewer. -/
def millisecondOf (fraction : JsString) : Nat :=
  digitsValue ((fraction ++ [0x30, 0x30, 0x30]).take 3)

theorem millisecondOf_lt {fraction : JsString} (hdigits : fraction.all isDigit = true) :
    millisecondOf fraction < 1000 := by
  have hall : ((fraction ++ [0x30, 0x30, 0x30]).take 3).all isDigit = true := by
    rw [List.all_eq_true] at hdigits ⊢
    intro u hu
    rcases List.mem_append.mp (List.mem_of_mem_take hu) with hu | hu
    · exact hdigits u hu
    · simp only [List.mem_cons, List.not_mem_nil, or_false, or_self] at hu
      rw [hu]
      decide
  have hlt := (padded_digitsValue hall).1
  rwa [List.length_take, min_eq_left (by simp)] at hlt

/-- The digits behind the third are what the milliseconds leave of the
fraction. -/
theorem fractionValue_eq (fraction : JsString) :
    1000 * fractionValue fraction =
      millisecondOf fraction + fractionValue (fraction.drop 3) := by
  match fraction with
  | [] => simp [fractionValue, millisecondOf, digitsValue]
  | [a] =>
    simp [fractionValue, millisecondOf, digitsValue]
    ring
  | [a, b] =>
    simp [fractionValue, millisecondOf, digitsValue]
    ring
  | a :: b :: c :: rest =>
    simp [fractionValue, millisecondOf, digitsValue]
    ring

/-! ## The range -/

namespace DateTime

variable {t : DateTime}

/-- The milliseconds that `Date` keeps. -/
def millisecond (t : DateTime) : Nat := millisecondOf t.fraction

/-- The last day of the month. -/
def lastDay (t : DateTime) : Int := (monthLengths (leapDays t.year)).getD (t.month - 1) 0

/-- The day number. -/
def dayNumber (t : DateTime) : Int :=
  dayFromYear t.year + ((monthLengths (leapDays t.year)).take (t.month - 1)).sum + t.day - 1

/-- The number of seconds since the epoch. -/
def seconds (t : DateTime) : Int :=
  t.dayNumber * 86400 + t.hour * 3600 + t.minute * 60 + t.second

/-- The time value: whole milliseconds since the epoch. -/
def timeValue (t : DateTime) : Int := t.seconds * 1000 + t.millisecond

/-- The instant that the text denotes, in milliseconds since the epoch. -/
def instant (t : DateTime) : ℚ := t.seconds * 1000 + 1000 * fractionValue t.fraction

/-- The time of day exists. The end of a day may be written as its hour 24, with
zeros behind it: any other digit there, also behind the third one of the fraction,
is refused. -/
def TimeInRange (t : DateTime) : Prop :=
  (t.hour ≤ 23 ∧ t.minute ≤ 59 ∧ t.second ≤ 59) ∨
    (t.hour = 24 ∧ t.minute = 0 ∧ t.second = 0 ∧ isZeros t.fraction = true)

/-- The numbers of a time stamp are in their ranges. Engines differ in whether
the days behind the last one of a month, up to the 31st, roll over into the
next month. -/
def InRange (rollsOver : Bool) (t : DateTime) : Prop :=
  (1 ≤ t.month ∧ t.month ≤ 12) ∧ (1 ≤ t.day ∧ t.day ≤ if rollsOver then 31 else t.lastDay) ∧
    t.TimeInRange

instance (t : DateTime) : Decidable t.TimeInRange := inferInstanceAs (Decidable (_ ∨ _))

instance (rollsOver : Bool) (t : DateTime) : Decidable (t.InRange rollsOver) :=
  inferInstanceAs (Decidable (_ ∧ _))

theorem lastDay_le (t : DateTime) : t.lastDay ≤ 31 := by
  have hleap := leapDays_bounds t.year
  rw [lastDay, List.getD_eq_getElem?_getD]
  cases hget : (monthLengths (leapDays t.year))[t.month - 1]? with
  | none => decide
  | some length =>
    have hmem := List.mem_of_getElem? hget
    simp only [monthLengths, List.mem_cons, List.not_mem_nil, or_false] at hmem
    rw [Option.getD_some]
    omega

/-- A date of the calendar is in the range of every engine. -/
theorem InRange.of_calendar (ht : t.InRange false) (rollsOver : Bool) : t.InRange rollsOver := by
  obtain ⟨hmonth, ⟨hfirst, hlast⟩, htime⟩ := ht
  have hbound := t.lastDay_le
  refine ⟨hmonth, ⟨hfirst, ?_⟩, htime⟩
  cases rollsOver with
  | false => exact hlast
  | true => exact hlast.trans hbound

/-- The milliseconds are the whole part of the instant. -/
theorem instant_eq (t : DateTime) :
    t.instant = t.timeValue + fractionValue (t.fraction.drop 3) := by
  rw [instant, fractionValue_eq, timeValue, millisecond]
  push_cast
  ring

/-- There is nothing behind the milliseconds. -/
def isWhole (t : DateTime) : Bool := isZeros (t.fraction.drop 3)

theorem all_isDigit_drop (ht : t.FitsShape) : (t.fraction.drop 3).all isDigit = true := by
  rw [List.all_eq_true]
  exact fun u hu => List.all_eq_true.mp ht.fraction u (List.mem_of_mem_drop hu)

/-- A whole number of milliseconds is at or before the instant when it is at or
before the time value. -/
theorem le_instant_iff (ht : t.FitsShape) (ms : Int) : (ms : ℚ) ≤ t.instant ↔ ms ≤ t.timeValue := by
  have hlow := fractionValue_nonneg (t.fraction.drop 3)
  have hhigh := fractionValue_lt_one (all_isDigit_drop ht)
  rw [instant_eq]
  constructor
  · intro hle
    have hlt : (ms : ℚ) < (t.timeValue + 1 : Int) := by
      push_cast
      linarith
    exact Int.lt_add_one_iff.mp (Int.cast_lt.mp hlt)
  · intro hle
    have hcast : (ms : ℚ) ≤ t.timeValue := Int.cast_le.mpr hle
    linarith

/-- A whole number of milliseconds is at or behind the instant when it is at or
behind the time value, except for the time value itself if that is not the
instant. -/
theorem instant_le_iff (ht : t.FitsShape) (ms : Int) :
    t.instant ≤ ms ↔ t.timeValue ≤ ms ∧ (ms = t.timeValue → t.isWhole = true) := by
  have hlow := fractionValue_nonneg (t.fraction.drop 3)
  have hhigh := fractionValue_lt_one (all_isDigit_drop ht)
  rw [isWhole, ← fractionValue_eq_zero_iff (all_isDigit_drop ht), instant_eq]
  constructor
  · intro hle
    have hcast : (t.timeValue : ℚ) ≤ ms := by linarith
    refine ⟨Int.cast_le.mp hcast, ?_⟩
    rintro rfl
    linarith
  · rintro ⟨hle, hzero⟩
    rcases hle.eq_or_lt with hequal | hlt
    · rw [hzero hequal.symm, hequal, add_zero]
    · have hcast : ((t.timeValue + 1 : Int) : ℚ) ≤ ms := Int.cast_le.mpr hlt
      push_cast at hcast
      linarith

end DateTime

namespace DateTime

variable {t : DateTime}

theorem sum_take_monthLengths_bounds (year : Int) (k : Nat) :
    0 ≤ ((monthLengths (leapDays year)).take k).sum ∧
      ((monthLengths (leapDays year)).take k).sum ≤ 366 := by
  have hleap := leapDays_bounds year
  have hlengths : ∀ length ∈ monthLengths (leapDays year), 0 ≤ length := by
    simp only [monthLengths, List.mem_cons, List.not_mem_nil, or_false]
    omega
  have hsum : (monthLengths (leapDays year)).sum ≤ 366 := by
    simp only [monthLengths, List.sum_cons, List.sum_nil]
    omega
  exact ⟨List.sum_nonneg fun length hlength => hlengths length (List.mem_of_mem_take hlength),
    ((List.take_sublist k _).sum_le_sum hlengths).trans hsum⟩

/-- Four digits of a year do not lead out of the range of a date. -/
theorem timeValue_bounds (ht : t.FitsShape) :
    -8640000000000000 ≤ t.timeValue ∧ t.timeValue ≤ 8640000000000000 := by
  obtain ⟨hyear, _, hday, hhour, hminute, hsecond, hfraction⟩ := ht
  have hmillisecond : t.millisecond < 1000 := millisecondOf_lt hfraction
  have hmonths := sum_take_monthLengths_bounds t.year (t.month - 1)
  have hfirst : -800000 ≤ dayFromYear t.year ∧ dayFromYear t.year ≤ 3000000 := by
    unfold dayFromYear
    omega
  unfold timeValue seconds dayNumber
  omega

/-- The date of a time value, if it is one. -/
def timeClip (ms : Int) : Option JsDate :=
  if h : -8640000000000000 ≤ ms ∧ ms ≤ 8640000000000000 then some ⟨ms, h.1, h.2⟩ else none

/-- `new Date(...)`, where `none` is an Invalid Date. -/
def newDate (rollsOver : Bool) (t : DateTime) : Option JsDate :=
  if t.InRange rollsOver then timeClip t.timeValue else none

theorem newDate_eq_some_iff (ht : t.FitsShape) {rollsOver : Bool} {d : JsDate} :
    t.newDate rollsOver = some d ↔ t.InRange rollsOver ∧ d.ms = t.timeValue := by
  unfold newDate timeClip
  rw [dif_pos (timeValue_bounds ht)]
  split
  case isTrue hrange =>
    rw [Option.some_inj, JsDate.ext_iff, eq_comm]
    exact (and_iff_right hrange).symm
  case isFalse hrange => exact iff_of_false (fun h => nomatch h) fun h => hrange h.1

/-- A date is valid exactly when its numbers are in their ranges. -/
theorem isSome_newDate_iff (ht : t.FitsShape) {rollsOver : Bool} :
    (t.newDate rollsOver).isSome = true ↔ t.InRange rollsOver := by
  rw [Option.isSome_iff_exists]
  constructor
  · rintro ⟨d, hd⟩
    exact ((newDate_eq_some_iff ht).mp hd).1
  · intro hrange
    obtain ⟨hlower, hupper⟩ := timeValue_bounds ht
    exact ⟨⟨t.timeValue, hlower, hupper⟩, (newDate_eq_some_iff ht).mpr ⟨hrange, rfl⟩⟩

end DateTime

/-- A text with the shape of a time stamp. -/
structure DateTimeText where
  /-- The text. -/
  text : JsString
  /-- The numbers it is written with. -/
  fields : DateTime
  /-- They are read from the text. -/
  parse_text : DateTime.parse text = some fields

namespace DateTimeText

/-- `z.string().datetime()`. -/
def ofText (text : JsString) : Option DateTimeText :=
  match h : DateTime.parse text with
  | none => none
  | some fields => some ⟨text, fields, h⟩

@[simp]
theorem ofText_text (d : DateTimeText) : ofText d.text = some d := by
  obtain ⟨text, fields, hparse⟩ := d
  unfold ofText
  split
  case h_1 hnone =>
    rw [hparse] at hnone
    cases hnone
  case h_2 hsome =>
    rw [hparse] at hsome
    cases hsome
    rfl

/-- The text determines the numbers. -/
theorem eq_of_text_eq {d e : DateTimeText} (htext : d.text = e.text) : d = e := by
  rw [← Option.some_inj, ← ofText_text d, ← ofText_text e, htext]

theorem text_of_ofText {text : JsString} {d : DateTimeText} (hd : ofText text = some d) :
    d.text = text := by
  unfold ofText at hd
  split at hd
  case h_1 => cases hd
  case h_2 =>
    cases hd
    rfl

theorem fitsShape (d : DateTimeText) : d.fields.FitsShape :=
  (DateTime.parse_eq_some_iff.mp d.parse_text).1

/-- Such a text is not empty. -/
theorem text_ne_nil (d : DateTimeText) : d.text ≠ [] := by
  intro hnil
  have hparse := d.parse_text
  rw [hnil] at hparse
  cases hparse

end DateTimeText

/-! ## Reading back what `toISOString` writes -/

/-- The day that is left of the last month walked to is one of its days. -/
theorem monthFromDay_lt_length {lengths : List Int} (month : Nat) (day : Int)
    (hlast : day < lengths.sum) :
    ∃ k, (monthFromDay lengths month day).1 = month + k ∧
      (monthFromDay lengths month day).2 < lengths.getD k 0 := by
  induction lengths generalizing month day with
  | nil => exact ⟨0, rfl, hlast⟩
  | cons length lengths ih =>
    rw [monthFromDay]
    split
    case isTrue hday => exact ⟨0, rfl, hday⟩
    case isFalse hday =>
      rw [List.sum_cons] at hlast
      obtain ⟨k, hmonth, hlt⟩ := ih (month + 1) (day - length) (by omega)
      exact ⟨k + 1, by omega, hlt⟩

namespace DateTime

/-- The numbers that `toISOString` writes for a date. -/
def ofDate (d : JsDate) : DateTime where
  year := d.civil.year.toNat
  month := d.civil.month
  day := d.civil.day
  hour := d.civil.hour
  minute := d.civil.minute
  second := d.civil.second
  fraction := padded 3 d.civil.millisecond

variable {d : JsDate}

theorem fitsShape_ofDate (hyear : 0 ≤ d.civil.year ∧ d.civil.year ≤ 9999) :
    (ofDate d).FitsShape := by
  have hrange := d.civil_inRange
  refine ⟨?_, hrange.month, hrange.day, hrange.hour, hrange.minute, hrange.second, ?_⟩
  · simp only [ofDate]
    omega
  · exact List.all_eq_true.mpr fun u hu => isDigit_of_mem_padded hu

theorem toText_ofDate (hyear : 0 ≤ d.civil.year ∧ d.civil.year ≤ 9999) :
    (ofDate d).toText = d.toISOString := by
  have hfraction : padded 3 d.civil.millisecond ≠ [] := by
    intro hnil
    have hlength := length_padded 3 d.civil.millisecond
    rw [hnil] at hlength
    cases hlength
  have habs : d.civil.year.natAbs = d.civil.year.toNat := by omega
  rw [JsDate.toISOString, yearText, if_pos hyear, habs, Civil.tail, toText, ofDate, fractionText,
    if_neg hfraction]
  simp only [List.append_assoc, List.cons_append]

theorem millisecond_ofDate (d : JsDate) : (ofDate d).millisecond = d.civil.millisecond := by
  have htake : (padded 3 d.civil.millisecond ++ [0x30, 0x30, 0x30]).take 3 =
      padded 3 d.civil.millisecond := List.take_left' (length_padded ..)
  rw [millisecond, millisecondOf, ofDate, htake, digitsValue_padded d.civil_inRange.millisecond]

theorem timeValue_ofDate (hyear : 0 ≤ d.civil.year ∧ d.civil.year ≤ 9999) :
    (ofDate d).timeValue = d.ms := by
  have hday := d.day_eq_of_civil
  have htime := d.time_eq_of_civil
  have hyearNat : ((ofDate d).year : Int) = d.civil.year := Int.toNat_of_nonneg hyear.1
  rw [timeValue, seconds, dayNumber, millisecond_ofDate, hyearNat]
  simp only [ofDate]
  omega

theorem inRange_ofDate (hyear : 0 ≤ d.civil.year ∧ d.civil.year ≤ 9999) :
    (ofDate d).InRange false := by
  have hbounds := JsDate.dayInYear_bounds (d.ms / 86400000)
  have hyearNat : ((ofDate d).year : Int) = yearFromDay (d.ms / 86400000) :=
    Int.toNat_of_nonneg hyear.1
  have hsum : d.ms / 86400000 - dayFromYear (yearFromDay (d.ms / 86400000)) <
      (monthLengths (leapDays (yearFromDay (d.ms / 86400000)))).sum := by
    simp only [monthLengths, List.sum_cons, List.sum_nil]
    omega
  obtain ⟨hfirst, hlast, hlow, _⟩ := monthFromDay_monthLengths (leapDays_bounds _) hbounds
  obtain ⟨k, hmonth, hday⟩ := monthFromDay_lt_length 1 _ hsum
  refine ⟨⟨hfirst, hlast⟩, ⟨Nat.le_add_left 1 _, ?_⟩, Or.inl ?_⟩
  · have hindex : (ofDate d).month - 1 = k := by
      simp only [ofDate, JsDate.civil]
      omega
    rw [if_neg Bool.false_ne_true, lastDay, hyearNat, hindex]
    simp only [ofDate, JsDate.civil]
    omega
  · simp only [ofDate, JsDate.civil]
    omega

/-- Reading back the text of a date. -/
theorem parse_toISOString (hyear : 0 ≤ d.civil.year ∧ d.civil.year ≤ 9999) (rollsOver : Bool) :
    DateTime.parse d.toISOString = some (ofDate d) ∧ (ofDate d).newDate rollsOver = some d := by
  have hshape := fitsShape_ofDate hyear
  exact ⟨parse_eq_some_iff.mpr ⟨hshape, (toText_ofDate hyear).symm⟩,
    (newDate_eq_some_iff hshape).mpr
      ⟨(inRange_ofDate hyear).of_calendar rollsOver, (timeValue_ofDate hyear).symm⟩⟩

end DateTime

end TamperEvidentLog.Time
