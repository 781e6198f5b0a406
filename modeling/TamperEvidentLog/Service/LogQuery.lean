/-
# The page that a query asks for

`parsePagination` takes the two values as they come: absent, one text of any
length, or several texts. `pageSize` is clamped from both sides and `page` from
below, and `findAll` computes in binary64 how many rows there are in front of
the page.

All that binary64 does to the results of `parsePagination` is to round them, so
the page size is always what it is in exact arithmetic. Nothing keeps the page
from being so large that the number of rows in front of it is rounded, or
infinite. Different pages may then begin at the same row.
-/

import TamperEvidentLog.Text.ParseInt
import TamperEvidentLog.Service.Pagination

namespace TamperEvidentLog.Service

open TamperEvidentLog.Text TamperEvidentLog.Number

/-! ## Queries -/

/-- A parameter of a query. -/
inductive QueryValue
  | /-- It is not given. -/
    absent
  | /-- It is given once. -/
    text (s : JsString)
  | /-- It is given several times. -/
    texts (ss : List JsString)

/-- `String(value)`. -/
def QueryValue.toJsString : QueryValue → JsString
  | .absent => js "undefined"
  | .text s => s
  | .texts ss => joinWith 0x2C ss

/-- Of a parameter that is given several times the first text counts. -/
theorem parseInt_texts (text : JsString) (texts : List JsString) :
    parseInt (QueryValue.texts (text :: texts)).toJsString = parseInt text := by
  rw [QueryValue.toJsString, parseInt, leadingInteger_joinWith, parseInt]

/-- What `getLogs` finds in `req.query`. -/
structure LogQuery where
  /-- `req.query.page`. -/
  page : QueryValue
  /-- `req.query.pageSize`. -/
  pageSize : QueryValue

/-- The `skip` of `findAll(page, pageSize)`. -/
def skip (page pageSize : Binary64) : Binary64 := (page.sub (.ofInt 1)).mul pageSize

namespace LogQuery

/-- `parsePagination(query)`. -/
def parsePagination (query : LogQuery) : Binary64 × Binary64 :=
  (Binary64.mathMax (.ofInt 1) ((parseInt query.page.toJsString).or (.ofInt 1)),
    Binary64.mathMin (.ofInt 100)
      (Binary64.mathMax (.ofInt 1) ((parseInt query.pageSize.toJsString).or (.ofInt 20))))

/-- The number of rows that `getLogs` skips. -/
def skip (query : LogQuery) : Binary64 :=
  Service.skip query.parsePagination.1 query.parsePagination.2

/-- The page and its size in exact arithmetic. -/
def requested (query : LogQuery) : ℕ × ℕ :=
  Service.parsePagination (leadingInteger query.page.toJsString)
    (leadingInteger query.pageSize.toJsString)

theorem one_le_requested (query : LogQuery) :
    (1 : ℤ) ≤ query.requested.1 ∧ (1 : ℤ) ≤ query.requested.2 ∧ (query.requested.2 : ℤ) ≤ 100 := by
  have hbounds := parsePagination_bounds (leadingInteger query.page.toJsString)
    (leadingInteger query.pageSize.toJsString)
  rw [requested]
  omega

/-- Every page can be asked for, in every size up to 100. -/
theorem exists_requested {page pageSize : ℕ} (hpage : 1 ≤ page) (hone : 1 ≤ pageSize)
    (hle : pageSize ≤ 100) : ∃ query : LogQuery, query.requested = (page, pageSize) := by
  have hread : ∀ n : ℕ, 1 ≤ n → leadingInteger (padded n n) = some (n : ℤ) := fun n hn =>
    leadingInteger_padded (by omega) (Nat.lt_pow_self (by decide))
  refine ⟨⟨.text (padded page page), .text (padded pageSize pageSize)⟩, ?_⟩
  simp only [requested, QueryValue.toJsString, hread page hpage, hread pageSize hone,
    Service.parsePagination, parsedOr]
  ext <;> simp only <;> omega

theorem parseInt_or (text : JsString) (fallback : ℤ) :
    (parseInt text).or (.ofInt fallback) = .ofInt (parsedOr (leadingInteger text) fallback) := by
  rw [parseInt]
  cases leadingInteger text with
  | none => rfl
  | some n => exact Binary64.ofInt_or n fallback

/-- **The one difference to exact arithmetic** is that the results are
rounded. -/
theorem parsePagination_eq (query : LogQuery) :
    query.parsePagination = (.ofInt query.requested.1, .ofInt query.requested.2) := by
  rw [parsePagination, parseInt_or, parseInt_or, ← Binary64.ofInt_max, ← Binary64.ofInt_max,
    ← Binary64.ofInt_min, requested, Service.parsePagination]
  congr 2 <;> omega

/-- The page size is not rounded. -/
theorem finiteValue_pageSize (query : LogQuery) :
    query.parsePagination.2.finiteValue = some (query.requested.2 : ℤ) := by
  obtain ⟨_, hlow, hhigh⟩ := query.one_le_requested
  rw [parsePagination_eq]
  exact Binary64.finiteValue_ofInt_of_le (by omega)

/-! ## Rows in front of the page -/

section Skip

variable {pageSize : Binary64} {size : ℤ}

theorem finiteValue_one : (Binary64.ofInt 1).finiteValue = some 1 :=
  Binary64.finiteValue_ofInt_of_le (by decide)

/-- As long as there are fewer than `2 ^ 53` of them, they are counted
exactly. -/
theorem finiteValue_skip {page : Binary64} {p : ℤ} (hpage : page.finiteValue = some p)
    (hone : 1 ≤ p) (hpageSize : pageSize.finiteValue = some size) (hsize : 1 ≤ size)
    (hlt : (p - 1) * size < 2 ^ 53) :
    (Service.skip page pageSize).finiteValue = some ((p - 1) * size) := by
  have hnonneg : 0 ≤ (p - 1) * size := mul_nonneg (by omega) (by omega)
  have hbefore : p - 1 ≤ (p - 1) * size := le_mul_of_one_le_right (by omega) hsize
  have hsub : (page.sub (.ofInt 1)).finiteValue = some (p - 1) := by
    rw [Binary64.sub_eq_ofInt hpage finiteValue_one]
    exact Binary64.finiteValue_ofInt_of_le (by omega)
  rw [Service.skip, Binary64.mul_eq_ofInt hsub hpageSize]
  exact Binary64.finiteValue_ofInt_of_le (by omega)

/-- Otherwise they are never taken for fewer. -/
theorem le_key_skip {n : ℤ} (hone : 1 ≤ n) (hpageSize : pageSize.finiteValue = some size)
    (hsize : 1 ≤ size)
    (hbeyond : ∀ p, (Binary64.ofInt n).finiteValue = some p → 2 ^ 53 ≤ (p - 1) * size) :
    2 ^ 53 ≤ (Service.skip (.ofInt n) pageSize).key := by
  rcases Binary64.ofInt_cases (zero_le_one.trans hone) with hpage | hpage
  · have hround : 1 ≤ roundInt n := roundInt_mono hone
    rw [Service.skip, Binary64.sub_eq_ofInt hpage finiteValue_one]
    exact Binary64.le_key_mul (by omega) hpageSize hsize (hbeyond _ hpage)
  · rw [Service.skip, hpage, Binary64.infinity_sub finiteValue_one,
      Binary64.infinity_mul hpageSize hsize]
    exact Binary64.le_key_infinity

/-- Which pages have fewer than `2 ^ 53` rows in front of them: one more than
in exact arithmetic, whose number is rounded down. -/
theorem exists_finiteValue_lt_iff {n : ℤ} (hone : 1 ≤ n) (hsize : 1 ≤ size) :
    (∃ p, (Binary64.ofInt n).finiteValue = some p ∧ (p - 1) * size < 2 ^ 53) ↔
      (n - 1) * size < 2 ^ 53 ∨ (n = 2 ^ 53 + 1 ∧ size = 1) := by
  constructor
  · rintro ⟨p, hp, hlt⟩
    have hround := Binary64.roundInt_of_finiteValue hp
    have hpone : 1 ≤ p := hround ▸ roundInt_mono hone
    have hple : p - 1 ≤ (p - 1) * size := le_mul_of_one_le_right (by omega) hsize
    rcases le_or_gt n (2 ^ 53) with hsmall | hlarge
    · left
      rwa [← hround, roundInt_eq (representable_of_le (by omega))] at hlt
    · -- Only the first number behind `2 ^ 53` is rounded down to it.
      right
      have hplow : 2 ^ 53 ≤ p := hround ▸ le_roundInt hlarge.le
      have hpeq : p = 2 ^ 53 := by omega
      have hn : n = 2 ^ 53 + 1 := by
        by_contra hne
        have hnext : roundInt (2 ^ 53 + 2) = 2 ^ 53 + 2 := roundInt_eq ⟨2 ^ 52 + 1, 1, by decide, rfl⟩
        have hmono : roundInt (2 ^ 53 + 2) ≤ roundInt n := roundInt_mono (by omega)
        omega
      subst hpeq
      exact ⟨hn, by omega⟩
  · rintro (hlt | ⟨rfl, rfl⟩)
    · have hle : n - 1 ≤ (n - 1) * size := le_mul_of_one_le_right (by omega) hsize
      exact ⟨n, Binary64.finiteValue_ofInt_of_le (by omega), hlt⟩
    · exact ⟨2 ^ 53, by decide +kernel, by decide⟩

end Skip

/-! ## The range -/

/-- What it means that the arithmetic stays in range: the page and its size are
whole numbers within their bounds, the number of rows to skip is exact, and no
other page of this size skips as many. -/
structure InRange (query : LogQuery) (page pageSize : ℤ) : Prop where
  page_eq : query.parsePagination.1.finiteValue = some page
  pageSize_eq : query.parsePagination.2.finiteValue = some pageSize
  one_le_page : 1 ≤ page
  one_le_pageSize : 1 ≤ pageSize
  pageSize_le : pageSize ≤ 100
  skip_eq : query.skip.finiteValue = some ((page - 1) * pageSize)
  skip_nonneg : 0 ≤ (page - 1) * pageSize
  skip_le : (page - 1) * pageSize ≤ 2 ^ 53 - 1
  skip_ne : ∀ other : LogQuery, other.parsePagination.2 = query.parsePagination.2 →
    other.parsePagination.1 ≠ query.parsePagination.1 → other.skip ≠ query.skip

/-- The page that is asked for, if any, has fewer than `2 ^ 53` rows in front of
it, or `2 ^ 53` single ones. -/
def InReach (query : LogQuery) : Prop :=
  ∀ page ∈ leadingInteger query.page.toJsString,
    (page - 1) * query.requested.2 < 2 ^ 53 ∨ (page = 2 ^ 53 + 1 ∧ query.requested.2 = 1)

instance (query : LogQuery) : Decidable query.InReach := inferInstanceAs (Decidable (∀ _ ∈ _, _))

theorem inReach_iff_requested (query : LogQuery) :
    query.InReach ↔ ((query.requested.1 : ℤ) - 1) * query.requested.2 < 2 ^ 53 ∨
      ((query.requested.1 : ℤ) = 2 ^ 53 + 1 ∧ (query.requested.2 : ℤ) = 1) := by
  obtain ⟨_, hsize, _⟩ := query.one_le_requested
  have hpage : (query.requested.1 : ℤ) =
      max 1 (parsedOr (leadingInteger query.page.toJsString) 1) := by
    rw [requested, Service.parsePagination]
    omega
  rw [hpage, InReach]
  cases leadingInteger query.page.toJsString with
  | none => simp [parsedOr]
  | some n =>
    simp only [Option.mem_def, Option.some.injEq, forall_eq', parsedOr]
    have hclamp : max 1 (if n = 0 then 1 else n) = max 1 n := by omega
    rw [hclamp, Nat.cast_eq_one]
    rcases le_total n 1 with hle | hle
    · have hnone : (n - 1) * query.requested.2 ≤ 0 :=
        mul_nonpos_of_nonpos_of_nonneg (by omega) (by omega)
      rw [max_eq_left hle]
      exact iff_of_true (.inl (hnone.trans_lt (by decide))) (.inl (by simp))
    · rw [max_eq_right hle]

theorem one_le_page (query : LogQuery) {p : ℤ}
    (hp : query.parsePagination.1.finiteValue = some p) : 1 ≤ p := by
  rw [parsePagination_eq] at hp
  rw [← Binary64.roundInt_of_finiteValue hp]
  exact roundInt_mono query.one_le_requested.1

/-- As long as there are fewer than `2 ^ 53` rows in front of the page, that is
how many are skipped. -/
theorem skip_eq_of_lt {query : LogQuery} {p : ℤ}
    (hp : query.parsePagination.1.finiteValue = some p)
    (hlt : (p - 1) * query.requested.2 < 2 ^ 53) :
    query.skip.finiteValue = some ((p - 1) * query.requested.2) :=
  finiteValue_skip hp (query.one_le_page hp) query.finiteValue_pageSize query.one_le_requested.2.1 hlt

/-- Then it is what exact arithmetic gives. -/
theorem exact_of_lt {query : LogQuery}
    (hlt : (query.requested.1 - 1) * query.requested.2 < 2 ^ 53) :
    query.parsePagination.1.finiteValue = some (query.requested.1 : ℤ) ∧
      query.skip.finiteValue =
        some (((query.requested.1 - 1) * query.requested.2 : ℕ) : ℤ) := by
  obtain ⟨hone, hsize, _⟩ := query.one_le_requested
  have hle : query.requested.1 - 1 ≤ (query.requested.1 - 1) * query.requested.2 :=
    Nat.le_mul_of_pos_right _ (by omega)
  have hpage : query.parsePagination.1.finiteValue = some (query.requested.1 : ℤ) := by
    rw [parsePagination_eq]
    exact Binary64.finiteValue_ofInt_of_le (by omega)
  have hcast : (((query.requested.1 - 1) * query.requested.2 : ℕ) : ℤ) =
      (query.requested.1 - 1) * query.requested.2 := by
    rw [Nat.cast_mul, Nat.cast_sub (by omega), Nat.cast_one]
  refine ⟨hpage, ?_⟩
  rw [hcast]
  exact skip_eq_of_lt hpage (by rw [← hcast]; exact_mod_cast hlt)

theorem le_key_skip_of_le {query : LogQuery}
    (hbeyond : ∀ p, query.parsePagination.1.finiteValue = some p →
      2 ^ 53 ≤ (p - 1) * query.requested.2) : 2 ^ 53 ≤ query.skip.key := by
  obtain ⟨hone, hsize, _⟩ := query.one_le_requested
  have hpageSize := query.finiteValue_pageSize
  rw [skip, parsePagination_eq] at *
  exact le_key_skip hone hpageSize hsize hbeyond

/-- No other page skips as many rows. -/
theorem page_eq_of_skip_eq {query other : LogQuery} {p : ℤ}
    (hp : query.parsePagination.1.finiteValue = some p)
    (hlt : (p - 1) * query.requested.2 < 2 ^ 53)
    (hpageSize : other.parsePagination.2 = query.parsePagination.2)
    (hskip : other.skip = query.skip) : other.parsePagination.1 = query.parsePagination.1 := by
  have hsize : (other.requested.2 : ℤ) = query.requested.2 := by
    rw [← Option.some.injEq, ← finiteValue_pageSize, ← finiteValue_pageSize, hpageSize]
  have hexact := skip_eq_of_lt hp hlt
  by_cases hother : ∃ q, other.parsePagination.1.finiteValue = some q ∧
      (q - 1) * other.requested.2 < 2 ^ 53
  · obtain ⟨q, hq, hlt'⟩ := hother
    have hproduct : (q - 1) * query.requested.2 = (p - 1) * query.requested.2 := by
      rw [← hsize, ← Option.some.injEq, ← skip_eq_of_lt hq hlt', hskip, hexact, hsize]
    have hne : (query.requested.2 : ℤ) ≠ 0 := by
      have hone := query.one_le_requested.2.1
      omega
    obtain rfl : q = p := sub_left_injective (mul_right_cancel₀ hne hproduct)
    rw [Binary64.eq_ofInt_of_finiteValue hq, Binary64.eq_ofInt_of_finiteValue hp]
  · -- The other page skips too many.
    have hlarge : 2 ^ 53 ≤ other.skip.key := le_key_skip_of_le fun q hq =>
      not_lt.mp fun hlt' => hother ⟨q, hq, hlt'⟩
    rw [hskip, Binary64.key_eq_of_finiteValue hexact] at hlarge
    exact absurd hlt hlarge.not_gt

/-- The arithmetic stays in range as long as the page has fewer than `2 ^ 53`
rows in front of it. -/
theorem exists_inRange_iff (query : LogQuery) :
    (∃ page pageSize, query.InRange page pageSize) ↔
      ∃ p, query.parsePagination.1.finiteValue = some p ∧
        (p - 1) * query.requested.2 < 2 ^ 53 := by
  obtain ⟨_, hsize, hhundred⟩ := query.one_le_requested
  have hpageSize := query.finiteValue_pageSize
  constructor
  · rintro ⟨page, pageSize, hrange⟩
    obtain rfl := Option.some.inj (hrange.pageSize_eq.symm.trans hpageSize)
    exact ⟨page, hrange.page_eq, Int.lt_of_le_sub_one hrange.skip_le⟩
  · rintro ⟨p, hp, hlt⟩
    have hone : 1 ≤ p := query.one_le_page hp
    exact ⟨p, query.requested.2, hp, hpageSize, hone, hsize, hhundred, skip_eq_of_lt hp hlt,
      mul_nonneg (by omega) (by omega), by omega,
      fun other hsame hne hskip => hne (page_eq_of_skip_eq hp hlt hsame hskip)⟩

/-- **Which queries stay in range.** -/
theorem inRange_iff_inReach (query : LogQuery) :
    (∃ page pageSize, query.InRange page pageSize) ↔ query.InReach := by
  obtain ⟨hone, hsize, _⟩ := query.one_le_requested
  rw [exists_inRange_iff, inReach_iff_requested, parsePagination_eq]
  exact exists_finiteValue_lt_iff hone hsize

/-- A page number of four hundred digits is infinite. -/
theorem not_inRange_nines : ¬ ∀ query : LogQuery, ∃ page pageSize, query.InRange page pageSize := by
  intro hall
  obtain ⟨page, _, hrange⟩ := hall ⟨.text (List.replicate 400 0x39), .absent⟩
  have hinfinite : (parsePagination ⟨.text (List.replicate 400 0x39), .absent⟩).1 =
      .infinity false := by
    decide +kernel
  have hpage := hrange.page_eq
  rw [hinfinite] at hpage
  cases hpage

/-- Two pages of one row that begin at the same row. -/
example : (skip ⟨.text (js "9007199254740996"), .text (js "1")⟩) =
    skip ⟨.text (js "9007199254740998"), .text (js "1")⟩ := by
  decide +kernel

end LogQuery

end TamperEvidentLog.Service
