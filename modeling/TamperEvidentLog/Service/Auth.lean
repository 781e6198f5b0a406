/-
# The API key check

`requireApiKey` compares the `x-api-key` header with the configured key. The
comparison copies the UTF-8 bytes of both into buffers as long as the longer
text has UTF-16 code units, so bytes behind that length are not compared: the
check accepts exactly the headers whose bytes agree with the key's up to there.

A key of ASCII characters has one byte for each code unit, and then the check is
equality.
-/

import TamperEvidentLog.Service.Http

namespace TamperEvidentLog.Service

open TamperEvidentLog.Text

/-! ## Buffers -/

namespace Buffer

/-- `Buffer.alloc(len)`. -/
def alloc (len : ℕ) : List UInt8 := List.replicate len 0

/-- `source.copy(target)`: what `target` holds afterwards. -/
def copy (source target : List UInt8) : List UInt8 :=
  source.take target.length ++ target.drop source.length

@[simp]
theorem length_alloc (len : ℕ) : (alloc len).length = len := List.length_replicate

@[simp]
theorem length_copy (source target : List UInt8) :
    (copy source target).length = target.length := by
  rw [copy, List.length_append, List.length_take, List.length_drop]
  omega

/-- A copy into an empty buffer holds the bytes that fit, then zeros. -/
theorem getElem?_copy_alloc (source : List UInt8) {len i : ℕ} (hi : i < len) :
    (copy source (alloc len))[i]? = some (source[i]?.getD 0) := by
  rw [copy, length_alloc, alloc]
  by_cases hsource : i < source.length
  · rw [List.getElem?_append_left (by rw [List.length_take]; exact lt_min hi hsource),
      List.getElem?_take_of_lt hi, List.getElem?_eq_getElem hsource]
    rfl
  · rw [not_lt] at hsource
    rw [List.getElem?_append_right ((List.length_take_le' _ _).trans hsource),
      List.getElem?_eq_none hsource, List.drop_replicate, List.getElem?_replicate_of_lt]
    · rfl
    · rw [List.length_take]
      omega

/-- Two copies into empty buffers of one length agree when they hold the same
bytes. -/
theorem copy_alloc_eq_iff {first second : List UInt8} {len : ℕ} :
    copy first (alloc len) = copy second (alloc len) ↔
      ∀ i < len, first[i]?.getD 0 = second[i]?.getD 0 := by
  constructor
  · intro hequal i hi
    have hget := congrArg (·[i]?) hequal
    simpa [getElem?_copy_alloc _ hi] using hget
  · intro hbytes
    apply List.ext_getElem?
    intro i
    by_cases hi : i < len
    · rw [getElem?_copy_alloc _ hi, getElem?_copy_alloc _ hi, hbytes i hi]
    · rw [not_lt] at hi
      rw [List.getElem?_eq_none (by simpa using hi), List.getElem?_eq_none (by simpa using hi)]

end Buffer

/-- `crypto.timingSafeEqual`, which throws on buffers of different lengths. -/
def cryptoTimingSafeEqual (a b : List UInt8) : Option Bool :=
  if a.length = b.length then some (a == b) else none

/-- The comparison of two texts. -/
def timingSafeEqual (provided expected : JsString) : Option Bool :=
  let len := max (max provided.length expected.length) 1
  let a := Buffer.copy (utf8 provided) (Buffer.alloc len)
  let b := Buffer.copy (utf8 expected) (Buffer.alloc len)
  cryptoTimingSafeEqual a b

/-- What a rejected request is answered with. -/
def unauthorized : Response :=
  ⟨HttpStatus.unauthorized,
    .object [(js "success", .bool false), (js "error", .string (js "Unauthorized"))]⟩

/-- The middleware, for a configured key and the value of the `x-api-key`
header, if there is one. -/
def requireApiKey (apiKey : JsString) : Option JsString → Handled Unit
  | none => .answered unauthorized
  | some provided =>
    if provided.isEmpty then .answered unauthorized
    else
      match timingSafeEqual provided apiKey with
      | some true => .next ()
      | some false => .answered unauthorized
      | none => .thrown

/-! ## What is compared -/

/-- The buffers have one length, so comparing them does not throw. -/
theorem timingSafeEqual_eq (provided expected : JsString) :
    timingSafeEqual provided expected = some (decide
      (∀ i < max (max provided.length expected.length) 1,
        (utf8 provided)[i]?.getD 0 = (utf8 expected)[i]?.getD 0)) := by
  rw [timingSafeEqual, cryptoTimingSafeEqual,
    if_pos (by rw [Buffer.length_copy, Buffer.length_copy])]
  congr 1
  rw [Bool.eq_iff_iff, beq_iff_eq, decide_eq_true_eq, Buffer.copy_alloc_eq_iff]

/-- Padding with a byte that does not occur loses nothing. -/
theorem getD_eq_getD_iff {α : Type*} {padding : α} {first second : Option α}
    (hfirst : padding ∉ first) (hsecond : padding ∉ second) :
    first.getD padding = second.getD padding ↔ first = second := by
  cases first with
  | none =>
    cases second with
    | none => simp
    | some y => exact iff_of_false (fun hy => hsecond (congrArg some hy.symm)) (by simp)
  | some x =>
    cases second with
    | none => exact iff_of_false (fun hx => hfirst (congrArg some hx)) (by simp)
    | some y => simp

/-- Without U+0000 in the text there is no zero byte in its encoding. -/
theorem zero_notMem_getElem?_utf8 {text : JsString} (htext : (0 : UInt16) ∉ text) (i : ℕ) :
    0 ∉ (utf8 text)[i]? := by
  intro hbyte
  obtain ⟨u, hu, hascii, hnul⟩ :=
    exists_ascii_of_mem_utf8 (List.mem_of_getElem? hbyte) (by decide)
  have hbytes : (0 : UInt16).toUInt8 = u.toUInt8 := hnul
  have hunit : 0 = u := toUInt8_inj_of_ascii (by decide) hascii hbytes
  exact htext (hunit ▸ hu)

/-- The first byte in which two encodings differ is one that is compared. -/
def DifferInReach (provided expected : JsString) : Prop :=
  ∃ i < max provided.length expected.length, (utf8 provided)[i]? ≠ (utf8 expected)[i]?

instance (provided expected : JsString) : Decidable (DifferInReach provided expected) :=
  inferInstanceAs (Decidable (∃ i < _, _))

/-- The comparison accepts unless the encodings differ within the length of the
longer text. -/
theorem timingSafeEqual_eq_some_true_iff {provided expected : JsString}
    (hprovided : (0 : UInt16) ∉ provided) (hexpected : (0 : UInt16) ∉ expected)
    (hne : expected ≠ []) :
    timingSafeEqual provided expected = some true ↔ ¬ DifferInReach provided expected := by
  have hpositive : 1 ≤ max provided.length expected.length :=
    (List.length_pos_iff.mpr hne).trans_le (le_max_right _ _)
  rw [timingSafeEqual_eq, max_eq_left hpositive, Option.some.injEq, decide_eq_true_eq]
  simp only [DifferInReach, not_exists, not_and, not_not,
    getD_eq_getD_iff (zero_notMem_getElem?_utf8 hprovided _)
      (zero_notMem_getElem?_utf8 hexpected _)]

/-- A request passes when there is a header and the comparison accepts it. -/
theorem requireApiKey_eq_next_iff {apiKey : JsString} {provided : Option JsString} :
    requireApiKey apiKey provided = .next () ↔
      ∃ key ∈ provided, key ≠ [] ∧ timingSafeEqual key apiKey = some true := by
  cases provided with
  | none => simp [requireApiKey]
  | some key =>
    by_cases hempty : key = []
    · simp [requireApiKey, hempty]
    · rw [requireApiKey, if_neg (by simpa using hempty)]
      split
      case h_1 haccepted => exact iff_of_true rfl ⟨key, rfl, hempty, haccepted⟩
      case h_2 hrejected =>
        apply iff_of_false (fun hnext => nomatch hnext)
        rintro ⟨_, hsame, _, haccepted⟩
        cases hsame
        exact absurd (hrejected.symm.trans haccepted) (by decide)
      case h_3 hthrown =>
        rw [timingSafeEqual_eq] at hthrown
        cases hthrown

/-- Every other request is answered. -/
theorem requireApiKey_eq_next_or_unauthorized (apiKey : JsString) (provided : Option JsString) :
    requireApiKey apiKey provided = .next () ∨
      requireApiKey apiKey provided = .answered unauthorized := by
  cases provided with
  | none => exact .inr rfl
  | some key =>
    rw [requireApiKey]
    split
    · exact .inr rfl
    · rw [timingSafeEqual_eq]
      by_cases hequal : ∀ i < max (max key.length apiKey.length) 1,
          (utf8 key)[i]?.getD 0 = (utf8 apiKey)[i]?.getD 0
      · exact .inl (by rw [decide_eq_true hequal])
      · exact .inr (by rw [decide_eq_false hequal])

/-! ## When the check is equality -/

/-- What the check of one request should be: the request passes exactly with the
configured key, and otherwise gets status 401. -/
def ChecksKeyExactly (apiKey : JsString) (provided : Option JsString) : Prop :=
  (requireApiKey apiKey provided = .next () ↔ ∃ key ∈ provided, key ≠ [] ∧ key = apiKey) ∧
    (requireApiKey apiKey provided ≠ .next () →
      requireApiKey apiKey provided = .answered unauthorized)

/-- The check is exact when a header other than the key differs from it in
reach. -/
theorem checksKeyExactly_of_differInReach {apiKey : JsString} {provided : Option JsString}
    (hne : apiKey ≠ []) (hkeyNul : (0 : UInt16) ∉ apiKey)
    (hheaderNul : ∀ key ∈ provided, (0 : UInt16) ∉ key)
    (hdiffer : ∀ key ∈ provided, key = apiKey ∨ DifferInReach key apiKey) :
    ChecksKeyExactly apiKey provided := by
  refine ⟨?_, (requireApiKey_eq_next_or_unauthorized apiKey provided).resolve_left⟩
  rw [requireApiKey_eq_next_iff]
  refine exists_congr fun key => and_congr_right fun hprovided => and_congr_right fun _ => ?_
  rw [timingSafeEqual_eq_some_true_iff (hheaderNul key hprovided) hkeyNul hne]
  constructor
  · exact (hdiffer key hprovided).resolve_right
  · rintro rfl ⟨i, _, hbyte⟩
    exact hbyte rfl

/-- **The check is exact** for a header exactly when it is the key or its bytes
differ from the key's within the length that is compared. -/
theorem checksKeyExactly_iff {apiKey : JsString} {provided : Option JsString}
    (hne : apiKey ≠ []) (hkeyNul : (0 : UInt16) ∉ apiKey)
    (hheaderNul : ∀ key ∈ provided, (0 : UInt16) ∉ key) :
    ChecksKeyExactly apiKey provided ↔
      ∀ key ∈ provided, key = apiKey ∨ DifferInReach key apiKey := by
  constructor
  · rintro hexact key hprovided
    by_contra hneither
    rw [not_or] at hneither
    have hempty : key ≠ [] := by
      rintro rfl
      apply hneither.2
      refine ⟨0, lt_max_of_lt_right (List.length_pos_iff.mpr hne), ?_⟩
      rw [utf8_nil, List.getElem?_nil, ne_comm, ← List.head?_eq_getElem?, Ne,
        List.head?_eq_none_iff, utf8_eq_nil_iff]
      exact hne
    have haccepted :=
      (timingSafeEqual_eq_some_true_iff (hheaderNul key hprovided) hkeyNul hne).mpr hneither.2
    have hnext := requireApiKey_eq_next_iff.mpr ⟨key, hprovided, hempty, haccepted⟩
    obtain ⟨_, hsame, _, hequal⟩ := hexact.1.mp hnext
    cases hprovided
    cases hsame
    exact hneither.1 hequal
  · exact checksKeyExactly_of_differInReach hne hkeyNul hheaderNul

theorem checksKeyExactly_iff_mixed :
    ChecksKeyExactly (js "clé") (some (js "clef")) ↔
      ∀ key ∈ some (js "clef"), key = js "clé" ∨ DifferInReach key (js "clé") :=
  checksKeyExactly_iff (by decide) (by decide) (by
    intro key hkey
    cases hkey
    decide)

/-- A key of one letter beyond ASCII is compared in its first byte only. -/
theorem not_checksKeyExactly_accents :
    wellFormed (js "é") = true ∧ wellFormed (js "è") = true ∧
      requireApiKey (js "é") (some (js "è")) = .next () ∧
      ¬ ChecksKeyExactly (js "é") (some (js "è")) := by
  have hnext : requireApiKey (js "é") (some (js "è")) = .next () := by
    rw [requireApiKey_eq_next_iff]
    exact ⟨js "è", rfl, by decide, by decide +kernel⟩
  refine ⟨by decide, by decide, hnext, fun hexact => ?_⟩
  obtain ⟨key, hkey, _, hequal⟩ := hexact.1.mp hnext
  cases hkey
  exact absurd hequal (by decide)

/-- Bytes behind the length of an ASCII key belong to another text. -/
theorem differInReach_of_ascii {provided expected : JsString}
    (hprovided : wellFormed provided = true) (hascii : ∀ u ∈ expected, isAscii u = true)
    (hne : provided ≠ expected) : DifferInReach provided expected := by
  by_contra hreach
  simp only [DifferInReach, not_exists, not_and, not_not] at hreach
  have hlength : (utf8 expected).length = expected.length := by
    rw [utf8_ascii hascii, List.length_map]
  by_cases hlonger : expected.length < provided.length
  · -- The position behind the key is compared, so the encodings end together.
    have hend := hreach expected.length (lt_max_of_lt_left hlonger)
    rw [← hlength, List.getElem?_eq_none le_rfl, List.getElem?_eq_none_iff] at hend
    have hbytes : utf8 provided = utf8 expected := by
      apply List.ext_getElem?
      intro i
      by_cases hi : i < expected.length
      · exact hreach i (lt_max_of_lt_right hi)
      · rw [not_lt, ← hlength] at hi
        rw [List.getElem?_eq_none hi, List.getElem?_eq_none (hend.trans hi)]
    exact hne (utf8_injective_of_wellFormed hprovided (wellFormed_of_ascii hascii) hbytes)
  · -- Every byte of the key is compared.
    apply hne
    apply eq_of_utf8_ascii_isPrefix hascii (not_lt.mp hlonger)
    rw [List.prefix_iff_getElem?]
    intro i hi
    rw [hreach i (lt_max_of_lt_right (hlength ▸ hi)), List.getElem?_eq_getElem hi]

/-- **With an ASCII key the check is exact**, whatever the header. -/
theorem checksKeyExactly_of_ascii {apiKey : JsString} {provided : Option JsString}
    (hne : apiKey ≠ []) (hascii : ∀ u ∈ apiKey, isAscii u = true)
    (hkeyNul : (0 : UInt16) ∉ apiKey)
    (hheader : ∀ key ∈ provided, wellFormed key = true ∧ (0 : UInt16) ∉ key) :
    ChecksKeyExactly apiKey provided := by
  apply checksKeyExactly_of_differInReach hne hkeyNul fun key hkey => (hheader key hkey).2
  intro key hkey
  by_cases hequal : key = apiKey
  · exact .inl hequal
  · exact .inr (differInReach_of_ascii (hheader key hkey).1 hascii hequal)

end TamperEvidentLog.Service
