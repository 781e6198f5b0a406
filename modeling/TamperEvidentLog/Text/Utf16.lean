/-
# ECMAScript strings and their UTF-8 encoding

An ECMAScript string is the sequence of its UTF-16 code units, and nothing
forbids a surrogate without its partner. Everything that leaves the program as
bytes goes through one encoder, which decodes surrogate pairs, replaces every
unpaired surrogate by U+FFFD and writes UTF-8.

The two facts the rest of the development lives on are that encoding splits at
any ASCII separator, so a delimiter survives it, and that it loses nothing on
strings without unpaired surrogates.
-/

import Mathlib

namespace TamperEvidentLog.Text

/-- An ECMAScript string: its UTF-16 code units, unpaired surrogates included. -/
abbrev JsString := List UInt16

/-- A shortcut: many definitions ask whether a text is among others. -/
instance : LawfulBEq JsString := inferInstance

/-- The code units of one Unicode scalar value. -/
def unitsOfChar (c : Char) : JsString :=
  if c.toNat < 0x10000 then [c.toNat.toUInt16]
  else
    [(0xD800 + (c.toNat - 0x10000) / 0x400).toUInt16,
      (0xDC00 + (c.toNat - 0x10000) % 0x400).toUInt16]

/-- The string with these scalar values; the way literals of the source are
written here. -/
def js (text : String) : JsString := text.toList.flatMap unitsOfChar

/-- A leading surrogate. -/
def isHigh (u : UInt16) : Bool := 0xD800 ≤ u && u ≤ 0xDBFF

/-- A trailing surrogate. -/
def isLow (u : UInt16) : Bool := 0xDC00 ≤ u && u ≤ 0xDFFF

/-- Either half of a surrogate pair. -/
def isSurrogate (u : UInt16) : Bool := 0xD800 ≤ u && u ≤ 0xDFFF

/-- A code unit that is an ASCII character. -/
def isAscii (u : UInt16) : Bool := u < 0x80

theorem isHigh_eq_false_of_not_surrogate {u : UInt16} (hu : isSurrogate u = false) :
    isHigh u = false := by
  simp only [isSurrogate, isHigh, Bool.and_eq_false_iff, decide_eq_false_iff_not,
    UInt16.not_le, UInt16.lt_iff_toNat_lt] at *
  simp only [UInt16.reduceToNat] at *
  omega

theorem isSurrogate_eq_false_of_ascii {u : UInt16} (hu : isAscii u = true) :
    isSurrogate u = false := by
  simp only [isSurrogate, isAscii, Bool.and_eq_false_iff, decide_eq_false_iff_not,
    decide_eq_true_eq, UInt16.not_le, UInt16.lt_iff_toNat_lt] at *
  simp only [UInt16.reduceToNat] at *
  omega

/-- The scalar value of a code unit that is not part of a pair: an unpaired
surrogate becomes the replacement character. -/
def charOfUnit (u : UInt16) : Char :=
  if isSurrogate u then Char.ofNat 0xFFFD else Char.ofNat u.toNat

/-- The scalar value of a surrogate pair. -/
def charOfPair (u v : UInt16) : Char :=
  Char.ofNat (0x10000 + (u.toNat - 0xD800) * 0x400 + (v.toNat - 0xDC00))

/-- The scalar values an encoder sees: pairs combined, unpaired surrogates
replaced. -/
def decode : JsString → List Char
  | [] => []
  | [u] => [charOfUnit u]
  | u :: v :: rest =>
    if isHigh u && isLow v then charOfPair u v :: decode rest
    else charOfUnit u :: decode (v :: rest)

/-- No surrogate stands without its partner. -/
def wellFormed : JsString → Bool
  | [] => true
  | [u] => !isSurrogate u
  | u :: v :: rest =>
    if isHigh u && isLow v then wellFormed rest
    else !isSurrogate u && wellFormed (v :: rest)

/-- `Buffer.from(s, 'utf8')`, and what a hash reads for `update(s, 'utf8')`. -/
def utf8 (s : JsString) : List UInt8 := (decode s).flatMap String.utf8EncodeChar

@[simp]
theorem utf8_nil : utf8 [] = [] := rfl

/-- A code unit that opens no pair is decoded on its own. -/
theorem decode_cons_of_not_high {u : UInt16} (hu : isHigh u = false) (s : JsString) :
    decode (u :: s) = charOfUnit u :: decode s := by
  cases s with
  | nil => rfl
  | cons v rest => simp [decode, hu]

/-- Decoding splits in front of a code unit that can close no pair. -/
theorem decode_append_cons {u : UInt16} (hu : isLow u = false) (s t : JsString) :
    decode (s ++ u :: t) = decode s ++ decode (u :: t) := by
  induction s using decode.induct with
  | case1 => rfl
  | case2 v => simp [decode, hu]
  | case3 v w rest hpair ih => simp [decode, hpair, ih]
  | case4 v w rest hpair ih =>
    simp only [List.cons_append] at ih
    simp [decode, hpair, ih]

/-- Encoding splits in front of a code unit that can close no pair. -/
theorem utf8_append_cons {u : UInt16} (hu : isLow u = false) (s t : JsString) :
    utf8 (s ++ u :: t) = utf8 s ++ utf8 (u :: t) := by
  simp [utf8, decode_append_cons hu]

theorem charOfUnit_ascii {u : UInt16} (hu : isAscii u = true) :
    charOfUnit u = Char.ofNat u.toNat := by
  simp [charOfUnit, isSurrogate_eq_false_of_ascii hu]

/-- An ASCII character is one byte. -/
theorem utf8EncodeChar_ascii {u : UInt16} (hu : isAscii u = true) :
    String.utf8EncodeChar (charOfUnit u) = [u.toUInt8] := by
  have hlt : u.toNat < 128 := by
    simpa [isAscii, UInt16.lt_iff_toNat_lt] using hu
  rw [charOfUnit_ascii hu]
  have hval : (Char.ofNat u.toNat).val.toNat = u.toNat := by
    have hvalid : u.toNat.isValidChar := Or.inl (by omega)
    rw [Char.ofNat, dif_pos hvalid]
    rfl
  have hsize : (Char.ofNat u.toNat).utf8Size = 1 := by
    rw [Char.utf8Size_eq_one_iff, UInt32.le_iff_toNat_le, hval]
    simp only [UInt32.reduceToNat]
    omega
  have hbyte : (Char.ofNat u.toNat).val.toUInt8 = u.toUInt8 := by
    apply UInt8.toNat.inj
    rw [UInt32.toNat_toUInt8, UInt16.toNat_toUInt8, hval]
  rw [String.utf8EncodeChar_eq_singleton hsize, ← hbyte]

/-- An ASCII character in front is encoded on its own. -/
theorem utf8_cons_ascii {u : UInt16} (hu : isAscii u = true) (s : JsString) :
    utf8 (u :: s) = u.toUInt8 :: utf8 s := by
  have hhigh := isHigh_eq_false_of_not_surrogate (isSurrogate_eq_false_of_ascii hu)
  simp [utf8, decode_cons_of_not_high hhigh, utf8EncodeChar_ascii hu]

/-- An ASCII text in front is encoded unit by unit. -/
theorem utf8_ascii_append {a : JsString} (ha : ∀ u ∈ a, isAscii u = true) (s : JsString) :
    utf8 (a ++ s) = a.map UInt16.toUInt8 ++ utf8 s := by
  induction a with
  | nil => rfl
  | cons u a ih =>
    have hu := ha u (by simp)
    have hrest := ih fun v hv => ha v (by simp [hv])
    rw [List.cons_append, utf8_cons_ascii hu, hrest]
    rfl

/-- The encoding of an ASCII text. -/
theorem utf8_ascii {a : JsString} (ha : ∀ u ∈ a, isAscii u = true) :
    utf8 a = a.map UInt16.toUInt8 := by
  simpa using utf8_ascii_append ha []

/-- Narrowing ASCII code units to bytes loses nothing. -/
theorem toUInt8_inj_of_ascii {u v : UInt16} (hu : isAscii u = true) (hv : isAscii v = true)
    (h : u.toUInt8 = v.toUInt8) : u = v := by
  simp only [isAscii, decide_eq_true_eq, UInt16.lt_iff_toNat_lt, UInt16.reduceToNat] at hu hv
  have hnat := congrArg UInt8.toNat h
  simp only [UInt16.toNat_toUInt8] at hnat
  apply UInt16.toNat.inj
  omega

theorem map_toUInt8_inj_of_ascii {a b : JsString} (ha : ∀ u ∈ a, isAscii u = true)
    (hb : ∀ u ∈ b, isAscii u = true)
    (h : a.map UInt16.toUInt8 = b.map UInt16.toUInt8) : a = b := by
  induction a generalizing b with
  | nil => simpa using h.symm
  | cons u a ih =>
    cases b with
    | nil => simp at h
    | cons v b =>
      simp only [List.map_cons, List.cons.injEq] at h
      have hhead := toUInt8_inj_of_ascii (ha u (by simp)) (hb v (by simp)) h.1
      have htail := ih (fun w hw => ha w (by simp [hw])) (fun w hw => hb w (by simp [hw])) h.2
      rw [hhead, htail]

/-! ## Nothing is lost on well-formed strings -/

theorem toNat_ofNat_of_valid {n : Nat} (hn : n.isValidChar) : (Char.ofNat n).toNat = n := by
  rw [Char.ofNat, dif_pos hn]
  rfl

theorem unitsOfChar_charOfUnit {u : UInt16} (hu : isSurrogate u = false) :
    unitsOfChar (charOfUnit u) = [u] := by
  have hbound : u.toNat < 65536 := u.toNat_lt
  have hvalid : u.toNat.isValidChar := by
    simp only [isSurrogate, Bool.and_eq_false_iff, decide_eq_false_iff_not, UInt16.not_le,
      UInt16.lt_iff_toNat_lt, UInt16.reduceToNat] at hu
    unfold Nat.isValidChar
    omega
  rw [charOfUnit, if_neg (by simp [hu]), unitsOfChar, toNat_ofNat_of_valid hvalid,
    if_pos hbound]
  congr 1
  exact UInt16.ofNat_toNat

theorem unitsOfChar_charOfPair {u v : UInt16} (hu : isHigh u = true) (hv : isLow v = true) :
    unitsOfChar (charOfPair u v) = [u, v] := by
  simp only [isHigh, isLow, Bool.and_eq_true, decide_eq_true_eq, UInt16.le_iff_toNat_le,
    UInt16.reduceToNat] at hu hv
  have hvalid : (0x10000 + (u.toNat - 0xD800) * 0x400 + (v.toNat - 0xDC00)).isValidChar := by
    unfold Nat.isValidChar
    omega
  rw [charOfPair, unitsOfChar, toNat_ofNat_of_valid hvalid, if_neg (by omega)]
  have hhigh : 0xD800 + (0x10000 + (u.toNat - 0xD800) * 0x400 + (v.toNat - 0xDC00) - 0x10000)
      / 0x400 = u.toNat := by omega
  have hlow : 0xDC00 + (0x10000 + (u.toNat - 0xD800) * 0x400 + (v.toNat - 0xDC00) - 0x10000)
      % 0x400 = v.toNat := by omega
  rw [hhigh, hlow]
  simp [Nat.toUInt16]

/-- Decoding a well-formed string can be undone. -/
theorem flatMap_unitsOfChar_decode {s : JsString} (hs : wellFormed s = true) :
    (decode s).flatMap unitsOfChar = s := by
  induction s using decode.induct with
  | case1 => rfl
  | case2 u =>
    have hu : isSurrogate u = false := by simpa [wellFormed] using hs
    simp [decode, unitsOfChar_charOfUnit hu]
  | case3 u v rest hpair ih =>
    have hrest : wellFormed rest = true := by simpa [wellFormed, hpair] using hs
    simp only [Bool.and_eq_true] at hpair
    simp [decode, hpair, unitsOfChar_charOfPair hpair.1 hpair.2, ih hrest]
  | case4 u v rest hpair ih =>
    rw [wellFormed, if_neg hpair, Bool.and_eq_true, Bool.not_eq_true'] at hs
    simp [decode, hpair, unitsOfChar_charOfUnit hs.1, ih hs.2]

theorem flatMap_utf8EncodeChar_injective {cs ds : List Char}
    (h : cs.flatMap String.utf8EncodeChar = ds.flatMap String.utf8EncodeChar) : cs = ds := by
  have hbytes : cs.utf8Encode = ds.utf8Encode := by
    simp only [List.utf8Encode, h]
  have hdecoded := congrArg ByteArray.utf8Decode? hbytes
  simpa using hdecoded

/-- A code unit that is no surrogate does not disturb the rest. -/
theorem wellFormed_cons {u : UInt16} (hu : isSurrogate u = false) {s : JsString}
    (hs : wellFormed s = true) : wellFormed (u :: s) = true := by
  cases s with
  | nil => simp [wellFormed, hu]
  | cons v rest => simp [wellFormed, isHigh_eq_false_of_not_surrogate hu, hu, hs]

theorem wellFormed_append {s t : JsString} (hs : wellFormed s = true)
    (ht : wellFormed t = true) : wellFormed (s ++ t) = true := by
  induction s using wellFormed.induct with
  | case1 => exact ht
  | case2 u => exact wellFormed_cons (by simpa [wellFormed] using hs) ht
  | case3 u v rest hpair ih =>
    simp only [wellFormed, hpair, if_true, List.cons_append] at hs ⊢
    exact ih hs
  | case4 u v rest hpair ih =>
    rw [wellFormed, if_neg hpair, Bool.and_eq_true, Bool.not_eq_true'] at hs
    exact wellFormed_cons hs.1 (ih hs.2)

/-- A string without surrogates is well-formed. -/
theorem wellFormed_of_ascii {s : JsString} (hs : ∀ u ∈ s, isAscii u = true) :
    wellFormed s = true := by
  induction s with
  | nil => rfl
  | cons u s ih =>
    exact wellFormed_cons (isSurrogate_eq_false_of_ascii (hs u (by simp)))
      (ih fun v hv => hs v (by simp [hv]))

/-- Two well-formed strings with the same bytes are the same string. -/
theorem utf8_injective_of_wellFormed {s t : JsString} (hs : wellFormed s = true)
    (ht : wellFormed t = true) (h : utf8 s = utf8 t) : s = t := by
  have hchars : decode s = decode t := flatMap_utf8EncodeChar_injective h
  rw [← flatMap_unitsOfChar_decode hs, ← flatMap_unitsOfChar_decode ht, hchars]

/-! ## ASCII bytes -/

/-- A byte of a longer character has its high bit set. -/
theorem le_of_mem_utf8EncodeChar {c : Char} (hc : c.utf8Size ≠ 1) {byte : UInt8}
    (hbyte : byte ∈ String.utf8EncodeChar c) : 0x80 ≤ byte := by
  have hor (x y : UInt8) (hy : 0x80 ≤ y) : 0x80 ≤ x ||| y := by
    rw [UInt8.le_iff_toNat_le] at hy ⊢
    rw [UInt8.toNat_or]
    exact hy.trans Nat.right_le_or
  rcases Char.utf8Size_eq c with hsize | hsize | hsize | hsize
  · exact absurd hsize hc
  · rw [String.utf8EncodeChar_eq_cons_cons hsize] at hbyte
    simp only [List.mem_cons, List.not_mem_nil, or_false] at hbyte
    rcases hbyte with rfl | rfl <;> exact hor _ _ (by decide)
  · rw [String.utf8EncodeChar_eq_cons_cons_cons hsize] at hbyte
    simp only [List.mem_cons, List.not_mem_nil, or_false] at hbyte
    rcases hbyte with rfl | rfl | rfl <;> exact hor _ _ (by decide)
  · rw [String.utf8EncodeChar_eq_cons_cons_cons_cons hsize] at hbyte
    simp only [List.mem_cons, List.not_mem_nil, or_false] at hbyte
    rcases hbyte with rfl | rfl | rfl | rfl <;> exact hor _ _ (by decide)

/-- A code unit on its own gives one byte only if it is an ASCII character. -/
theorem isAscii_of_utf8Size_charOfUnit {u : UInt16} (hsize : (charOfUnit u).utf8Size = 1) :
    isAscii u = true := by
  have hbound : u.toNat < 65536 := u.toNat_lt
  rw [Char.utf8Size_eq_one_iff, UInt32.le_iff_toNat_le] at hsize
  unfold charOfUnit at hsize
  split at hsize
  case isTrue => exact absurd hsize (by decide)
  case isFalse hu =>
    have hvalid : u.toNat.isValidChar := by
      simp only [isSurrogate, Bool.and_eq_true, decide_eq_true_eq, UInt16.le_iff_toNat_le,
        UInt16.reduceToNat] at hu
      unfold Nat.isValidChar
      omega
    have hval : (Char.ofNat u.toNat).toNat = u.toNat := toNat_ofNat_of_valid hvalid
    simp only [isAscii, decide_eq_true_eq, UInt16.lt_iff_toNat_lt, UInt16.reduceToNat]
    simp only [UInt32.reduceToNat] at hsize
    rw [← hval]
    exact Nat.lt_succ_of_le hsize

/-- A surrogate pair gives several bytes. -/
theorem utf8Size_charOfPair_ne_one {u v : UInt16} (hu : isHigh u = true) (hv : isLow v = true) :
    (charOfPair u v).utf8Size ≠ 1 := by
  simp only [isHigh, isLow, Bool.and_eq_true, decide_eq_true_eq, UInt16.le_iff_toNat_le,
    UInt16.reduceToNat] at hu hv
  have hvalid : (0x10000 + (u.toNat - 0xD800) * 0x400 + (v.toNat - 0xDC00)).isValidChar := by
    unfold Nat.isValidChar
    omega
  have hval : (charOfPair u v).toNat =
      0x10000 + (u.toNat - 0xD800) * 0x400 + (v.toNat - 0xDC00) := toNat_ofNat_of_valid hvalid
  rw [Ne, Char.utf8Size_eq_one_iff, UInt32.le_iff_toNat_le]
  intro hle
  have hle' : (charOfPair u v).toNat ≤ 127 := hle
  omega

/-- What the first code unit of a string is decoded to: itself, if it is an
ASCII character, or something that takes several bytes. -/
theorem decode_cons_cases (u : UInt16) (s : JsString) :
    isAscii u = true ∨ ∃ (c : Char) (rest : List Char),
      decode (u :: s) = c :: rest ∧ c.utf8Size ≠ 1 := by
  by_cases hascii : isAscii u = true
  · exact .inl hascii
  · apply Or.inr
    have hunit : (charOfUnit u).utf8Size ≠ 1 := mt isAscii_of_utf8Size_charOfUnit hascii
    cases s with
    | nil => exact ⟨charOfUnit u, [], rfl, hunit⟩
    | cons v rest =>
      by_cases hpair : isHigh u && isLow v
      · have hboth := Bool.and_eq_true _ _ ▸ hpair
        exact ⟨charOfPair u v, decode rest, by rw [decode, if_pos hpair],
          utf8Size_charOfPair_ne_one hboth.1 hboth.2⟩
      · exact ⟨charOfUnit u, decode (v :: rest), by rw [decode, if_neg hpair], hunit⟩

/-- A string that is not empty has a first byte, and it is an ASCII byte only
if the first code unit is an ASCII character. -/
theorem exists_utf8_cons (u : UInt16) (s : JsString) :
    ∃ (byte : UInt8) (rest : List UInt8), utf8 (u :: s) = byte :: rest ∧
      (byte < 0x80 → isAscii u = true ∧ byte = u.toUInt8 ∧ rest = utf8 s) := by
  rcases decode_cons_cases u s with hascii | ⟨c, rest, hdecode, hsize⟩
  · exact ⟨u.toUInt8, utf8 s, utf8_cons_ascii hascii s, fun _ => ⟨hascii, rfl, rfl⟩⟩
  · obtain ⟨byte, bytes, hbytes⟩ :=
      List.exists_cons_of_ne_nil (String.utf8EncodeChar_ne_nil (c := c))
    refine ⟨byte, bytes ++ rest.flatMap String.utf8EncodeChar, ?_, fun hlt => ?_⟩
    · rw [utf8, hdecode, List.flatMap_cons, hbytes, List.cons_append]
    · have hle : 0x80 ≤ byte := le_of_mem_utf8EncodeChar hsize (by rw [hbytes]; simp)
      exact absurd hlt (UInt8.not_lt.mpr hle)

/-- Only the empty string has no bytes. -/
theorem utf8_eq_nil_iff {s : JsString} : utf8 s = [] ↔ s = [] := by
  cases s with
  | nil => exact iff_of_true rfl rfl
  | cons u s =>
    obtain ⟨byte, rest, hbytes, _⟩ := exists_utf8_cons u s
    rw [hbytes]
    exact iff_of_false (List.cons_ne_nil _ _) (List.cons_ne_nil _ _)

/-- An ASCII byte of the encoding is a character of the string. -/
theorem exists_ascii_of_mem_utf8 {s : JsString} {byte : UInt8} (hbyte : byte ∈ utf8 s)
    (hlt : byte < 0x80) : ∃ u ∈ s, isAscii u = true ∧ byte = u.toUInt8 := by
  have hlong {c : Char} (hsize : c.utf8Size ≠ 1) : byte ∉ String.utf8EncodeChar c := fun hmem =>
    absurd hlt (UInt8.not_lt.mpr (le_of_mem_utf8EncodeChar hsize hmem))
  have hunit {u : UInt16} (hmem : byte ∈ String.utf8EncodeChar (charOfUnit u)) :
      isAscii u = true ∧ byte = u.toUInt8 := by
    have hascii : isAscii u = true := by
      by_contra hne
      exact hlong (mt isAscii_of_utf8Size_charOfUnit hne) hmem
    rw [utf8EncodeChar_ascii hascii, List.mem_singleton] at hmem
    exact ⟨hascii, hmem⟩
  induction s using decode.induct with
  | case1 => cases hbyte
  | case2 u =>
    rw [utf8, decode, List.flatMap_cons, List.flatMap_nil, List.append_nil] at hbyte
    exact ⟨u, by simp, hunit hbyte⟩
  | case3 u v rest hpair ih =>
    rw [utf8, decode, if_pos hpair, List.flatMap_cons, List.mem_append] at hbyte
    simp only [Bool.and_eq_true] at hpair
    rcases hbyte with hfirst | hrest
    · exact absurd hfirst (hlong (utf8Size_charOfPair_ne_one hpair.1 hpair.2))
    · obtain ⟨w, hw, hascii⟩ := ih hrest
      exact ⟨w, by simp [hw], hascii⟩
  | case4 u v rest hpair ih =>
    rw [utf8, decode, if_neg hpair, List.flatMap_cons, List.mem_append] at hbyte
    rcases hbyte with hfirst | hrest
    · exact ⟨u, by simp, hunit hfirst⟩
    · obtain ⟨w, hw, hascii⟩ := ih hrest
      exact ⟨w, List.mem_cons_of_mem u hw, hascii⟩

/-- A string that is no longer than an ASCII text and whose bytes begin with
it is that text. -/
theorem eq_of_utf8_ascii_isPrefix {a s : JsString} (ha : ∀ u ∈ a, isAscii u = true)
    (hlength : s.length ≤ a.length) (hbegins : utf8 a <+: utf8 s) : s = a := by
  induction a generalizing s with
  | nil => simpa using hlength
  | cons v a ih =>
    have hv := ha v (by simp)
    rw [utf8_cons_ascii hv] at hbegins
    cases s with
    | nil => simp at hbegins
    | cons u s =>
      obtain ⟨byte, rest, hbytes, hfirst⟩ := exists_utf8_cons u s
      rw [hbytes, List.cons_prefix_cons] at hbegins
      have hlt : v.toUInt8 < 0x80 := by
        simp only [isAscii, decide_eq_true_eq, UInt16.lt_iff_toNat_lt,
          UInt16.reduceToNat] at hv
        rw [UInt8.lt_iff_toNat_lt, UInt16.toNat_toUInt8]
        exact (Nat.mod_le _ _).trans_lt hv
      obtain ⟨hu, hbyte, rfl⟩ := hfirst (hbegins.1 ▸ hlt)
      have hhead : u = v := toUInt8_inj_of_ascii hu hv (hbyte.symm.trans hbegins.1.symm)
      rw [hhead, ih (fun w hw => ha w (by simp [hw])) (Nat.le_of_succ_le_succ hlength) hbegins.2]

end TamperEvidentLog.Text
