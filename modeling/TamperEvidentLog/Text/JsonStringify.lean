/-
# `JSON.stringify`

The text of a value, without indentation. Strings are quoted the well-formed
way: an unpaired surrogate is written as an escape sequence, a surrogate pair is
left alone. Members are written in enumeration order, so the text does not see
in which other order an object may have been built.
-/

import TamperEvidentLog.Text.Join
import TamperEvidentLog.Text.JsonOrder

namespace TamperEvidentLog.Text

/-- A `\u` escape sequence. -/
def unicodeEscape (u : UInt16) : JsString :=
  [0x5C, 0x75, hexDigit (u.toNat / 4096), hexDigit (u.toNat / 256), hexDigit (u.toNat / 16),
    hexDigit u.toNat]

/-- How one code unit outside a surrogate pair is written inside a string. -/
def escapeUnit (u : UInt16) : JsString :=
  if u = 0x22 then [0x5C, 0x22]
  else if u = 0x5C then [0x5C, 0x5C]
  else if u = 0x08 then [0x5C, 0x62]
  else if u = 0x0C then [0x5C, 0x66]
  else if u = 0x0A then [0x5C, 0x6E]
  else if u = 0x0D then [0x5C, 0x72]
  else if u = 0x09 then [0x5C, 0x74]
  else if u < 0x20 || isSurrogate u then unicodeEscape u
  else [u]

/-- The characters between the quotation marks. -/
def escape : JsString → JsString
  | [] => []
  | [u] => escapeUnit u
  | u :: v :: rest =>
    if isHigh u && isLow v then u :: v :: escape rest
    else escapeUnit u ++ escape (v :: rest)

/-- `QuoteJSONString`. -/
def quote (s : JsString) : JsString := 0x22 :: escape s ++ [0x22]

namespace Json

/-- The text of one member. -/
def memberText (m : JsString × JsString) : JsString := quote m.1 ++ 0x3A :: m.2

mutual

/-- `JSON.stringify(value)`. -/
def stringify : Json → JsString
  | .null => js "null"
  | .bool true => js "true"
  | .bool false => js "false"
  | .number n => n.text
  | .string s => quote s
  | .array items => 0x5B :: joinWith 0x2C (stringifyItems items) ++ [0x5D]
  | .object members =>
    0x7B :: joinWith 0x2C ((ownProperties (stringifyMembers members)).map memberText) ++ [0x7D]

/-- The texts of the items. -/
def stringifyItems : List Json → List JsString
  | [] => []
  | x :: rest => stringify x :: stringifyItems rest

/-- The members with the texts of their values. -/
def stringifyMembers : List (JsString × Json) → List (JsString × JsString)
  | [] => []
  | (k, v) :: rest => (k, stringify v) :: stringifyMembers rest

end

theorem stringifyItems_eq_map (items : List Json) :
    stringifyItems items = items.map stringify := by
  induction items with
  | nil => rfl
  | cons x rest ih => rw [stringifyItems, ih, List.map_cons]

theorem stringifyMembers_eq_mapValues (members : List (JsString × Json)) :
    stringifyMembers members = mapValues stringify members := by
  induction members with
  | nil => rfl
  | cons m rest ih => rw [stringifyMembers, ih, mapValues_cons]

theorem stringify_array (items : List Json) :
    stringify (.array items) = 0x5B :: joinWith 0x2C (items.map stringify) ++ [0x5D] := by
  rw [stringify, stringifyItems_eq_map]

theorem stringify_object (members : List (JsString × Json)) :
    stringify (.object members) =
      0x7B :: joinWith 0x2C ((mapValues stringify (ownProperties members)).map memberText) ++
        [0x7D] := by
  rw [stringify, stringifyMembers_eq_mapValues, ownProperties_mapValues]

/-- Of the values of an object its text shows theirs. -/
theorem stringify_object_congr {members members' : List (JsString × Json)}
    (htexts : mapValues stringify members = mapValues stringify members') :
    stringify (.object members) = stringify (.object members') := by
  rw [stringify_object, stringify_object, ← ownProperties_mapValues, ← ownProperties_mapValues,
    htexts]

/-- The text does not depend on the order of creation beyond what enumeration
shows. -/
theorem stringify_ordered (j : Json) : j.ordered.stringify = j.stringify := by
  induction j using Json.inductionOn with
  | null | bool | number | string => rfl
  | array items ih =>
    rw [ordered_array, stringify_array, stringify_array, List.map_map]
    congr 3
    exact List.map_congr_left ih
  | object members ih =>
    have hvalues : mapValues (fun v => v.ordered.stringify) members =
        mapValues stringify members := mapValues_congr ih
    rw [ordered_object, stringify_object, stringify_object, ownProperties_ownProperties,
      ← ownProperties_mapValues, ← ownProperties_mapValues, mapValues_mapValues, hvalues]

end Json

/-! ## Texts are well-formed -/

theorem isAscii_unicodeEscape {u v : UInt16} (hv : v ∈ unicodeEscape u) : isAscii v = true := by
  have hdigit (n : Nat) : isAscii (hexDigit n) = true := isAscii_of_isHexDigit (isHexDigit_hexDigit n)
  simp only [unicodeEscape, List.mem_cons, List.not_mem_nil, or_false] at hv
  rcases hv with rfl | rfl | rfl | rfl | rfl | rfl
  · rfl
  · rfl
  all_goals exact hdigit _

/-- A lone surrogate is escaped. -/
theorem wellFormed_escapeUnit (u : UInt16) : wellFormed (escapeUnit u) = true := by
  unfold escapeUnit
  split_ifs with h1 h2 h3 h4 h5 h6 h7 h8
  all_goals try decide
  · exact wellFormed_of_ascii fun _ hv => isAscii_unicodeEscape hv
  · rw [Bool.not_eq_true, Bool.or_eq_false_iff] at h8
    exact wellFormed_cons h8.2 rfl

theorem wellFormed_escape (s : JsString) : wellFormed (escape s) = true := by
  induction s using escape.induct with
  | case1 => rfl
  | case2 u => exact wellFormed_escapeUnit u
  | case3 u v rest hpair ih => simpa [escape, wellFormed, hpair] using ih
  | case4 u v rest hpair ih =>
    rw [escape, if_neg hpair]
    exact wellFormed_append (wellFormed_escapeUnit u) ih

theorem wellFormed_quote (s : JsString) : wellFormed (quote s) = true :=
  wellFormed_append (wellFormed_cons (by decide) (wellFormed_escape s)) (by decide)

theorem wellFormed_joinWith {parts : List JsString}
    (hparts : ∀ part ∈ parts, wellFormed part = true) :
    wellFormed (joinWith 0x2C parts) = true := by
  induction parts with
  | nil => rfl
  | cons part parts ih =>
    have hpart := hparts part (by simp)
    cases parts with
    | nil => exact hpart
    | cons next rest =>
      rw [joinWith_cons_cons]
      exact wellFormed_append hpart
        (wellFormed_cons (by decide) (ih fun p hp => hparts p (by simp [hp])))

/-- `JSON.stringify` leaves no surrogate without its partner. -/
theorem Json.wellFormed_stringify (j : Json) : wellFormed j.stringify = true := by
  have hbracket {first last : UInt16} (hfirst : isSurrogate first = false)
      (hlast : isSurrogate last = false) {s : JsString} (hs : wellFormed s = true) :
      wellFormed (first :: s ++ [last]) = true :=
    wellFormed_append (wellFormed_cons hfirst hs) (wellFormed_cons hlast rfl)
  induction j using Json.inductionOn with
  | null => decide
  | bool b => cases b <;> decide
  | number n =>
    apply wellFormed_of_ascii
    intro u hu
    have hunit := n.isNumeralUnit_of_mem hu
    simp only [isNumeralUnit, Bool.or_eq_true, decide_eq_true_eq] at hunit
    rcases hunit with ((((hdigit | rfl) | rfl) | rfl) | rfl) | rfl
    · exact isAscii_of_isDigit hdigit
    all_goals decide
  | string s => exact wellFormed_quote s
  | array items ih =>
    rw [stringify_array]
    refine hbracket (by decide) (by decide) (wellFormed_joinWith fun part hpart => ?_)
    obtain ⟨x, hx, rfl⟩ := List.mem_map.mp hpart
    exact ih x hx
  | object members ih =>
    rw [stringify_object]
    refine hbracket (by decide) (by decide) (wellFormed_joinWith fun part hpart => ?_)
    obtain ⟨m, hm, rfl⟩ := List.mem_map.mp hpart
    obtain ⟨v, hv, hvalue⟩ := mem_mapValues.mp hm
    rw [memberText, ← hvalue]
    exact wellFormed_append (wellFormed_quote _)
      (wellFormed_cons (by decide) (ih _ ((ownProperties_perm members).mem_iff.mp hv)))

/-- `JSON.stringify(value)`. -/
def JsonValue.stringify (v : JsonValue) : JsString := v.json.stringify

theorem JsonValue.stringify_ordered (v : JsonValue) : v.ordered.stringify = v.stringify :=
  v.json.stringify_ordered

end TamperEvidentLog.Text
