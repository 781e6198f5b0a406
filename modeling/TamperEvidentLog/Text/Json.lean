/-
# JSON values as ECMAScript holds them

A value of the ECMAScript language that JSON can express. An object is the list
of its members in the order in which they were created, and enumerating it is
not the same thing: the keys that are array indices come first, in ascending
order, and only the others keep the order of creation.

A number is carried by its numeral. `Number::toString` maps different finite
numbers to different numerals and `JSON.parse` reads each of them back, so no
floating-point arithmetic is needed to say what a text round trip does to one.
-/

import TamperEvidentLog.Text.Digits

namespace TamperEvidentLog.Text

/-! ## Numerals -/

/-- The positions inside a JSON numeral. -/
inductive NumeralState
  | start | minus | zero | integer | point | fraction | exponent | exponentSign | exponentDigits
  deriving DecidableEq

/-- The JSON number grammar, one code unit at a time. -/
def NumeralState.next (state : NumeralState) (u : UInt16) : Option NumeralState :=
  match state with
  | .start =>
    if u = 0x2D then some .minus else if u = 0x30 then some .zero
    else if isDigit u then some .integer else none
  | .minus =>
    if u = 0x30 then some .zero else if isDigit u then some .integer else none
  | .zero =>
    if u = 0x2E then some .point
    else if u = 0x65 || u = 0x45 then some .exponent else none
  | .integer =>
    if isDigit u then some .integer else if u = 0x2E then some .point
    else if u = 0x65 || u = 0x45 then some .exponent else none
  | .point => if isDigit u then some .fraction else none
  | .fraction =>
    if isDigit u then some .fraction
    else if u = 0x65 || u = 0x45 then some .exponent else none
  | .exponent =>
    if u = 0x2B || u = 0x2D then some .exponentSign
    else if isDigit u then some .exponentDigits else none
  | .exponentSign => if isDigit u then some .exponentDigits else none
  | .exponentDigits => if isDigit u then some .exponentDigits else none

/-- The positions at which a numeral may end. -/
def NumeralState.accepts : NumeralState → Bool
  | .zero | .integer | .fraction | .exponentDigits => true
  | _ => false

/-- The text is a JSON numeral. -/
def isNumeral (text : JsString) : Bool :=
  (text.foldlM NumeralState.next .start).any NumeralState.accepts

/-- The code units numerals are made of. -/
def isNumeralUnit (u : UInt16) : Bool :=
  isDigit u || u = 0x2D || u = 0x2B || u = 0x2E || u = 0x65 || u = 0x45

/-- A finite number, carried by its numeral. -/
structure Numeral where
  /-- The text `Number::toString` gives for it. -/
  text : JsString
  /-- The text follows the JSON number grammar. -/
  isNumeral_text : isNumeral text = true

theorem NumeralState.isNumeralUnit_of_next {state target : NumeralState} {u : UInt16}
    (hnext : state.next u = some target) : isNumeralUnit u = true := by
  have hzero : u = 0x30 → isDigit u = true := by
    rintro rfl
    rfl
  simp only [isNumeralUnit, Bool.or_eq_true, decide_eq_true_eq]
  cases state <;> simp only [NumeralState.next] at hnext <;> grind

theorem isNumeralUnit_of_foldlM {state target : NumeralState} {text : JsString}
    (hfold : text.foldlM NumeralState.next state = some target) :
    ∀ u ∈ text, isNumeralUnit u = true := by
  induction text generalizing state with
  | nil => simp
  | cons u text ih =>
    rw [List.foldlM_cons, Option.bind_eq_bind, Option.bind_eq_some_iff] at hfold
    obtain ⟨middle, hnext, hrest⟩ := hfold
    intro v hv
    rcases List.mem_cons.mp hv with rfl | hv
    · exact NumeralState.isNumeralUnit_of_next hnext
    · exact ih hrest v hv

namespace Numeral

theorem isNumeralUnit_of_mem (n : Numeral) {u : UInt16} (hu : u ∈ n.text) :
    isNumeralUnit u = true := by
  obtain ⟨target, hfold, _⟩ := (Option.any_eq_true _ _).mp n.isNumeral_text
  exact isNumeralUnit_of_foldlM hfold u hu

/-- A numeral has a first code unit. -/
theorem exists_cons (n : Numeral) : ∃ u rest, n.text = u :: rest := by
  cases htext : n.text with
  | nil =>
    have hnumeral := n.isNumeral_text
    rw [htext] at hnumeral
    simp [isNumeral, NumeralState.accepts] at hnumeral
  | cons u rest => exact ⟨u, rest, rfl⟩

end Numeral

/-- Where the grammar is behind the digits of a natural number. -/
theorem foldlM_next_decimal (n : Nat) :
    (decimal n).foldlM NumeralState.next .start = some (if n = 0 then .zero else .integer) := by
  induction n using Nat.strong_induction_on with
  | _ n ih =>
    rcases Nat.lt_or_ge n 10 with hsmall | hlarge
    · have hall : ∀ m : Fin 10, (decimal m).foldlM NumeralState.next .start =
          some (if (m : Nat) = 0 then .zero else .integer) := by decide
      exact hall ⟨n, hsmall⟩
    · have hdigit : ∀ m : Fin 10,
          NumeralState.integer.next (Nat.digitChar m).toNat.toUInt16 = some .integer := by decide
      have hquot : n / 10 ≠ 0 := by omega
      have hrest := ih (n / 10) (by omega)
      rw [if_neg hquot, decimal] at hrest
      rw [decimal, Nat.toDigits_of_base_le (by decide) hlarge, List.map_append, List.foldlM_append,
        hrest, if_neg (by omega : n ≠ 0)]
      exact congrArg (Option.bind · some) (hdigit ⟨n % 10, Nat.mod_lt _ (by decide)⟩)

/-- A natural number. -/
def Numeral.ofNat (n : Nat) : Numeral where
  text := decimal n
  isNumeral_text := by
    rw [isNumeral, foldlM_next_decimal]
    split <;> rfl

/-! ## Values -/

/-- A JSON value. The members of an object stand in the order of their
creation. -/
inductive Json
  | null
  | bool (b : Bool)
  | number (n : Numeral)
  | string (s : JsString)
  | array (items : List Json)
  | object (members : List (JsString × Json))

namespace Json

/-- Induction over a value: the items of an array and the members of an object
are smaller values. -/
@[elab_as_elim]
theorem inductionOn {motive : Json → Prop} (j : Json)
    (null : motive .null) (bool : ∀ b, motive (.bool b)) (number : ∀ n, motive (.number n))
    (string : ∀ s, motive (.string s))
    (array : ∀ items, (∀ x ∈ items, motive x) → motive (.array items))
    (object : ∀ members, (∀ m ∈ members, motive m.2) → motive (.object members)) :
    motive j :=
  Json.rec (motive_1 := motive) (motive_2 := fun items => ∀ x ∈ items, motive x)
    (motive_3 := fun members => ∀ m ∈ members, motive m.2) (motive_4 := fun m => motive m.2)
    null bool number string array object
    (fun _ hx => nomatch hx)
    (fun _ _ hhead htail x hx => by
      rcases List.mem_cons.mp hx with rfl | hx
      · exact hhead
      · exact htail x hx)
    (fun _ hm => nomatch hm)
    (fun _ _ hhead htail m hm => by
      rcases List.mem_cons.mp hm with rfl | hm
      · exact hhead
      · exact htail m hm)
    (fun _ _ hvalue => hvalue) j

mutual

/-- No object inside the value has two members with one key. -/
def uniqueKeys : Json → Bool
  | .null => true
  | .bool _ => true
  | .number _ => true
  | .string _ => true
  | .array items => uniqueKeysItems items
  | .object members => decide (members.map Prod.fst).Nodup && uniqueKeysMembers members

/-- `uniqueKeys` of every item. -/
def uniqueKeysItems : List Json → Bool
  | [] => true
  | x :: rest => uniqueKeys x && uniqueKeysItems rest

/-- `uniqueKeys` of every member's value. -/
def uniqueKeysMembers : List (JsString × Json) → Bool
  | [] => true
  | (_, v) :: rest => uniqueKeys v && uniqueKeysMembers rest

end

theorem uniqueKeysItems_eq_true {items : List Json} :
    uniqueKeysItems items = true ↔ ∀ x ∈ items, uniqueKeys x = true := by
  induction items with
  | nil => simp [uniqueKeysItems]
  | cons x rest ih => simp [uniqueKeysItems, ih]

theorem uniqueKeysMembers_eq_true {members : List (JsString × Json)} :
    uniqueKeysMembers members = true ↔ ∀ m ∈ members, uniqueKeys m.2 = true := by
  induction members with
  | nil => simp [uniqueKeysMembers]
  | cons m rest ih => simp [uniqueKeysMembers, ih]

@[simp]
theorem uniqueKeys_array {items : List Json} :
    uniqueKeys (.array items) = true ↔ ∀ x ∈ items, uniqueKeys x = true := by
  rw [uniqueKeys, uniqueKeysItems_eq_true]

@[simp]
theorem uniqueKeys_object {members : List (JsString × Json)} :
    uniqueKeys (.object members) = true ↔
      (members.map Prod.fst).Nodup ∧ ∀ m ∈ members, uniqueKeys m.2 = true := by
  rw [uniqueKeys, Bool.and_eq_true, decide_eq_true_eq, uniqueKeysMembers_eq_true]

end Json

/-- A JSON value none of whose objects has two members with one key, which is
what an ECMAScript object graph is. -/
structure JsonValue where
  /-- The value. -/
  json : Json
  /-- Keys are unique. -/
  uniqueKeys_json : json.uniqueKeys = true

/-- The value `null`. -/
def JsonValue.null : JsonValue := ⟨.null, rfl⟩

/-- A string as a value. -/
def JsonValue.string (s : JsString) : JsonValue := ⟨.string s, rfl⟩

theorem JsonValue.ext {v w : JsonValue} (h : v.json = w.json) : v = w := by
  cases v
  cases w
  cases h
  rfl

end TamperEvidentLog.Text
