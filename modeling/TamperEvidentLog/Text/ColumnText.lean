/-
# What a text column takes

PostgreSQL keeps text as UTF-8 that never contains U+0000, and refuses a string
that has no such form: one with U+0000 or with an unpaired surrogate. JSONB
refuses a value with such a string or key anywhere inside.

`VARCHAR(n)` counts code points. An ECMAScript string counts code units, of which
there are never fewer.
-/

import TamperEvidentLog.Text.Json

namespace TamperEvidentLog.Text

/-- Neither U+0000 nor an unpaired surrogate. -/
def isColumnText (s : JsString) : Bool := wellFormed s && !s.contains 0

/-- The number of code points. -/
def codePoints (s : JsString) : ℕ := (decode s).length

theorem codePoints_le_length (s : JsString) : codePoints s ≤ s.length := by
  unfold codePoints
  induction s using decode.induct with
  | case1 => rfl
  | case2 u => rfl
  | case3 u v rest hpair ih =>
    simp only [decode, hpair, if_true, List.length_cons]
    omega
  | case4 u v rest hpair ih =>
    simp only [decode, hpair, List.length_cons] at ih ⊢
    simpa using ih

namespace Json

mutual

/-- The strings and keys of a value at any depth. -/
def texts : Json → List JsString
  | .null => []
  | .bool _ => []
  | .number _ => []
  | .string s => [s]
  | .array items => textsItems items
  | .object members => textsMembers members

/-- The strings and keys inside every item. -/
def textsItems : List Json → List JsString
  | [] => []
  | x :: rest => texts x ++ textsItems rest

/-- Every member's key and the strings and keys inside its value. -/
def textsMembers : List (JsString × Json) → List JsString
  | [] => []
  | (key, v) :: rest => key :: texts v ++ textsMembers rest

end

mutual

/-- The JSONB column takes the value. -/
def isStorable : Json → Bool
  | .null => true
  | .bool _ => true
  | .number _ => true
  | .string s => isColumnText s
  | .array items => isStorableItems items
  | .object members => isStorableMembers members

/-- `isStorable` of every item. -/
def isStorableItems : List Json → Bool
  | [] => true
  | x :: rest => isStorable x && isStorableItems rest

/-- `isColumnText` of every key and `isStorable` of every member's value. -/
def isStorableMembers : List (JsString × Json) → Bool
  | [] => true
  | (key, v) :: rest => isColumnText key && isStorable v && isStorableMembers rest

end

theorem isStorableItems_iff {items : List Json}
    (hitems : ∀ x ∈ items, x.isStorable = true ↔ ∀ s ∈ x.texts, isColumnText s = true) :
    isStorableItems items = true ↔ ∀ s ∈ textsItems items, isColumnText s = true := by
  induction items with
  | nil => simp [isStorableItems, textsItems]
  | cons x rest ih =>
    rw [isStorableItems, textsItems, Bool.and_eq_true, List.forall_mem_append,
      hitems x (by simp), ih fun y hy => hitems y (by simp [hy])]

theorem isStorableMembers_iff {members : List (JsString × Json)}
    (hmembers : ∀ m ∈ members, m.2.isStorable = true ↔ ∀ s ∈ m.2.texts, isColumnText s = true) :
    isStorableMembers members = true ↔ ∀ s ∈ textsMembers members, isColumnText s = true := by
  induction members with
  | nil => simp [isStorableMembers, textsMembers]
  | cons m rest ih =>
    rw [isStorableMembers, textsMembers, List.cons_append, List.forall_mem_cons,
      List.forall_mem_append, Bool.and_eq_true, Bool.and_eq_true, hmembers m (by simp),
      ih fun n hn => hmembers n (by simp [hn]), and_assoc]

/-- The column takes a value exactly when it takes every string and key in
it. -/
theorem isStorable_iff (j : Json) :
    j.isStorable = true ↔ ∀ s ∈ j.texts, isColumnText s = true := by
  induction j using inductionOn with
  | null => simp [isStorable, texts]
  | bool => simp [isStorable, texts]
  | number => simp [isStorable, texts]
  | string => simp [isStorable, texts]
  | array items hitems => exact isStorableItems_iff hitems
  | object members hmembers => exact isStorableMembers_iff hmembers

end Json

end TamperEvidentLog.Text
