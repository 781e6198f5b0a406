/-
# The order in which an object's members are enumerated

`OrdinaryOwnPropertyKeys` lists the array-index keys of an object in ascending
numeric order and the remaining string keys in the order of their creation.
Everything that walks an object walks it in this order, `JSON.stringify`
included, so a text written from an object and parsed again creates the members
in enumeration order. `Json.ordered` is the value that survives such a round
trip; ordering twice is ordering once, and reading a property does not notice
it.
-/

import TamperEvidentLog.Text.Json

namespace TamperEvidentLog.Text

/-- The number a text of decimal digits stands for. -/
def digitsValue (text : JsString) : Nat :=
  text.foldl (fun n u => 10 * n + (u.toNat - 0x30)) 0

/-- The array index a key denotes: the key is the canonical text of a number
below `2 ^ 32 - 1`. -/
def arrayIndex (key : JsString) : Option Nat :=
  if decimal (digitsValue key) = key ∧ digitsValue key < 4294967295 then
    some (digitsValue key)
  else none

theorem decimal_of_arrayIndex {key : JsString} {n : Nat} (hkey : arrayIndex key = some n) :
    decimal n = key := by
  unfold arrayIndex at hkey
  split at hkey
  case isTrue hcanonical =>
    cases hkey
    exact hcanonical.1
  case isFalse => cases hkey

/-- Different keys are different array indices. -/
theorem arrayIndex_inj {first second : JsString} {n : Nat} (hfirst : arrayIndex first = some n)
    (hsecond : arrayIndex second = some n) : first = second :=
  (decimal_of_arrayIndex hfirst).symm.trans (decimal_of_arrayIndex hsecond)

section Members

variable {α β γ : Type*}

/-- Change the values of a member list and keep its keys. -/
def mapValues (f : α → β) (members : List (JsString × α)) : List (JsString × β) :=
  members.map fun m => (m.1, f m.2)

@[simp]
theorem mapValues_nil (f : α → β) : mapValues f [] = [] := rfl

@[simp]
theorem mapValues_cons (f : α → β) (m : JsString × α) (members : List (JsString × α)) :
    mapValues f (m :: members) = (m.1, f m.2) :: mapValues f members := rfl

@[simp]
theorem mapValues_mapValues (g : β → γ) (f : α → β) (members : List (JsString × α)) :
    mapValues g (mapValues f members) = mapValues (fun v => g (f v)) members := by
  simp [mapValues]

@[simp]
theorem keys_mapValues (f : α → β) (members : List (JsString × α)) :
    (mapValues f members).map Prod.fst = members.map Prod.fst := by
  simp [mapValues]

theorem mapValues_congr {f g : α → β} {members : List (JsString × α)}
    (hagree : ∀ m ∈ members, f m.2 = g m.2) : mapValues f members = mapValues g members :=
  List.map_congr_left fun m hm => by rw [hagree m hm]

theorem mem_mapValues {f : α → β} {members : List (JsString × α)} {m : JsString × β} :
    m ∈ mapValues f members ↔ ∃ v, (m.1, v) ∈ members ∧ f v = m.2 := by
  constructor
  · intro hm
    obtain ⟨⟨key, value⟩, hmem, rfl⟩ := List.mem_map.mp hm
    exact ⟨value, hmem, rfl⟩
  · rintro ⟨v, hmem, hvalue⟩
    exact List.mem_map.mpr ⟨(m.1, v), hmem, Prod.ext rfl hvalue⟩

/-- The member is enumerated among the array indices. -/
def isIndexed (m : JsString × α) : Bool := (arrayIndex m.1).isSome

/-- Ascending order of the array indices. -/
def indexLe (m n : JsString × α) : Prop := (arrayIndex m.1).getD 0 ≤ (arrayIndex n.1).getD 0

instance : DecidableRel (indexLe (α := α)) := fun _ _ => Nat.decLe _ _

instance : Std.Total (indexLe (α := α)) := ⟨fun _ _ => Nat.le_total _ _⟩

instance : IsTrans (JsString × α) indexLe := ⟨fun _ _ _ => Nat.le_trans⟩

/-- The members in enumeration order. -/
def ownProperties (members : List (JsString × α)) : List (JsString × α) :=
  (members.filter isIndexed).insertionSort indexLe ++ members.filter fun m => !isIndexed m

theorem ownProperties_perm (members : List (JsString × α)) :
    (ownProperties members).Perm members :=
  ((List.perm_insertionSort _ _).append_right _).trans (List.filter_append_perm _ _)

theorem filter_isIndexed_ownProperties (members : List (JsString × α)) :
    (ownProperties members).filter isIndexed =
      (members.filter isIndexed).insertionSort indexLe := by
  have hindexed : ∀ m ∈ (members.filter isIndexed).insertionSort indexLe,
      isIndexed m = true := fun m hm =>
    (List.mem_filter.mp ((List.perm_insertionSort _ _).mem_iff.mp hm)).2
  rw [ownProperties, List.filter_append, List.filter_eq_self.mpr hindexed,
    List.filter_filter]
  simp

theorem filter_not_isIndexed_ownProperties (members : List (JsString × α)) :
    (ownProperties members).filter (fun m => !isIndexed m) =
      members.filter fun m => !isIndexed m := by
  have hindexed : ∀ m ∈ (members.filter isIndexed).insertionSort indexLe,
      ¬ (!isIndexed m) = true := fun m hm => by
    simp [(List.mem_filter.mp ((List.perm_insertionSort _ _).mem_iff.mp hm)).2]
  rw [ownProperties, List.filter_append, List.filter_eq_nil_iff.mpr hindexed]
  simp

/-- Enumeration order is already enumerated in that order. -/
@[simp]
theorem ownProperties_ownProperties (members : List (JsString × α)) :
    ownProperties (ownProperties members) = ownProperties members := by
  rw [ownProperties, filter_isIndexed_ownProperties, filter_not_isIndexed_ownProperties,
    (List.pairwise_insertionSort indexLe _).insertionSort_eq]
  rfl

/-- The order depends on the keys only. -/
theorem ownProperties_mapValues (f : α → β) (members : List (JsString × α)) :
    ownProperties (mapValues f members) = mapValues f (ownProperties members) := by
  have hsort := List.map_insertionSort indexLe indexLe (fun m : JsString × α => (m.1, f m.2))
    (members.filter isIndexed) fun _ _ _ _ => Iff.rfl
  rw [ownProperties, ownProperties, mapValues, mapValues, List.map_append, List.filter_map,
    List.filter_map, hsort]
  rfl

end Members

namespace Json

mutual

/-- The value with the members of every object in enumeration order. -/
def ordered : Json → Json
  | .null => .null
  | .bool b => .bool b
  | .number n => .number n
  | .string s => .string s
  | .array items => .array (orderedItems items)
  | .object members => .object (ownProperties (orderedMembers members))

/-- `ordered` of every item. -/
def orderedItems : List Json → List Json
  | [] => []
  | x :: rest => ordered x :: orderedItems rest

/-- `ordered` of every member's value. -/
def orderedMembers : List (JsString × Json) → List (JsString × Json)
  | [] => []
  | (k, v) :: rest => (k, ordered v) :: orderedMembers rest

end

theorem orderedItems_eq_map (items : List Json) : orderedItems items = items.map ordered := by
  induction items with
  | nil => rfl
  | cons x rest ih => rw [orderedItems, ih, List.map_cons]

theorem orderedMembers_eq_mapValues (members : List (JsString × Json)) :
    orderedMembers members = mapValues ordered members := by
  induction members with
  | nil => rfl
  | cons m rest ih => rw [orderedMembers, ih, mapValues_cons]

@[simp]
theorem ordered_array (items : List Json) :
    ordered (.array items) = .array (items.map ordered) := by
  rw [ordered, orderedItems_eq_map]

@[simp]
theorem ordered_object (members : List (JsString × Json)) :
    ordered (.object members) = .object (ownProperties (mapValues ordered members)) := by
  rw [ordered, orderedMembers_eq_mapValues]

/-- Ordering keeps keys unique. -/
theorem uniqueKeys_ordered {j : Json} (hj : j.uniqueKeys = true) :
    j.ordered.uniqueKeys = true := by
  induction j using Json.inductionOn with
  | null | bool | number | string => exact hj
  | array items ih =>
    rw [uniqueKeys_array] at hj
    rw [ordered_array, uniqueKeys_array]
    intro x hx
    obtain ⟨y, hy, rfl⟩ := List.mem_map.mp hx
    exact ih y hy (hj y hy)
  | object members ih =>
    rw [uniqueKeys_object] at hj
    rw [ordered_object, uniqueKeys_object]
    have hperm := ownProperties_perm (mapValues ordered members)
    refine ⟨?_, fun m hm => ?_⟩
    · rw [(hperm.map Prod.fst).nodup_iff, keys_mapValues]
      exact hj.1
    · obtain ⟨v, hmem, hv⟩ := mem_mapValues.mp (hperm.mem_iff.mp hm)
      rw [← hv]
      exact ih _ hmem (hj.2 _ hmem)

end Json

/-! ## Property access -/

section Lookup

variable {α β : Type*}

theorem lookup_mapValues (f : α → β) (key : JsString) (members : List (JsString × α)) :
    (mapValues f members).lookup key = (members.lookup key).map f := by
  induction members with
  | nil => rfl
  | cons m members ih =>
    rw [mapValues_cons, List.lookup_cons, List.lookup_cons, ih]
    cases key == m.1 <;> rfl

/-- With unique keys, looking a key up finds the one member that has it. -/
theorem lookup_eq_some_iff_mem {key : JsString} {value : α} {members : List (JsString × α)}
    (hunique : (members.map Prod.fst).Nodup) :
    members.lookup key = some value ↔ (key, value) ∈ members := by
  induction members with
  | nil => simp
  | cons m members ih =>
    rw [List.map_cons, List.nodup_cons] at hunique
    rw [List.lookup_cons, List.mem_cons]
    by_cases hkey : key = m.1
    · subst hkey
      have hfresh : (m.1, value) ∉ members := fun hmem =>
        hunique.1 (List.mem_map.mpr ⟨_, hmem, rfl⟩)
      simp [hfresh, Prod.ext_iff, eq_comm]
    · have hhead : (key, value) ≠ m := by
        rintro rfl
        exact hkey rfl
      simp [beq_false_of_ne hkey, hhead, ih hunique.2]

/-- With unique keys, the order of the members is immaterial to a lookup. -/
theorem lookup_eq_of_perm {first second : List (JsString × α)} (hperm : first.Perm second)
    (hunique : (second.map Prod.fst).Nodup) (key : JsString) :
    first.lookup key = second.lookup key := by
  have hunique' := (hperm.map Prod.fst).nodup_iff.mpr hunique
  ext value
  rw [lookup_eq_some_iff_mem hunique', lookup_eq_some_iff_mem hunique, hperm.mem_iff]

end Lookup

namespace Json

/-- `value[key]`; `none` is `undefined`. -/
def property (key : JsString) : Json → Option Json
  | .object members => members.lookup key
  | _ => none

theorem uniqueKeys_of_property {j value : Json} (hj : j.uniqueKeys = true) {key : JsString}
    (hvalue : j.property key = some value) : value.uniqueKeys = true := by
  cases j with
  | null | bool | number | string | array => cases hvalue
  | object members =>
    rw [uniqueKeys_object] at hj
    exact hj.2 _ ((lookup_eq_some_iff_mem hj.1).mp hvalue)

/-- Enumeration order is invisible to property access. -/
theorem property_ordered {j : Json} (hj : j.uniqueKeys = true) (key : JsString) :
    j.ordered.property key = (j.property key).map ordered := by
  cases j with
  | null | bool | number | string => rfl
  | array items =>
    rw [ordered_array]
    rfl
  | object members =>
    rw [uniqueKeys_object] at hj
    rw [ordered_object, property, property, ← lookup_mapValues]
    refine lookup_eq_of_perm (ownProperties_perm _) ?_ key
    rw [keys_mapValues]
    exact hj.1

end Json

/-- The value with the members of every object in enumeration order. -/
def JsonValue.ordered (v : JsonValue) : JsonValue :=
  ⟨v.json.ordered, Json.uniqueKeys_ordered v.uniqueKeys_json⟩

/-- `value[key]` of an object graph. -/
def JsonValue.property (v : JsonValue) (key : JsString) : Option JsonValue :=
  (v.json.property key).pmap (fun j hj => ⟨j, hj⟩)
    fun _ hvalue => Json.uniqueKeys_of_property v.uniqueKeys_json hvalue

theorem JsonValue.property_eq_some {v w : JsonValue} {key : JsString}
    (hvalue : v.json.property key = some w.json) : v.property key = some w := by
  rw [JsonValue.property, Option.pmap_eq_some_iff]
  exact ⟨w.json, w.uniqueKeys_json, hvalue, rfl⟩

/-- The items of an array of object graphs. -/
def JsonValue.items (v : JsonValue) : Option (List JsonValue) :=
  match v with
  | ⟨.array items, hitems⟩ => some (items.pmap JsonValue.mk (Json.uniqueKeys_array.mp hitems))
  | _ => none

theorem JsonValue.items_eq_some {v : JsonValue} {parts : List JsonValue}
    (hjson : v.json = .array (parts.map JsonValue.json)) : v.items = some parts := by
  obtain ⟨j, hj⟩ := v
  subst hjson
  rw [JsonValue.items, List.pmap_map]
  exact congrArg some ((List.pmap_eq_map ..).trans (List.map_id _))

end TamperEvidentLog.Text
