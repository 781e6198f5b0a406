/-
# What a JSONB column returns

PostgreSQL does not keep the text of a JSONB value. It keeps the members of each
object, at every nesting level, and returns them ordered by the length of the
key in bytes and then bytewise. The value that comes back is the value that went
in with its members created in that order. That a number comes back as the numeral
that `JSON.stringify` printed for it is an assumption about the column and the
client.

Whether `JSON.stringify` sees the difference is decided here exactly: it does
not if and only if, in every object of the value, the keys that are no array
indices were already created in storage order. Array indices never matter,
because enumeration sorts them anyway.
-/

import TamperEvidentLog.Text.JsonParse

namespace TamperEvidentLog.Text

/-- What JSONB orders keys by: the length in bytes, then the bytes. -/
def storageKey (key : JsString) : ℕ ×ₗ List ℕ :=
  toLex ((utf8 key).length, (utf8 key).map UInt8.toNat)

section Members

variable {α β : Type*}

/-- The storage order of members. -/
def storageLe (m n : JsString × α) : Prop := storageKey m.1 ≤ storageKey n.1

instance : DecidableRel (storageLe (α := α)) :=
  fun m n => inferInstanceAs (Decidable (storageKey m.1 ≤ storageKey n.1))

instance : Std.Total (storageLe (α := α)) := ⟨fun _ _ => le_total _ _⟩

instance : IsTrans (JsString × α) storageLe := ⟨fun _ _ _ => le_trans⟩

/-- The members in storage order. -/
def storageProperties (members : List (JsString × α)) : List (JsString × α) :=
  members.insertionSort storageLe

theorem storageProperties_perm (members : List (JsString × α)) :
    (storageProperties members).Perm members := List.perm_insertionSort _ _

theorem storageProperties_mapValues (f : α → β) (members : List (JsString × α)) :
    storageProperties (mapValues f members) = mapValues f (storageProperties members) :=
  (List.map_insertionSort storageLe storageLe (fun m : JsString × α => (m.1, f m.2)) members
    fun _ _ _ _ => Iff.rfl).symm

/-- The keys that enumeration leaves in order of creation stand in storage
order. -/
def KeysInStorageOrder (members : List (JsString × α)) : Prop :=
  (members.filter fun m => !isIndexed m).Pairwise storageLe

instance (members : List (JsString × α)) : Decidable (KeysInStorageOrder members) :=
  inferInstanceAs (Decidable (List.Pairwise _ _))

theorem keysInStorageOrder_mapValues (f : α → β) (members : List (JsString × α)) :
    KeysInStorageOrder (mapValues f members) ↔ KeysInStorageOrder members := by
  unfold KeysInStorageOrder mapValues
  rw [List.filter_map, List.pairwise_map]
  rfl

/-- Members of one list with one key are one member. -/
theorem eq_of_key_eq {members : List (JsString × α)} (hunique : (members.map Prod.fst).Nodup)
    {m n : JsString × α} (hm : m ∈ members) (hn : n ∈ members) (hkey : m.1 = n.1) : m = n :=
  List.inj_on_of_nodup_map hunique hm hn hkey

/-- Array indices enumerate the same whatever order they were created in. -/
theorem indexed_insertionSort_eq_of_perm {first second : List (JsString × α)}
    (hunique : (first.map Prod.fst).Nodup) (hperm : first.Perm second) :
    (first.filter isIndexed).insertionSort indexLe =
      (second.filter isIndexed).insertionSort indexLe := by
  refine List.Perm.eq_of_pairwise (fun m n hm hn hmn hnm => ?_)
    (List.pairwise_insertionSort _ _) (List.pairwise_insertionSort _ _)
    (((List.perm_insertionSort _ _).trans (hperm.filter _)).trans
      (List.perm_insertionSort _ _).symm)
  obtain ⟨hm, hmi⟩ := List.mem_filter.mp ((List.perm_insertionSort _ _).mem_iff.mp hm)
  obtain ⟨hn, hni⟩ := List.mem_filter.mp ((List.perm_insertionSort _ _).mem_iff.mp hn)
  obtain ⟨i, hi⟩ := Option.isSome_iff_exists.mp hmi
  obtain ⟨k, hk⟩ := Option.isSome_iff_exists.mp hni
  have hindex : i = k := by
    simp only [indexLe, hi, hk, Option.getD_some] at hmn hnm
    exact Nat.le_antisymm hmn hnm
  subst k
  exact eq_of_key_eq hunique hm (hperm.mem_iff.mpr hn) (arrayIndex_inj hi hk)

/-- Sorting members into storage order is invisible to enumeration exactly when
the keys that are no array indices stand in storage order already. -/
theorem ownProperties_storageProperties_iff {members : List (JsString × α)}
    (hunique : (members.map Prod.fst).Nodup) :
    ownProperties (storageProperties members) = ownProperties members ↔
      KeysInStorageOrder members := by
  have hperm := storageProperties_perm members
  constructor
  · intro hequal
    have hothers := congrArg (List.filter fun m => !isIndexed m) hequal
    rw [filter_not_isIndexed_ownProperties, filter_not_isIndexed_ownProperties] at hothers
    rw [KeysInStorageOrder, ← hothers]
    exact (List.pairwise_insertionSort storageLe members).filter _
  · intro hsorted
    have hsublist : (members.filter fun m => !isIndexed m).Sublist
        ((storageProperties members).filter fun m => !isIndexed m) := by
      have hstable := (List.sublist_insertionSort hsorted List.filter_sublist).filter
        fun m => !isIndexed m
      simp only [List.filter_filter, Bool.and_self] at hstable
      exact hstable
    have hothers := hsublist.eq_of_length (hperm.filter _).length_eq.symm
    have hunique' : ((storageProperties members).map Prod.fst).Nodup :=
      (hperm.map Prod.fst).nodup_iff.mpr hunique
    rw [ownProperties, ownProperties, indexed_insertionSort_eq_of_perm hunique' hperm, hothers]

end Members

namespace Json

mutual

/-- The value a JSONB column returns for this one; a number is assumed to come back
as the same numeral. -/
def jsonb : Json → Json
  | .null => .null
  | .bool b => .bool b
  | .number n => .number n
  | .string s => .string s
  | .array items => .array (jsonbItems items)
  | .object members => .object (storageProperties (jsonbMembers members))

/-- `jsonb` of every item. -/
def jsonbItems : List Json → List Json
  | [] => []
  | x :: rest => jsonb x :: jsonbItems rest

/-- `jsonb` of every member's value. -/
def jsonbMembers : List (JsString × Json) → List (JsString × Json)
  | [] => []
  | (k, v) :: rest => (k, jsonb v) :: jsonbMembers rest

end

mutual

/-- In every object of the value, the keys that are no array indices were
created in storage order. -/
def inStorageOrder : Json → Bool
  | .null => true
  | .bool _ => true
  | .number _ => true
  | .string _ => true
  | .array items => inStorageOrderItems items
  | .object members => decide (KeysInStorageOrder members) && inStorageOrderMembers members

/-- `inStorageOrder` of every item. -/
def inStorageOrderItems : List Json → Bool
  | [] => true
  | x :: rest => inStorageOrder x && inStorageOrderItems rest

/-- `inStorageOrder` of every member's value. -/
def inStorageOrderMembers : List (JsString × Json) → Bool
  | [] => true
  | (_, v) :: rest => inStorageOrder v && inStorageOrderMembers rest

end

theorem jsonbItems_eq_map (items : List Json) : jsonbItems items = items.map jsonb := by
  induction items with
  | nil => rfl
  | cons x rest ih => rw [jsonbItems, ih, List.map_cons]

theorem jsonbMembers_eq_mapValues (members : List (JsString × Json)) :
    jsonbMembers members = mapValues jsonb members := by
  induction members with
  | nil => rfl
  | cons m rest ih => rw [jsonbMembers, ih, mapValues_cons]

@[simp]
theorem jsonb_array (items : List Json) : jsonb (.array items) = .array (items.map jsonb) := by
  rw [jsonb, jsonbItems_eq_map]

@[simp]
theorem jsonb_object (members : List (JsString × Json)) :
    jsonb (.object members) = .object (storageProperties (mapValues jsonb members)) := by
  rw [jsonb, jsonbMembers_eq_mapValues]

theorem inStorageOrderItems_eq_true {items : List Json} :
    inStorageOrderItems items = true ↔ ∀ x ∈ items, inStorageOrder x = true := by
  induction items with
  | nil => simp [inStorageOrderItems]
  | cons x rest ih => simp [inStorageOrderItems, ih]

theorem inStorageOrderMembers_eq_true {members : List (JsString × Json)} :
    inStorageOrderMembers members = true ↔ ∀ m ∈ members, inStorageOrder m.2 = true := by
  induction members with
  | nil => simp [inStorageOrderMembers]
  | cons m rest ih => simp [inStorageOrderMembers, ih]

@[simp]
theorem inStorageOrder_array {items : List Json} :
    inStorageOrder (.array items) = true ↔ ∀ x ∈ items, inStorageOrder x = true := by
  rw [inStorageOrder, inStorageOrderItems_eq_true]

@[simp]
theorem inStorageOrder_object {members : List (JsString × Json)} :
    inStorageOrder (.object members) = true ↔
      KeysInStorageOrder members ∧ ∀ m ∈ members, inStorageOrder m.2 = true := by
  rw [inStorageOrder, Bool.and_eq_true, decide_eq_true_eq, inStorageOrderMembers_eq_true]

/-- The column keeps keys unique. -/
theorem uniqueKeys_jsonb {j : Json} (hj : j.uniqueKeys = true) : j.jsonb.uniqueKeys = true := by
  induction j using Json.inductionOn with
  | null | bool | number | string => exact hj
  | array items ih =>
    rw [uniqueKeys_array] at hj
    rw [jsonb_array, uniqueKeys_array]
    intro x hx
    obtain ⟨y, hy, rfl⟩ := List.mem_map.mp hx
    exact ih y hy (hj y hy)
  | object members ih =>
    rw [uniqueKeys_object] at hj
    rw [jsonb_object, uniqueKeys_object]
    have hperm := storageProperties_perm (mapValues jsonb members)
    refine ⟨?_, fun m hm => ?_⟩
    · rw [(hperm.map Prod.fst).nodup_iff, keys_mapValues]
      exact hj.1
    · obtain ⟨v, hmem, hv⟩ := mem_mapValues.mp (hperm.mem_iff.mp hm)
      rw [← hv]
      exact ih _ hmem (hj.2 _ hmem)

/-- Values whose members agree key by key have members that agree. -/
private theorem eq_of_ownProperties_mapValues_eq {f g : Json → Json}
    {members : List (JsString × Json)} (hunique : (members.map Prod.fst).Nodup)
    (hequal : ownProperties (storageProperties (mapValues f members)) =
      ownProperties (mapValues g members)) :
    ∀ m ∈ members, f m.2 = g m.2 := by
  intro m hm
  have hperm : (mapValues f members).Perm (mapValues g members) :=
    (((ownProperties_perm _).trans (storageProperties_perm _)).symm.trans
      (hequal ▸ List.Perm.refl _)).trans (ownProperties_perm _)
  have hmem : (m.1, f m.2) ∈ mapValues g members :=
    hperm.mem_iff.mp (mem_mapValues.mpr ⟨m.2, hm, rfl⟩)
  obtain ⟨v, hv, hvalue⟩ := mem_mapValues.mp hmem
  have hsame : v = m.2 := congrArg Prod.snd (eq_of_key_eq hunique hv hm rfl)
  rw [hsame] at hvalue
  exact hvalue.symm

/-- The column hides no more than enumeration does exactly when the value is in
storage order. -/
theorem ordered_jsonb_iff {j : Json} (hj : j.uniqueKeys = true) :
    j.jsonb.ordered = j.ordered ↔ j.inStorageOrder = true := by
  induction j using Json.inductionOn with
  | null | bool | number | string => exact iff_of_true rfl rfl
  | array items ih =>
    rw [uniqueKeys_array] at hj
    rw [jsonb_array, ordered_array, ordered_array, inStorageOrder_array, Json.array.injEq,
      List.map_map, List.map_inj_left]
    exact forall₂_congr fun x hx => ih x hx (hj x hx)
  | object members ih =>
    rw [uniqueKeys_object] at hj
    rw [jsonb_object, ordered_object, ordered_object, inStorageOrder_object,
      Json.object.injEq, ← storageProperties_mapValues, mapValues_mapValues]
    have hvalues : (∀ m ∈ members, m.2.jsonb.ordered = m.2.ordered) ↔
        ∀ m ∈ members, m.2.inStorageOrder = true :=
      forall₂_congr fun m hm => ih m hm (hj.2 m hm)
    have hkeys : ((mapValues ordered members).map Prod.fst).Nodup := by
      rw [keys_mapValues]
      exact hj.1
    rw [← hvalues, ← keysInStorageOrder_mapValues ordered,
      ← ownProperties_storageProperties_iff hkeys]
    constructor
    · intro hequal
      have hagree := eq_of_ownProperties_mapValues_eq hj.1 hequal
      rw [mapValues_congr hagree] at hequal
      exact ⟨hequal, hagree⟩
    · rintro ⟨hequal, hagree⟩
      rw [mapValues_congr hagree]
      exact hequal

end Json

/-- The value a JSONB column returns for this one. -/
def JsonValue.jsonb (v : JsonValue) : JsonValue :=
  ⟨v.json.jsonb, Json.uniqueKeys_jsonb v.uniqueKeys_json⟩

/-- **Storage is transparent exactly on values in storage order.** -/
theorem JsonValue.stringify_jsonb_iff (v : JsonValue) :
    v.jsonb.stringify = v.stringify ↔ v.json.inStorageOrder = true := by
  rw [← Json.ordered_jsonb_iff v.uniqueKeys_json]
  constructor
  · intro htext
    exact congrArg JsonValue.json (JsonValue.ordered_eq_of_stringify_eq htext)
  · intro hordered
    rw [JsonValue.stringify, JsonValue.stringify, ← Json.stringify_ordered,
      ← Json.stringify_ordered v.json]
    exact congrArg Json.stringify hordered

end TamperEvidentLog.Text
