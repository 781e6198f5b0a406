/-
# Paths into a JSON value

A path says by keys and indices where to look. A value may be copied, stored and
printed in ways that put the members of its objects in another order. What such a
rearrangement cannot change is what stands at the end of a path: following a path
and rearranging commute. In particular the leaves stay where they are.
-/

import TamperEvidentLog.Text.Jsonb

namespace TamperEvidentLog.Text

/-- One step into a value. -/
inductive PathStep
  | /-- `value[key]` of an object. -/
    key (k : JsString)
  | /-- `value[i]` of an array. -/
    index (i : ℕ)
  deriving DecidableEq

namespace Json

/-- The value one step further. -/
def child : PathStep → Json → Option Json
  | .key k, .object members => members.lookup k
  | .index i, .array items => items[i]?
  | _, _ => none

/-- The value at the end of a path. -/
def follow : List PathStep → Json → Option Json
  | [], j => some j
  | p :: path, j => (j.child p).bind (follow path)

/-- A value without parts. -/
def isLeaf : Json → Bool
  | array items => items.isEmpty
  | object members => members.isEmpty
  | _ => true

@[simp]
theorem follow_nil (j : Json) : j.follow [] = some j := rfl

@[simp]
theorem follow_cons (p : PathStep) (path : List PathStep) (j : Json) :
    j.follow (p :: path) = (j.child p).bind (follow path) := rfl

/-- Paths compose. -/
theorem follow_append (first second : List PathStep) (j : Json) :
    j.follow (first ++ second) = (j.follow first).bind (follow second) := by
  induction first generalizing j with
  | nil => rfl
  | cons p first ih =>
    rw [List.cons_append, follow_cons, follow_cons, Option.bind_assoc]
    exact congrArg (Option.bind _) (funext ih)

/-- The parts of a value have unique keys. -/
theorem uniqueKeys_of_child {j value : Json} {p : PathStep} (hj : j.uniqueKeys = true)
    (hchild : j.child p = some value) : value.uniqueKeys = true := by
  cases j with
  | null | bool | number | string => cases p <;> cases hchild
  | array items =>
    cases p with
    | key => cases hchild
    | index i => exact uniqueKeys_array.mp hj value (List.mem_of_getElem? hchild)
  | object members =>
    cases p with
    | key k =>
      rw [uniqueKeys_object] at hj
      exact hj.2 _ ((lookup_eq_some_iff_mem hj.1).mp hchild)
    | index => cases hchild

/-! ## Rearrangements -/

/-- A map that changes nothing but the order of the members of objects, at every
depth. -/
structure Rearranges (f : Json → Json) : Prop where
  /-- Scalars stay. -/
  scalar : ∀ j : Json, (∀ items, j ≠ .array items) → (∀ members, j ≠ .object members) → f j = j
  /-- Items stay where they are. -/
  array : ∀ items, f (.array items) = .array (items.map f)
  /-- Members may change places. -/
  object : ∀ members, ∃ members', f (.object members) = .object members' ∧
    members'.Perm (mapValues f members)

theorem rearranges_ordered : Rearranges ordered where
  scalar := by
    intro j harray hobject
    cases j with
    | array items => exact absurd rfl (harray items)
    | object members => exact absurd rfl (hobject members)
    | _ => rfl
  array := ordered_array
  object := fun members => ⟨_, ordered_object members, ownProperties_perm _⟩

theorem rearranges_jsonb : Rearranges jsonb where
  scalar := by
    intro j harray hobject
    cases j with
    | array items => exact absurd rfl (harray items)
    | object members => exact absurd rfl (hobject members)
    | _ => rfl
  array := jsonb_array
  object := fun members => ⟨_, jsonb_object members, storageProperties_perm _⟩

namespace Rearranges

variable {f : Json → Json}

/-- One step and a rearrangement commute. -/
theorem child_eq (hf : Rearranges f) {j : Json} (hj : j.uniqueKeys = true) (p : PathStep) :
    (f j).child p = (j.child p).map f := by
  cases j with
  | array items =>
    rw [hf.array]
    cases p with
    | key => rfl
    | index i => exact List.getElem?_map
  | object members =>
    obtain ⟨members', hobject, hperm⟩ := hf.object members
    rw [hobject]
    cases p with
    | key k =>
      rw [uniqueKeys_object] at hj
      have hkeys : ((mapValues f members).map Prod.fst).Nodup := by
        rw [keys_mapValues]
        exact hj.1
      exact (lookup_eq_of_perm hperm hkeys k).trans (lookup_mapValues f k members)
    | index => rfl
  | _ => rw [hf.scalar _ (by simp) (by simp)]; cases p <;> rfl

/-- **Following a path and rearranging commute.** -/
theorem follow_eq (hf : Rearranges f) {j : Json} (hj : j.uniqueKeys = true)
    (path : List PathStep) : (f j).follow path = (j.follow path).map f := by
  induction path generalizing j with
  | nil => rfl
  | cons p path ih =>
    rw [follow_cons, follow_cons, hf.child_eq hj]
    cases hchild : j.child p with
    | none => rfl
    | some value => exact ih (uniqueKeys_of_child hj hchild)

/-- Only a leaf becomes a leaf, and it stays as it is. -/
theorem eq_iff_of_isLeaf (hf : Rearranges f) {leaf : Json} (hleaf : leaf.isLeaf = true)
    (j : Json) : f j = leaf ↔ j = leaf := by
  cases j with
  | array items =>
    rw [hf.array]
    cases leaf with
    | array items' =>
      rw [isLeaf, List.isEmpty_iff] at hleaf
      simp [hleaf]
    | _ => simp
  | object members =>
    obtain ⟨members', hobject, hperm⟩ := hf.object members
    rw [hobject]
    cases leaf with
    | object members'' =>
      rw [isLeaf, List.isEmpty_iff] at hleaf
      subst hleaf
      have hlength := hperm.length_eq
      rw [mapValues, List.length_map] at hlength
      rw [Json.object.injEq, Json.object.injEq, ← List.length_eq_zero_iff, hlength,
        List.length_eq_zero_iff]
    | _ => simp
  | _ => rw [hf.scalar _ (by simp) (by simp)]

/-- **The leaves stay where they are.** -/
theorem follow_eq_leaf_iff (hf : Rearranges f) {j leaf : Json} (hj : j.uniqueKeys = true)
    (hleaf : leaf.isLeaf = true) (path : List PathStep) :
    (f j).follow path = some leaf ↔ j.follow path = some leaf := by
  rw [hf.follow_eq hj, Option.map_eq_some_iff]
  constructor
  · rintro ⟨value, hvalue, hf_value⟩
    rw [hvalue, (hf.eq_iff_of_isLeaf hleaf value).mp hf_value]
  · intro hvalue
    exact ⟨leaf, hvalue, (hf.eq_iff_of_isLeaf hleaf leaf).mpr rfl⟩

end Rearranges

end Json

end TamperEvidentLog.Text
