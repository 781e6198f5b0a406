/-
# Lists that ascend by a key

Records are kept by an ascending key and a query asks for those whose key lies in
some range. What it gets is one stretch of the list: the records of a convex set of
keys stand next to each other, those below a key stand first, and those between
the keys of two records stand between the two.
-/

import Mathlib

namespace TamperEvidentLog.Protocol

variable {α κ : Type*} [LinearOrder κ] {key : α → κ} {items : List α}

/-! ## Cutting at a bound -/

/-- A sorted list is what it has below a bound and then the rest. -/
theorem filter_lt_append_filter_le
    (hsorted : items.Pairwise fun first second => key first ≤ key second) (bound : κ) :
    (items.filter fun x => key x < bound) ++ (items.filter fun x => bound ≤ key x) = items := by
  induction items with
  | nil => rfl
  | cons x items ih =>
    obtain ⟨hhead, htail⟩ := List.pairwise_cons.mp hsorted
    by_cases hx : key x < bound
    · rw [List.filter_cons_of_pos (by simpa using hx), List.filter_cons_of_neg (by simpa using hx),
        List.cons_append, ih htail]
    · have habove : ∀ y ∈ x :: items, bound ≤ key y := by
        intro y hy
        rcases List.mem_cons.mp hy with rfl | hy
        · exact not_lt.mp hx
        · exact (not_lt.mp hx).trans (hhead y hy)
      rw [List.filter_eq_nil_iff.mpr fun y hy => by simpa using habove y hy,
        List.filter_eq_self.mpr fun y hy => by simpa using habove y hy, List.nil_append]

/-- The part of a rearrangement below a bound and the part above it. -/
theorem perm_filter_of_cut {bound : κ} {low high : List α}
    (hperm : items.Perm (low ++ high)) (hlow : ∀ x ∈ low, key x < bound)
    (hhigh : ∀ x ∈ high, bound ≤ key x) :
    (items.filter fun x => key x < bound).Perm low ∧
      (items.filter fun x => bound ≤ key x).Perm high := by
  have hlow_lt : (low.filter fun x => key x < bound) = low :=
    List.filter_eq_self.mpr fun x hx => by simpa using hlow x hx
  have hhigh_lt : (high.filter fun x => key x < bound) = [] :=
    List.filter_eq_nil_iff.mpr fun x hx => by simpa using hhigh x hx
  have hlow_le : (low.filter fun x => bound ≤ key x) = [] :=
    List.filter_eq_nil_iff.mpr fun x hx => by simpa using hlow x hx
  have hhigh_le : (high.filter fun x => bound ≤ key x) = high :=
    List.filter_eq_self.mpr fun x hx => by simpa using hhigh x hx
  constructor
  · have hfilter := hperm.filter fun x => key x < bound
    rwa [List.filter_append, hlow_lt, hhigh_lt, List.append_nil] at hfilter
  · have hfilter := hperm.filter fun x => bound ≤ key x
    rwa [List.filter_append, hlow_le, hhigh_le, List.nil_append] at hfilter

/-! ## Convex sets of keys -/

/-- A property that holds between any two records that have it. -/
def Convex (key : α → κ) (p : α → Bool) : Prop :=
  ∀ x y z, key x ≤ key y → key y ≤ key z → p x = true → p z = true → p y = true

/-- Behind a record that has the property, those that have it come first. -/
theorem filter_isPrefix_of_convex {p : α → Bool} (hconvex : Convex key p) {x : α}
    (hsorted : (x :: items).Pairwise fun first second => key first ≤ key second)
    (hx : p x = true) : items.filter p <+: items := by
  induction items generalizing x with
  | nil => exact List.prefix_rfl
  | cons y items ih =>
    obtain ⟨hhead, htail⟩ := List.pairwise_cons.mp hsorted
    by_cases hy : p y = true
    · rw [List.filter_cons_of_pos hy]
      exact List.prefix_cons_inj y |>.mpr (ih htail hy)
    · -- A later record with the property would give it to `y`.
      have hnone : ∀ z ∈ y :: items, ¬ p z = true := by
        intro z hz hpz
        rcases List.mem_cons.mp hz with rfl | hmem
        · exact hy hpz
        · have hxy := hhead y List.mem_cons_self
          exact hy (hconvex x y z hxy ((List.pairwise_cons.mp htail).1 z hmem) hx hpz)
      rw [List.filter_eq_nil_iff.mpr hnone]
      exact List.nil_prefix

/-- **One stretch.** The records of a convex set of keys stand next to each
other. -/
theorem filter_isInfix_of_convex {p : α → Bool} (hconvex : Convex key p)
    (hsorted : items.Pairwise fun first second => key first ≤ key second) :
    items.filter p <:+: items := by
  induction items with
  | nil => exact List.infix_rfl
  | cons x items ih =>
    by_cases hx : p x = true
    · rw [List.filter_cons_of_pos hx]
      have hgrown := filter_isPrefix_of_convex hconvex hsorted hx
      exact ((List.prefix_cons_inj x).mpr hgrown).isInfix
    · rw [List.filter_cons_of_neg hx]
      exact (ih (List.pairwise_cons.mp hsorted).2).trans (List.suffix_cons x items).isInfix

/-! ## Places -/

/-- The records at the places from `i` up to `j`. -/
theorem filter_eq_take_drop {p : α → Bool} {i j : ℕ} (hij : i ≤ j)
    (hp : ∀ k x, items[k]? = some x → (p x = true ↔ i ≤ k ∧ k < j)) :
    items.filter p = (items.drop i).take (j - i) := by
  have hsplit : items = items.take i ++ ((items.drop i).take (j - i) ++ items.drop j) := by
    rw [← Nat.add_sub_cancel' hij, ← List.drop_drop, Nat.add_sub_cancel_left, List.take_append_drop,
      List.take_append_drop]
  have hbefore : (items.take i).filter p = [] := by
    refine List.filter_eq_nil_iff.mpr fun x hx hpx => ?_
    obtain ⟨k, hk⟩ := List.mem_iff_getElem?.mp hx
    rw [List.getElem?_take, Option.ite_none_right_eq_some] at hk
    exact absurd ((hp k x hk.2).mp hpx).1 (not_le.mpr hk.1)
  have hinside : ((items.drop i).take (j - i)).filter p = (items.drop i).take (j - i) := by
    refine List.filter_eq_self.mpr fun x hx => ?_
    obtain ⟨k, hk⟩ := List.mem_iff_getElem?.mp hx
    rw [List.getElem?_take, List.getElem?_drop, Option.ite_none_right_eq_some] at hk
    exact (hp (i + k) x hk.2).mpr ⟨Nat.le_add_right i k, by omega⟩
  have hafter : (items.drop j).filter p = [] := by
    refine List.filter_eq_nil_iff.mpr fun x hx hpx => ?_
    obtain ⟨k, hk⟩ := List.mem_iff_getElem?.mp hx
    rw [List.getElem?_drop] at hk
    exact absurd ((hp (j + k) x hk).mp hpx).2 (by omega)
  calc items.filter p
      = (items.take i ++ ((items.drop i).take (j - i) ++ items.drop j)).filter p :=
        congrArg (List.filter p) hsplit
    _ = (items.drop i).take (j - i) := by
        rw [List.filter_append, List.filter_append, hbefore, hinside, hafter, List.nil_append,
          List.append_nil]

/-- Keys ascend strictly with the places. -/
theorem key_lt_key_iff (hsorted : items.Pairwise fun first second => key first < key second)
    {k l : ℕ} {x y : α} (hx : items[k]? = some x) (hy : items[l]? = some y) :
    key x < key y ↔ k < l := by
  have hlt {k l : ℕ} {x y : α} (hx : items[k]? = some x) (hy : items[l]? = some y) (hkl : k < l) :
      key x < key y := by
    obtain ⟨hk, rfl⟩ := List.getElem?_eq_some_iff.mp hx
    obtain ⟨hl, rfl⟩ := List.getElem?_eq_some_iff.mp hy
    exact List.pairwise_iff_getElem.mp hsorted k l hk hl hkl
  rcases lt_trichotomy k l with hkl | rfl | hlk
  · exact iff_of_true (hlt hx hy hkl) hkl
  · cases hx.symm.trans hy
    exact iff_of_false (lt_irrefl _) (lt_irrefl _)
  · exact iff_of_false (hlt hy hx hlk).asymm hlk.asymm

theorem key_le_key_iff (hsorted : items.Pairwise fun first second => key first < key second)
    {k l : ℕ} {x y : α} (hx : items[k]? = some x) (hy : items[l]? = some y) :
    key x ≤ key y ↔ k ≤ l := by
  rw [← not_lt, ← not_lt, key_lt_key_iff hsorted hy hx]

/-- The records before one of them. -/
theorem filter_lt_key (hsorted : items.Pairwise fun first second => key first < key second)
    {i : ℕ} {first : α} (hfirst : items[i]? = some first) :
    (items.filter fun x => key x < key first) = items.take i := by
  rw [filter_eq_take_drop (i := 0) (j := i) (Nat.zero_le i) fun k x hx => ?_]
  · rw [List.drop_zero, Nat.sub_zero]
  · rw [decide_eq_true_eq, key_lt_key_iff hsorted hx hfirst]
    exact (and_iff_right (Nat.zero_le k)).symm

/-- The records from one of them to another. -/
theorem filter_between_keys
    (hsorted : items.Pairwise fun first second => key first < key second) {i j : ℕ} (hij : i ≤ j)
    {first last : α} (hfirst : items[i]? = some first) (hlast : items[j]? = some last) :
    (items.filter fun x => key first ≤ key x ∧ key x ≤ key last) =
      (items.drop i).take (j + 1 - i) := by
  refine filter_eq_take_drop (hij.trans (Nat.le_succ j)) fun k x hx => ?_
  rw [decide_eq_true_eq, key_le_key_iff hsorted hfirst hx, key_le_key_iff hsorted hx hlast,
    Nat.lt_succ_iff]

end TamperEvidentLog.Protocol
