/-
# Pages of a list

As many pages as it takes to reach its end are the list cut into pieces: all of
it, in order, in pages that are full but for the last.

A list that only grows at its end is read page by page, and it may have grown
from one page to the next. A page that was full stays as it is; and whoever
reads pages until they cover what was there at the start has seen all of it
once, in order, followed by nothing that was there before.
-/

import Mathlib

namespace TamperEvidentLog.Protocol

universe uα

variable {α : Type uα} {size : ℕ}

/-- The page of this number, counted from 0. -/
def pageAt (size index : ℕ) (items : List α) : List α := (items.drop (index * size)).take size

/-! ## A list at rest -/

theorem length_pageAt (index : ℕ) (items : List α) :
    (pageAt size index items).length = min size (items.length - index * size) := by
  rw [pageAt, List.length_take, List.length_drop]

theorem pageAt_eq_nil_iff (hsize : 0 < size) {index : ℕ} {items : List α} :
    pageAt size index items = [] ↔ items.length ≤ index * size := by
  rw [← List.length_eq_zero_iff, length_pageAt]
  omega

/-- The first pages are what the list begins with. -/
theorem flatten_pageAt (count : ℕ) (items : List α) :
    ((List.range count).map fun index => pageAt size index items).flatten =
      items.take (count * size) := by
  induction count with
  | zero => simp
  | succ count ih =>
    rw [List.range_succ, List.map_append, List.flatten_append, ih, Nat.add_one_mul, List.take_add]
    simp [pageAt]

/-- How many pages it takes to reach the end. -/
def IsPageCount (size count : ℕ) (items : List α) : Prop :=
  ∀ pages, count ≤ pages ↔ items.length ≤ pages * size

namespace IsPageCount

variable {count : ℕ} {items : List α}

/-- **The pages are the list.** -/
theorem flatten_eq (hcount : IsPageCount size count items) :
    ((List.range count).map fun index => pageAt size index items).flatten = items := by
  rw [flatten_pageAt, List.take_of_length_le ((hcount count).mp le_rfl)]

/-- There is something on each of them, and nothing behind them. -/
theorem pageAt_eq_nil_iff (hcount : IsPageCount size count items) (hsize : 0 < size)
    {index : ℕ} : pageAt size index items = [] ↔ count ≤ index := by
  rw [Protocol.pageAt_eq_nil_iff hsize, hcount index]

/-- All but the last of them are full. -/
theorem length_pageAt_eq (hcount : IsPageCount size count items) {index : ℕ}
    (hindex : index + 1 < count) : (pageAt size index items).length = size := by
  have hbehind := (hcount (index + 1)).not.mp hindex.not_ge
  rw [Nat.add_one_mul] at hbehind
  rw [length_pageAt]
  omega

/-- There are none exactly if the list is empty. -/
theorem eq_zero_iff (hcount : IsPageCount size count items) : count = 0 ↔ items = [] := by
  rw [← Nat.le_zero, hcount 0, Nat.zero_mul, Nat.le_zero, List.length_eq_zero_iff]

end IsPageCount

/-! ## A growing list -/

/-- A full page ends within the list. -/
theorem le_length_of_pageAt {index : ℕ} {items : List α}
    (hfull : (pageAt size index items).length = size) :
    size = 0 ∨ index * size + size ≤ items.length := by
  rw [pageAt, List.length_take, List.length_drop] at hfull
  omega

/-- **A full page stays as it is.** -/
theorem pageAt_eq_of_isPrefix {index : ℕ} {old new : List α} (hbegins : old <+: new)
    (hfull : (pageAt size index old).length = size) :
    pageAt size index new = pageAt size index old := by
  obtain ⟨added, rfl⟩ := hbegins
  rcases le_length_of_pageAt hfull with rfl | hle
  · rw [pageAt, pageAt, List.take_zero, List.take_zero]
  · rw [pageAt, pageAt, List.drop_append_of_le_length (by omega), List.take_append_of_le_length]
    rw [List.length_drop]
    omega

/-- The pages read one after another, the first of them the one of this number,
each from the list as it was then. -/
def readPages (size : ℕ) : ℕ → List (List α) → List (List α)
  | _, [] => []
  | index, items :: later => pageAt size index items :: readPages size (index + 1) later

/-- A page of a list that has grown: what it holds of the old list and what was
added. -/
theorem pageAt_append (index : ℕ) (old added : List α) :
    pageAt size index (old ++ added) = pageAt size index old ++
      (added.drop (index * size - old.length)).take (size - (old.length - index * size)) := by
  rw [pageAt, pageAt, List.drop_append, List.take_append, List.length_drop]

/-- **Reading page by page** until the old list is covered gives the old list,
from the first page on, and nothing of it again. -/
theorem flatten_readPages {index : ℕ} {old : List α} {snapshots : List (List α)}
    (hgrown : ∀ items ∈ snapshots, old <+: items ∧ items.Nodup)
    (hcover : old.length ≤ (index + snapshots.length) * size) :
    ∃ added, (readPages size index snapshots).flatten = old.drop (index * size) ++ added ∧
      ∀ x ∈ added, x ∉ old := by
  induction snapshots generalizing index with
  | nil =>
    rw [List.length_nil, Nat.add_zero] at hcover
    exact ⟨[], by simp [readPages, List.drop_eq_nil_of_le hcover], by simp⟩
  | cons items later ih =>
    obtain ⟨⟨added, rfl⟩, hnodup⟩ := hgrown items (by simp)
    obtain ⟨rest, hrest, hrestNew⟩ := @ih (index + 1)
      (fun items hitems => hgrown items (by simp [hitems]))
      (by simpa [Nat.add_assoc, Nat.add_comm 1] using hcover)
    have hnew : ∀ x ∈ added, x ∉ old := fun x hx hold =>
      List.disjoint_of_nodup_append hnodup hold hx
    rw [readPages, List.flatten_cons, hrest, pageAt_append, Nat.add_one_mul]
    by_cases hbehind : index * size + size ≤ old.length
    · -- The old list reaches behind this page, so the page holds nothing else.
      have hfull : size - (old.length - index * size) = 0 := by omega
      refine ⟨rest, ?_, hrestNew⟩
      rw [hfull, List.take_zero, List.append_nil, ← List.append_assoc, pageAt, ← List.drop_drop,
        List.take_append_drop]
    · -- The old list ends in this page or before it.
      rw [not_le] at hbehind
      refine ⟨(added.drop (index * size - old.length)).take
        (size - (old.length - index * size)) ++ rest, ?_, ?_⟩
      · rw [List.drop_eq_nil_of_le hbehind.le, List.nil_append, pageAt, List.take_of_length_le,
          List.append_assoc]
        rw [List.length_drop]
        omega
      · intro x hx
        rcases List.mem_append.mp hx with hx | hx
        · exact hnew x (List.mem_of_mem_drop (List.mem_of_mem_take hx))
        · exact hrestNew x hx

end TamperEvidentLog.Protocol
