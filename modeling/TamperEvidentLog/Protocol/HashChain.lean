/-
# Chains of blocks that name their predecessor

A block carries a link to what stands before it and a tip by which the block
behind it names it. A list of blocks is linked from a root when the first link
is the root and every later link is the tip of the block just before.

Everything a hash chain promises follows from two assumptions about the blocks
at hand: blocks with one tip have one link, and no block has the root as its
tip. Then the last tip fixes the tips of the whole chain, no two blocks of a
chain share a tip or a link, and the only linked arrangements of a chain's
blocks are its initial segments.
-/

import Mathlib

namespace TamperEvidentLog.Protocol

universe uα uκ

variable {α : Type uα} {κ : Type uκ}

/-- How a block names its predecessor and is named by its successor. -/
structure Linkage (α : Type uα) (κ : Type uκ) where
  /-- What the block says stands before it. -/
  link : α → κ
  /-- What the block behind it has to say. -/
  tip : α → κ

namespace Linkage

variable (L : Linkage α κ)

/-- The blocks are linked, the first of them to `root`. -/
def Linked (root : κ) : List α → Prop
  | [] => True
  | x :: rest => L.link x = root ∧ Linked (L.tip x) rest

/-- The name that the next block of a chain has to carry. -/
def tipOf (root : κ) : List α → κ
  | [] => root
  | x :: rest => tipOf (L.tip x) rest

variable {L} {root : κ} {blocks : List α} {x : α}

@[simp]
theorem linked_nil : L.Linked root [] := trivial

@[simp]
theorem linked_cons : L.Linked root (x :: blocks) ↔
    L.link x = root ∧ L.Linked (L.tip x) blocks := Iff.rfl

@[simp]
theorem tipOf_nil : L.tipOf root [] = root := rfl

@[simp]
theorem tipOf_cons : L.tipOf root (x :: blocks) = L.tipOf (L.tip x) blocks := rfl

theorem tipOf_append (first second : List α) :
    L.tipOf root (first ++ second) = L.tipOf (L.tipOf root first) second := by
  induction first generalizing root with
  | nil => rfl
  | cons x first ih => exact ih

@[simp]
theorem tipOf_snoc : L.tipOf root (blocks ++ [x]) = L.tip x := tipOf_append _ _

theorem linked_append {first second : List α} :
    L.Linked root (first ++ second) ↔
      L.Linked root first ∧ L.Linked (L.tipOf root first) second := by
  induction first generalizing root with
  | nil => simp
  | cons x first ih => simp [ih, and_assoc]

/-- Appending a block asks only for its own link. -/
theorem linked_snoc :
    L.Linked root (blocks ++ [x]) ↔ L.Linked root blocks ∧ L.link x = L.tipOf root blocks := by
  simp [linked_append]

/-- An initial segment of a chain is a chain. -/
theorem Linked.of_isPrefix {first : List α} (hlinked : L.Linked root blocks)
    (hfirst : first <+: blocks) : L.Linked root first := by
  obtain ⟨rest, rfl⟩ := hfirst
  exact (linked_append.mp hlinked).1

/-- What a block of a chain stands behind is the root or the tip of another
block. -/
theorem Linked.link_eq_root_or_tip (hlinked : L.Linked root blocks) (hx : x ∈ blocks) :
    L.link x = root ∨ ∃ y ∈ blocks, L.link x = L.tip y := by
  induction blocks generalizing root with
  | nil => cases hx
  | cons head blocks ih =>
    rcases List.mem_cons.mp hx with rfl | hx
    · exact .inl hlinked.1
    · rcases ih hlinked.2 hx with hhead | ⟨y, hy, hlink⟩
      · exact .inr ⟨head, by simp, hhead⟩
      · exact .inr ⟨y, by simp [hy], hlink⟩

/-- A later block of a chain names the block just before it. -/
theorem Linked.link_getElem_succ (hlinked : L.Linked root blocks) (i : ℕ)
    (hi : i + 1 < blocks.length) : L.link blocks[i + 1] = L.tip blocks[i] := by
  induction blocks generalizing root i with
  | nil => simp at hi
  | cons head blocks ih =>
    cases i with
    | zero =>
      cases blocks with
      | nil => simp at hi
      | cons next blocks => exact hlinked.2.1
    | succ i => exact ih hlinked.2 i (by simpa using hi)

theorem tipOf_eq_getLast (hne : blocks ≠ []) :
    L.tipOf root blocks = L.tip (blocks.getLast hne) := by
  conv_lhs => rw [← List.dropLast_append_getLast hne]
  exact tipOf_snoc

/-- Only links and tips matter. -/
theorem linked_map_congr {β : Type*} {f g : β → α} {items : List β}
    (hlink : ∀ x, L.link (f x) = L.link (g x)) (htip : ∀ x, L.tip (f x) = L.tip (g x)) :
    L.Linked root (items.map f) ↔ L.Linked root (items.map g) := by
  induction items generalizing root with
  | nil => rfl
  | cons x items ih => rw [List.map_cons, List.map_cons, linked_cons, linked_cons, hlink, htip, ih]

variable (L) in
/-- What is assumed of the blocks a statement compares: a tip commits to the
link behind it, and the root is nobody's tip. -/
structure Commits (root : κ) (among : Set α) : Prop where
  /-- Blocks with one tip have one link. -/
  link_eq : ∀ x ∈ among, ∀ y ∈ among, L.tip x = L.tip y → L.link x = L.link y
  /-- The root is not the tip of a block. -/
  tip_ne : ∀ x ∈ among, L.tip x ≠ root

section Commitment

variable {among : Set α} {first second : List α}

/-- **Commitment.** Two chains that end in the same name carry the same tips
throughout; in particular they are equally long. -/
theorem map_tip_eq_of_tipOf_eq (hcommits : L.Commits root among)
    (hfirst : ∀ x ∈ first, x ∈ among) (hsecond : ∀ x ∈ second, x ∈ among)
    (hlinkedFirst : L.Linked root first) (hlinkedSecond : L.Linked root second)
    (htip : L.tipOf root first = L.tipOf root second) :
    first.map L.tip = second.map L.tip := by
  induction first using List.reverseRecOn generalizing second with
  | nil =>
    -- A chain that ends in the root has no last block.
    rcases List.eq_nil_or_concat' second with rfl | ⟨init, y, rfl⟩
    · rfl
    · rw [tipOf_nil, tipOf_snoc] at htip
      exact absurd htip.symm (hcommits.tip_ne y (hsecond y (by simp)))
  | append_singleton init x ih =>
    rcases List.eq_nil_or_concat' second with rfl | ⟨init', y, rfl⟩
    · rw [tipOf_nil, tipOf_snoc] at htip
      exact absurd htip (hcommits.tip_ne x (hfirst x (by simp)))
    · rw [tipOf_snoc, tipOf_snoc] at htip
      rw [linked_snoc] at hlinkedFirst hlinkedSecond
      have hlink := hcommits.link_eq x (hfirst x (by simp)) y (hsecond y (by simp)) htip
      have hinit := ih (fun z hz => hfirst z (by simp [hz])) (fun z hz => hsecond z (by simp [hz]))
        hlinkedFirst.1 hlinkedSecond.1
        (hlinkedFirst.2.symm.trans (hlink.trans hlinkedSecond.2))
      simp [hinit, htip]

/-- Different initial segments of a chain end in different names. -/
theorem length_eq_of_tipOf_eq_of_isPrefix (hcommits : L.Commits root among)
    (hblocks : ∀ x ∈ blocks, x ∈ among) (hlinked : L.Linked root blocks)
    (hfirst : first <+: blocks) (hsecond : second <+: blocks)
    (htip : L.tipOf root first = L.tipOf root second) : first.length = second.length := by
  have htips := map_tip_eq_of_tipOf_eq hcommits (fun x hx => hblocks x (hfirst.subset hx))
    (fun x hx => hblocks x (hsecond.subset hx)) (hlinked.of_isPrefix hfirst)
    (hlinked.of_isPrefix hsecond) htip
  simpa using congrArg List.length htips

/-- The name a chain ends in is not the tip of a block further up, nor the
root of a nonempty chain. -/
theorem tips_nodup (hcommits : L.Commits root among) (hblocks : ∀ x ∈ blocks, x ∈ among)
    (hlinked : L.Linked root blocks) : (blocks.map L.tip).Nodup := by
  rw [List.nodup_iff_injective_get]
  intro i k htip
  have hsegment (j : Fin (blocks.map L.tip).length) :
      L.tipOf root (blocks.take (j + 1)) = (blocks.map L.tip).get j := by
    have hj : (j : ℕ) < blocks.length := by simpa using j.isLt
    rw [List.take_succ_eq_append_getElem hj, tipOf_snoc]
    simp
  have hlength := length_eq_of_tipOf_eq_of_isPrefix hcommits hblocks hlinked
    (List.take_prefix (i + 1) blocks) (List.take_prefix (k + 1) blocks)
    (by rw [hsegment, hsegment, htip])
  have hi : (i : ℕ) < blocks.length := by simpa using i.isLt
  have hk : (k : ℕ) < blocks.length := by simpa using k.isLt
  rw [List.length_take, List.length_take] at hlength
  exact Fin.ext (by omega)

/-- No two blocks of a chain have the same link. -/
theorem links_nodup (hcommits : L.Commits root among) (hblocks : ∀ x ∈ blocks, x ∈ among)
    (hlinked : L.Linked root blocks) : (blocks.map L.link).Nodup := by
  have hlinks (root' : κ) (chain : List α) (hchain : L.Linked root' chain) :
      chain.map L.link <+: root' :: chain.map L.tip := by
    induction chain generalizing root' with
    | nil => exact List.nil_prefix
    | cons x chain ih =>
      rw [List.map_cons, List.map_cons, hchain.1]
      exact List.cons_prefix_cons.mpr ⟨rfl, ih _ hchain.2⟩
  apply (hlinks root blocks hlinked).sublist.nodup
  refine List.nodup_cons.mpr ⟨fun hmem => ?_, tips_nodup hcommits hblocks hlinked⟩
  obtain ⟨x, hx, htip⟩ := List.mem_map.mp hmem
  exact hcommits.tip_ne x (hblocks x hx) htip

/-- **Arrangements.** A list made of blocks of a chain, in any order and number,
is itself a chain exactly when it is an initial segment. -/
theorem linked_iff_isPrefix (hcommits : L.Commits root among)
    (hblocks : ∀ x ∈ blocks, x ∈ among) (hlinked : L.Linked root blocks)
    {arranged : List α} (harranged : ∀ x ∈ arranged, x ∈ blocks) :
    L.Linked root arranged ↔ arranged <+: blocks := by
  refine ⟨fun hlinked' => ?_, hlinked.of_isPrefix⟩
  induction arranged using List.reverseRecOn with
  | nil => exact List.nil_prefix
  | append_singleton init x ih =>
    rw [linked_snoc] at hlinked'
    have hinit := ih (fun y hy => harranged y (by simp [hy])) hlinked'.1
    -- The last block sits somewhere in the chain, behind a segment with the same name.
    obtain ⟨before, after, hsplit⟩ := List.append_of_mem (harranged x (by simp))
    have hbefore : before ++ [x] <+: blocks := ⟨after, by rw [hsplit]; simp⟩
    have hlink := (linked_snoc.mp (hlinked.of_isPrefix hbefore)).2
    have hlength := length_eq_of_tipOf_eq_of_isPrefix hcommits hblocks hlinked hinit
      ((List.prefix_append before [x]).trans hbefore) (hlinked'.2.symm.trans hlink)
    have hequal : init = before :=
      (List.prefix_of_prefix_length_le hinit
        ((List.prefix_append before [x]).trans hbefore) hlength.le).eq_of_length hlength
    rw [hequal]
    exact hbefore

end Commitment

end Linkage

end TamperEvidentLog.Protocol
