/-
# Texts joined by a separator

`Array.prototype.join`, and what can be read back from a joined text. A field
that is known not to contain the separator is recovered from the front of the
text or from its end; fields that may contain it are not, because the separators
inside them and between them look the same.
-/

import TamperEvidentLog.Text.Utf16

namespace TamperEvidentLog.Text

section Separators

variable {α : Type*}

/-- The part in front of the first separator is determined. -/
theorem append_cons_inj_of_left {sep : α} {a b s t : List α} (ha : sep ∉ a) (hb : sep ∉ b)
    (h : a ++ sep :: s = b ++ sep :: t) : a = b ∧ s = t := by
  induction a generalizing b with
  | nil =>
    cases b with
    | nil => exact ⟨rfl, (List.cons.inj h).2⟩
    | cons y b => exact absurd (List.cons.inj h).1 fun heq => hb (by simp [heq])
  | cons x a ih =>
    cases b with
    | nil => exact absurd (List.cons.inj h).1.symm fun heq => ha (by simp [heq])
    | cons y b =>
      obtain ⟨hhead, htail⟩ := List.cons.inj h
      obtain ⟨hinit, hrest⟩ := ih (fun hm => ha (by simp [hm])) (fun hm => hb (by simp [hm])) htail
      exact ⟨by rw [hhead, hinit], hrest⟩

/-- The part behind the last separator is determined. -/
theorem append_cons_inj_of_right {sep : α} {a b s t : List α} (hs : sep ∉ s) (ht : sep ∉ t)
    (h : a ++ sep :: s = b ++ sep :: t) : a = b ∧ s = t := by
  have hreverse := congrArg List.reverse h
  simp only [List.reverse_append, List.reverse_cons, List.append_assoc, List.cons_append,
    List.nil_append] at hreverse
  obtain ⟨hlast, hinit⟩ := append_cons_inj_of_left (by simpa using hs) (by simpa using ht)
    hreverse
  exact ⟨List.reverse_injective hinit, List.reverse_injective hlast⟩

end Separators

/-- `parts.join(sep)` for a separator of one code unit. -/
def joinWith (sep : UInt16) : List JsString → JsString
  | [] => []
  | [part] => part
  | part :: next :: rest => part ++ sep :: joinWith sep (next :: rest)

@[simp]
theorem joinWith_nil (sep : UInt16) : joinWith sep [] = [] := rfl

@[simp]
theorem joinWith_singleton (sep : UInt16) (part : JsString) : joinWith sep [part] = part := rfl

@[simp]
theorem joinWith_cons_cons (sep : UInt16) (part next : JsString) (rest : List JsString) :
    joinWith sep (part :: next :: rest) = part ++ sep :: joinWith sep (next :: rest) := rfl

end TamperEvidentLog.Text
