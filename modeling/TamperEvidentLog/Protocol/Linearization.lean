/-
# Calls that take effect at one of their steps

A system serves many calls at once, and each of them takes several steps. It is
nevertheless used as if a call were a single operation on a shared object. That
is justified when every call has a step at which its outcome is decided, and the
outcomes, in the order of these steps, are what the object would have answered
had it been asked one operation at a time.

The order is read off the run and not chosen afterwards: the effects of a run are
a first segment of the effects of every continuation. So a call that had its
outcome before another one began comes first, and what has been answered is never
reordered by what happens later.
-/

import TamperEvidentLog.Protocol.Run

namespace TamperEvidentLog.Protocol

universe uσ uε uκ uβ uτ

variable {σ : Type uσ} {ε : Type uε} {κ : Type uκ} {β : Type uβ} {τ : Type uτ}

/-! ## Effects -/

section Effects

variable (step : σ → ε → Option σ) (resumed : σ → ε → Option κ) (outcome : σ → κ → Option β)

/-- The call whose outcome the event decides, with the outcome. -/
def effect (s : σ) (e : ε) : Option (κ × β) :=
  match step s e, resumed s e with
  | some t, some k => if (outcome s k).isNone then (outcome t k).map (k, ·) else none
  | _, _ => none

/-- The effects of a list of events in the order in which they happen. -/
def effects : σ → List ε → List (κ × β) := trace step (effect step resumed outcome)

/-- How steps treat outcomes: each step resumes at most one call, and an outcome
is final. -/
structure Settles (allowed : σ → ε → Prop) : Prop where
  /-- A call that is not resumed is left as it is. -/
  frame : ∀ {s t : σ} {e : ε} {k : κ}, allowed s e → step s e = some t → resumed s e ≠ some k →
    outcome t k = outcome s k
  /-- No step takes an outcome back. -/
  final : ∀ {s t : σ} {e : ε} {k : κ} {b : β}, allowed s e → step s e = some t →
    outcome s k = some b → outcome t k = some b

end Effects

section Runs

variable {step : σ → ε → Option σ} {resumed : σ → ε → Option κ} {outcome : σ → κ → Option β}
  {allowed : σ → ε → Prop} {start s t : σ} {events : List ε}

/-- An effect is an outcome that was not there before. -/
theorem effect_eq_some_iff {e : ε} {k : κ} {b : β} (hstep : step s e = some t) :
    effect step resumed outcome s e = some (k, b) ↔
      resumed s e = some k ∧ outcome s k = none ∧ outcome t k = some b := by
  rw [effect, hstep]
  cases hresumed : resumed s e with
  | none => simp
  | some k' =>
    simp only [Option.isNone_iff_eq_none, Option.ite_none_right_eq_some, Option.map_eq_some_iff,
      Prod.mk.injEq, Option.some.injEq]
    constructor
    · rintro ⟨hnone, b', hb', rfl, rfl⟩
      exact ⟨rfl, hnone, hb'⟩
    · rintro ⟨rfl, hnone, hb⟩
      exact ⟨hnone, b, hb, rfl, rfl⟩

/-- The outcomes after a step are those before it and its effect. -/
theorem Settles.outcome_of_step (hsettles : Settles step resumed outcome allowed) {e : ε}
    (hallowed : allowed s e) (hstep : step s e = some t) (k : κ) (b : β) :
    outcome t k = some b ↔
      outcome s k = some b ∨ effect step resumed outcome s e = some (k, b) := by
  rw [effect_eq_some_iff hstep]
  constructor
  · intro hafter
    by_cases hresumed : resumed s e = some k
    · cases hbefore : outcome s k with
      | none => exact .inr ⟨hresumed, rfl, hafter⟩
      | some b' =>
        have hkept := hsettles.final hallowed hstep hbefore
        exact .inl (hkept.symm.trans hafter)
    · exact .inl (hsettles.frame hallowed hstep hresumed ▸ hafter)
  · rintro (hbefore | ⟨_, _, hafter⟩)
    · exact hsettles.final hallowed hstep hbefore
    · exact hafter

/-- The effects of a run with one more event. -/
theorem effects_snoc {e : ε} (hrun : Run step allowed start events s) (hstep : step s e = some t) :
    effects step resumed outcome start (events ++ [e]) =
      effects step resumed outcome start events ++ (effect step resumed outcome s e).toList :=
  hrun.trace_snoc hstep

/-- **The outcomes of a run are its effects.** -/
theorem Settles.outcome_iff_mem (hsettles : Settles step resumed outcome allowed)
    (hstart : ∀ k, outcome start k = none) (hrun : Run step allowed start events t) (k : κ)
    (b : β) :
    outcome t k = some b ↔ (k, b) ∈ effects step resumed outcome start events := by
  induction hrun with
  | nil => simp [effects, trace, hstart]
  | snoc prior hallowed hstep ih =>
    rw [hsettles.outcome_of_step hallowed hstep, ih, effects_snoc prior hstep, List.mem_append,
      Option.mem_toList]

/-- **No call takes effect twice.** -/
theorem Settles.effects_nodup (hsettles : Settles step resumed outcome allowed)
    (hstart : ∀ k, outcome start k = none) (hrun : Run step allowed start events t) :
    ((effects step resumed outcome start events).map Prod.fst).Nodup := by
  induction hrun with
  | nil => exact List.nodup_nil
  | @snoc events s t e prior hallowed hstep ih =>
    rw [effects_snoc prior hstep, List.map_append]
    cases heffect : effect step resumed outcome s e with
    | none => simpa using ih
    | some d =>
      obtain ⟨k, b⟩ := d
      have hnone := ((effect_eq_some_iff hstep).mp heffect).2.1
      refine List.nodup_append.mpr ⟨ih, List.nodup_singleton k, fun k' hk' k'' hk'' => ?_⟩
      rintro rfl
      obtain rfl := List.mem_singleton.mp hk''
      obtain ⟨⟨k', b'⟩, hmem, rfl⟩ := List.mem_map.mp hk'
      rw [(hsettles.outcome_iff_mem hstart prior k' b').mpr hmem] at hnone
      cases hnone

/-- **Real-time order.** A call with an outcome comes before every call that had
none yet. -/
theorem Settles.effects_sublist (hsettles : Settles step resumed outcome allowed)
    (hstart : ∀ k, outcome start k = none) {later : List ε}
    (hbefore : Run step allowed start events s) (hafter : Run step allowed s later t)
    {k k' : κ} {b b' : β} (hk : outcome s k = some b) (hk' : outcome s k' = none)
    (hend : outcome t k' = some b') :
    [(k, b), (k', b')].Sublist (effects step resumed outcome start (events ++ later)) := by
  have hfirst := (hsettles.outcome_iff_mem hstart hbefore k b).mp hk
  have hsecond := (hsettles.outcome_iff_mem hstart (hbefore.append hafter) k' b').mp hend
  rw [effects, hbefore.trace_append] at hsecond ⊢
  have hlater := (List.mem_append.mp hsecond).resolve_left fun hmem => by
    rw [(hsettles.outcome_iff_mem hstart hbefore k' b').mpr hmem] at hk'
    cases hk'
  rw [← List.singleton_append]
  exact (List.singleton_sublist.mpr hfirst).append (List.singleton_sublist.mpr hlater)

/-- **The effects are a history of the object.** If each effect is a legal
operation in the state that a view of the system shows, and nothing else changes
that view, then the effects in their order are a run of the object. -/
theorem run_effects {view : σ → τ} {apply : τ → κ × β → Option τ} {legal : τ → κ × β → Prop}
    (hrun : Run step allowed start events t)
    (heffect : ∀ s e t d, allowed s e → step s e = some t →
      effect step resumed outcome s e = some d →
      legal (view s) d ∧ apply (view s) d = some (view t))
    (hquiet : ∀ s e t, allowed s e → step s e = some t →
      effect step resumed outcome s e = none → view t = view s) :
    Run apply legal (view start) (effects step resumed outcome start events) (view t) := by
  induction hrun with
  | nil => exact Run.nil
  | @snoc events s t e prior hallowed hstep ih =>
    rw [effects_snoc prior hstep]
    cases hnow : effect step resumed outcome s e with
    | none =>
      rw [hquiet s e t hallowed hstep hnow, Option.toList_none, List.append_nil]
      exact ih
    | some d =>
      obtain ⟨hlegal, happly⟩ := heffect s e t d hallowed hstep hnow
      exact ih.snoc hlegal happly

end Runs

end TamperEvidentLog.Protocol
