/-
# Runs of a partial step function

A system is a partial function from a state and an event to the next state; an
event that is not enabled has no next state. A run is a list of events each of
which was enabled, and allowed by an assumption about the environment, in the
state it met. Restricting the events of a run is how a statement says which
environment it is about, so the system itself is defined once.

Five rules carry the statements about runs: an invariant that holds at the
start and survives every allowed step holds throughout; whatever was false at
the start and holds at the end became true at some step; a run splits at any
of its moments; a view of the states that every step respects turns runs
into runs of the system it shows, with the events that it shows; and a run whose
every step is paid for is paid for as a whole.
-/

import Mathlib

namespace TamperEvidentLog.Protocol

universe uσ uε

variable {σ : Type uσ} {ε : Type uε}

/-- The runs of `step` from `start` whose every event was allowed in the state
it met. -/
inductive Run (step : σ → ε → Option σ) (allowed : σ → ε → Prop) (start : σ) :
    List ε → σ → Prop
  | /-- Nothing has happened. -/
    nil : Run step allowed start [] start
  | /-- One more allowed event. -/
    snoc {events : List ε} {s t : σ} {e : ε} (prior : Run step allowed start events s)
      (hallowed : allowed s e) (hstep : step s e = some t) :
      Run step allowed start (events ++ [e]) t

namespace Run

variable {step : σ → ε → Option σ} {allowed : σ → ε → Prop} {start s t : σ}
  {events : List ε}

/-- A run of one event. -/
theorem single {e : ε} (hallowed : allowed s e) (hstep : step s e = some t) :
    Run step allowed s [e] t :=
  nil.snoc hallowed hstep

/-- A weaker assumption admits the run too. -/
theorem mono {weaker : σ → ε → Prop} (himp : ∀ s e, allowed s e → weaker s e)
    (hrun : Run step allowed start events t) : Run step weaker start events t := by
  induction hrun with
  | nil => exact nil
  | snoc _ hallowed hstep ih => exact ih.snoc (himp _ _ hallowed) hstep

/-- Runs compose. -/
theorem append {later : List ε} (hfirst : Run step allowed start events s)
    (hsecond : Run step allowed s later t) : Run step allowed start (events ++ later) t := by
  induction hsecond with
  | nil => rwa [List.append_nil]
  | snoc _ hallowed hstep ih =>
    rw [← List.append_assoc]
    exact ih.snoc hallowed hstep

/-- A run splits at each of its moments. -/
theorem split {later : List ε} (hrun : Run step allowed start (events ++ later) t) :
    ∃ s, Run step allowed start events s ∧ Run step allowed s later t := by
  induction later using List.reverseRecOn generalizing t with
  | nil => exact ⟨t, by rwa [List.append_nil] at hrun, nil⟩
  | append_singleton later e ih =>
    rw [← List.append_assoc] at hrun
    generalize hall : events ++ later ++ [e] = all at hrun
    cases hrun with
    | nil => simp at hall
    | snoc prior hallowed hstep =>
      obtain ⟨rfl, he⟩ := List.append_inj' hall rfl
      cases he
      obtain ⟨s, hfirst, hsecond⟩ := ih prior
      exact ⟨s, hfirst, hsecond.snoc hallowed hstep⟩

/-- Nothing happens in a run without events. -/
theorem nil_inv (hrun : Run step allowed start [] t) : t = start := by
  generalize hempty : ([] : List ε) = empty at hrun
  cases hrun with
  | nil => rfl
  | snoc => simp at hempty

/-- A run that starts with an event starts with its step. -/
theorem cons_inv {e : ε} (hrun : Run step allowed start (e :: events) t) :
    ∃ s, allowed start e ∧ step start e = some s ∧ Run step allowed s events t := by
  rw [← List.singleton_append] at hrun
  obtain ⟨s, hfirst, hsecond⟩ := split hrun
  generalize hall : [e] = all at hfirst
  cases hfirst with
  | nil => cases hall
  | snoc prior hallowed hstep =>
    rw [← List.nil_append [e]] at hall
    obtain ⟨hnil, he⟩ := List.append_inj' hall rfl
    cases he
    subst hnil
    obtain rfl := prior.nil_inv
    exact ⟨s, hallowed, hstep, hsecond⟩

/-- **The invariant rule.** -/
theorem invariant {inv : σ → Prop} (hrun : Run step allowed start events t)
    (hstart : inv start)
    (hpreserved : ∀ s e t, allowed s e → step s e = some t → inv s → inv t) : inv t := by
  induction hrun with
  | nil => exact hstart
  | snoc _ hallowed hstep ih => exact hpreserved _ _ _ hallowed hstep ih

/-- An invariant may be assumed of every state that an event meets. -/
theorem strengthen {inv : σ → Prop} (hrun : Run step allowed start events t) (hstart : inv start)
    (hpreserved : ∀ s e t, allowed s e → step s e = some t → inv s → inv t) :
    Run step (fun s e => inv s ∧ allowed s e) start events t := by
  induction hrun with
  | nil => exact nil
  | snoc prior hallowed hstep ih =>
    exact ih.snoc ⟨prior.invariant hstart hpreserved, hallowed⟩ hstep

/-- Every event that happens in a run is one of its events. -/
theorem restrict (hrun : Run step allowed start events t) :
    Run step (fun s e => e ∈ events ∧ allowed s e) start events t := by
  induction hrun with
  | nil => exact nil
  | snoc _ hallowed hstep ih =>
    refine (ih.mono fun s e hboth => ⟨List.mem_append_left _ hboth.1, hboth.2⟩).snoc
      ⟨?_, hallowed⟩ hstep
    exact List.mem_append_right _ (List.mem_singleton_self _)

/-- What is known of every allowed event is known of all events of a run. -/
theorem forall_mem {p : ε → Prop} (hrun : Run step allowed start events t)
    (hp : ∀ s e, allowed s e → p e) : ∀ e ∈ events, p e := by
  induction hrun with
  | nil => simp
  | snoc _ hallowed _ ih =>
    intro e he
    rcases List.mem_append.mp he with he | he
    · exact ih e he
    · rw [List.mem_singleton.mp he]
      exact hp _ _ hallowed

/-- **The accounting rule.** If every step is paid for out of what it finds and
what it is granted, then so is the run. -/
theorem account {cost grant : ε → ℕ} {balance : σ → ℕ} (hrun : Run step allowed start events t)
    (hstep : ∀ s e t, allowed s e → step s e = some t →
      balance t + cost e ≤ balance s + grant e) :
    balance t + (events.map cost).sum ≤ balance start + (events.map grant).sum := by
  induction hrun with
  | nil => simp
  | @snoc events s t e _ hallowed hnext ih =>
    have hpaid := hstep s e t hallowed hnext
    rw [List.map_append, List.map_append, List.sum_append, List.sum_append, List.map_singleton,
      List.map_singleton, List.sum_singleton, List.sum_singleton]
    omega

/-- **The variant rule.** If short of the goal there is always a step that lowers
the balance, some run reaches the goal. -/
theorem exists_of_variant (inv goal : σ → Prop) (balance : σ → ℕ)
    (hprogress : ∀ s, inv s → ¬ goal s → ∃ e t, allowed s e ∧ step s e = some t ∧ inv t ∧
      balance t < balance s) (hs : inv s) :
    ∃ events t, Run step allowed s events t ∧ goal t := by
  induction hbalance : balance s using Nat.strong_induction_on generalizing s with
  | _ n ih =>
    by_cases hgoal : goal s
    · exact ⟨[], s, nil, hgoal⟩
    · obtain ⟨e, u, hallowed, hstep, hu, hlt⟩ := hprogress s hs hgoal
      obtain ⟨events, t, hrest, ht⟩ := ih _ (hbalance ▸ hlt) hu rfl
      exact ⟨e :: events, t, (single hallowed hstep).append hrest, ht⟩

/-- **The change rule.** What was false at the start and holds at the end became
true at one of the steps. -/
theorem exists_change {holds : σ → Prop} (hrun : Run step allowed start events t)
    (hstart : ¬ holds start) (hend : holds t) :
    ∃ (before after : List ε) (e : ε) (s s' : σ), events = before ++ e :: after ∧
      Run step allowed start before s ∧ allowed s e ∧ step s e = some s' ∧
      Run step allowed s' after t ∧ ¬ holds s ∧ holds s' := by
  induction hrun with
  | nil => exact absurd hend hstart
  | @snoc events s t e prior hallowed hstep ih =>
    by_cases hs : holds s
    · obtain ⟨before, after, e', u, u', rfl, hbefore, hallowed', hstep', hafter, hu, hu'⟩ := ih hs
      exact ⟨before, after ++ [e], e', u, u', by simp, hbefore, hallowed', hstep',
        hafter.snoc hallowed hstep, hu, hu'⟩
    · exact ⟨events, [], e, s, t, by simp, prior, hallowed, hstep, nil, hs, hend⟩

/-- An event with property `p` has occurred, where `p` is about the event and
the state it met. -/
def Occurred (step : σ → ε → Option σ) (allowed : σ → ε → Prop) (start : σ) (events : List ε)
    (p : σ → ε → Prop) : Prop :=
  ∃ (before after : List ε) (e : ε) (s : σ), events = before ++ e :: after ∧
    Run step allowed start before s ∧ p s e

/-- The event of this moment has occurred in the next. -/
theorem occurred_now {p : σ → ε → Prop} {e : ε} (hrun : Run step allowed start events t)
    (hp : p t e) : Occurred step allowed start (events ++ [e]) p :=
  ⟨events, [], e, t, rfl, hrun, hp⟩

/-- What has occurred stays so. -/
theorem Occurred.append {p : σ → ε → Prop} (hoccurred : Occurred step allowed start events p)
    (later : List ε) : Occurred step allowed start (events ++ later) p := by
  obtain ⟨before, after, e, s, rfl, hbefore, hp⟩ := hoccurred
  exact ⟨before, after ++ later, e, s, by simp, hbefore, hp⟩

/-- **The simulation rule.** A view of the states that every step either leaves
alone or changes by a step of another system turns runs into runs of that
system. -/
theorem simulate {σ' : Type*} {ε' : Type*} {step' : σ' → ε' → Option σ'}
    {allowed' : σ' → ε' → Prop} {view : σ → σ'} (hrun : Run step allowed start events t)
    (hview : ∀ s e t, allowed s e → step s e = some t →
      view t = view s ∨ ∃ e', allowed' (view s) e' ∧ step' (view s) e' = some (view t)) :
    ∃ events', Run step' allowed' (view start) events' (view t) := by
  induction hrun with
  | nil => exact ⟨[], nil⟩
  | snoc _ hallowed hstep ih =>
    obtain ⟨events', hprior⟩ := ih
    rcases hview _ _ _ hallowed hstep with hsame | ⟨e', hallowed', hstep'⟩
    · exact ⟨events', hsame ▸ hprior⟩
    · exact ⟨_, hprior.snoc hallowed' hstep'⟩

/-- **The projection rule.** If every event is either hidden by a view or shown
as an event of another system, what a run shows is a run of that system. -/
theorem project {σ' : Type*} {ε' : Type*} {step' : σ' → ε' → Option σ'}
    {allowed' : σ' → ε' → Prop} {view : σ → σ'} {image : ε → Option ε'}
    (hrun : Run step allowed start events t)
    (hhidden : ∀ s e t, allowed s e → step s e = some t → image e = none → view t = view s)
    (hshown : ∀ s e t e', allowed s e → step s e = some t → image e = some e' →
      allowed' (view s) e' ∧ step' (view s) e' = some (view t)) :
    Run step' allowed' (view start) (events.filterMap image) (view t) := by
  induction hrun with
  | nil => exact nil
  | @snoc events s t e _ hallowed hstep ih =>
    rw [List.filterMap_append]
    cases himage : image e with
    | none =>
      rw [List.filterMap_cons_none himage, List.filterMap_nil, List.append_nil,
        hhidden s e t hallowed hstep himage]
      exact ih
    | some e' =>
      obtain ⟨hallowed', hstep'⟩ := hshown s e t e' hallowed hstep himage
      rw [List.filterMap_cons_some himage, List.filterMap_nil]
      exact ih.snoc hallowed' hstep'

end Run

/-! ## Traces -/

section Trace

variable {β : Type*} (step : σ → ε → Option σ) (note : σ → ε → Option β)

/-- What `note` makes of the events of a list, in their order. -/
def trace : σ → List ε → List β
  | _, [] => []
  | s, e :: events => (note s e).toList ++ (step s e).elim [] fun t => trace t events

variable {step note} {allowed : σ → ε → Prop} {start s t : σ} {events : List ε}

/-- The trace of a run comes before that of its continuation. -/
theorem Run.trace_append (hrun : Run step allowed start events s) (later : List ε) :
    trace step note start (events ++ later) =
      trace step note start events ++ trace step note s later := by
  induction events generalizing start with
  | nil => rw [hrun.nil_inv, List.nil_append, trace, List.nil_append]
  | cons e events ih =>
    obtain ⟨u, _, hstep, hrest⟩ := hrun.cons_inv
    rw [List.cons_append, trace, trace, hstep, Option.elim_some, Option.elim_some, ih hrest,
      List.append_assoc]

/-- The trace of a run with one more event. -/
theorem Run.trace_snoc {e : ε} (hrun : Run step allowed start events s)
    (hstep : step s e = some t) :
    trace step note start (events ++ [e]) = trace step note start events ++ (note s e).toList := by
  rw [hrun.trace_append, trace, hstep, Option.elim_some, trace, List.append_nil]

end Trace

/-! ## Execution -/

/-- The state after a list of events, if each of them was allowed and
enabled. -/
def execute (step : σ → ε → Option σ) (allowed : σ → ε → Prop)
    [∀ s e, Decidable (allowed s e)] : σ → List ε → Option σ
  | s, [] => some s
  | s, e :: events =>
    if allowed s e then (step s e).bind fun t => execute step allowed t events else none

/-- Executing runs exactly the runs. -/
theorem execute_eq_some_iff {step : σ → ε → Option σ} {allowed : σ → ε → Prop}
    [∀ s e, Decidable (allowed s e)] {s t : σ} {events : List ε} :
    execute step allowed s events = some t ↔ Run step allowed s events t := by
  constructor
  · intro hexecute
    induction events generalizing s with
    | nil =>
      cases hexecute
      exact Run.nil
    | cons e events ih =>
      rw [execute] at hexecute
      split at hexecute
      case isTrue hallowed =>
        obtain ⟨u, hstep, hrest⟩ := Option.bind_eq_some_iff.mp hexecute
        exact (Run.single hallowed hstep).append (ih hrest)
      case isFalse => cases hexecute
  · intro hrun
    induction events generalizing s with
    | nil =>
      rw [hrun.nil_inv, execute]
    | cons e events ih =>
      obtain ⟨u, hallowed, hstep, hrest⟩ := hrun.cons_inv
      rw [execute, if_pos hallowed, hstep]
      exact ih hrest

/-- The events of a run determine its end. -/
theorem Run.unique {step : σ → ε → Option σ} {allowed allowed' : σ → ε → Prop} {start s t : σ}
    {events : List ε} (hrun : Run step allowed start events s)
    (hrun' : Run step allowed' start events t) : s = t := by
  have hs : Run step (fun _ _ => True) start events s := hrun.mono fun _ _ _ => trivial
  have ht : Run step (fun _ _ => True) start events t := hrun'.mono fun _ _ _ => trivial
  have hexecute := execute_eq_some_iff.mpr hs
  rw [execute_eq_some_iff.mpr ht] at hexecute
  exact (Option.some.inj hexecute).symm

/-- **The noninterference rule.** If the steps that a view hides do not change it
and those that it shows are steps of another system, then two runs that show the
same events from the same start show the same end. -/
theorem Run.view_eq {σ' : Type*} {ε' : Type*} {step : σ → ε → Option σ}
    {allowed allowed' : σ → ε → Prop} {step' : σ' → ε' → Option σ'} {view : σ → σ'}
    {image : ε → Option ε'} {start start' t t' : σ} {events events' : List ε}
    (hhidden : ∀ s e t, step s e = some t → image e = none → view t = view s)
    (hshown : ∀ s e t e', step s e = some t → image e = some e' →
      step' (view s) e' = some (view t))
    (hrun : Run step allowed start events t) (hrun' : Run step allowed' start' events' t')
    (hstart : view start = view start')
    (hevents : events.filterMap image = events'.filterMap image) : view t = view t' := by
  have hshows {allowed : σ → ε → Prop} {start t : σ} {events : List ε}
      (hrun : Run step allowed start events t) :
      Run step' (fun _ _ => True) (view start) (events.filterMap image) (view t) :=
    hrun.project (fun s e t _ => hhidden s e t) fun s e t e' _ hstep himage =>
      ⟨trivial, hshown s e t e' hstep himage⟩
  have hends := hshows hrun
  rw [hstart, hevents] at hends
  exact hends.unique (hshows hrun')

/-- A property that an execution computes holds at the end of a run. -/
theorem Run.exists_of_execute {step : σ → ε → Option σ} {allowed : σ → ε → Prop}
    [∀ s e, Decidable (allowed s e)] {s : σ} {events : List ε} {p : σ → Bool}
    (hexecute : (execute step allowed s events).any p = true) :
    ∃ t, Run step allowed s events t ∧ p t = true := by
  obtain ⟨t, ht, hp⟩ := (Option.any_eq_true _ _).mp hexecute
  exact ⟨t, execute_eq_some_iff.mp ht, hp⟩

end TamperEvidentLog.Protocol
