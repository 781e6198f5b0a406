/-
# Restarts

A process may die at any `await`. Its calls are gone, and PostgreSQL rolls back the
transaction if it was that of one of them; what Redis and the queue hold stays. The
calls of other processes go on, and so does for one step a call whose last request
is carried out although nobody waits for the reply any more. Nothing is repaired
when the process starts again: there is no journal, and nobody compares the cache
with the table.

Nothing has to be. What a crash leaves behind is a state that the service goes on
from as from any other: the chain is whole, copies in the cache are copies of rows,
and a call that had committed has left its entry in the log, whether it lived to say
so or not.
-/

import TamperEvidentLog.Service.AuditLog

namespace TamperEvidentLog.Service

open TamperEvidentLog.Text TamperEvidentLog.Time TamperEvidentLog.Crypto
open TamperEvidentLog.Protocol

variable {H : Digest}

/-- What can happen to a service that may die. -/
inductive LifeEvent
  | /-- Something in the service. -/
    service (e : Event)
  | /-- A process dies, and the calls for which `gone` holds die with it. -/
    crash (gone : ℕ → Bool)

namespace World

/-- What a crash leaves. -/
def crash (w : World) (gone : ℕ → Bool) : World :=
  { w with
    database := { w.database with
      transaction := w.database.transaction.filter fun tx => !gone tx.caller }
    calls := fun c => if gone c then none else w.calls c }

/-- The state after an event, if the event is possible. -/
def live (H : Digest) (w : World) : LifeEvent → Option World
  | .service e => w.step H e
  | .crash gone => some (w.crash gone)

/-- Crashes may happen at any time. -/
def Living (allowed : World → Event → Prop) (w : World) : LifeEvent → Prop
  | .service e => allowed w e
  | .crash _ => True

instance {allowed : World → Event → Prop} [∀ w e, Decidable (allowed w e)] (w : World)
    (e : LifeEvent) : Decidable (Living allowed w e) := by
  cases e <;> unfold Living <;> infer_instance

/-! ## What a crash keeps -/

/-- Who is still there is where he was. -/
theorem calls_of_crash {w : World} {gone : ℕ → Bool} {c : ℕ} {call : Call}
    (hcall : (w.crash gone).calls c = some call) : w.calls c = some call :=
  (Option.ite_none_left_eq_some.mp hcall).2

/-- Only the transaction of a call that is still there goes on. -/
theorem transaction_crash_eq_some_iff {w : World} {gone : ℕ → Bool} {tx : Transaction} :
    (w.crash gone).database.transaction = some tx ↔
      w.database.transaction = some tx ∧ gone tx.caller = false := by
  simp [crash]

theorem AllCalls.crash {p : Call → Prop} {w : World} (hcalls : w.AllCalls p) (gone : ℕ → Bool) :
    (w.crash gone).AllCalls p := fun c call hcall => hcalls c call (calls_of_crash hcall)

theorem Owned.crash {w : World} (hw : w.Owned) (gone : ℕ → Bool) : (w.crash gone).Owned := by
  intro c dto createdAt
  simp only [transaction_crash_eq_some_iff, exists_and_right, ← hw c dto createdAt]
  constructor
  · intro hcall
    exact ⟨calls_of_crash hcall, by simpa using (Option.ite_none_left_eq_some.mp hcall).1⟩
  · rintro ⟨hcall, hstays⟩
    exact Option.ite_none_left_eq_some.mpr ⟨by simp [hstays], hcall⟩

theorem consistent_crash {w : World} (hw : w.database.Consistent H) (gone : ℕ → Bool) :
    (w.crash gone).database.Consistent H where
  valid := hw.valid
  named := hw.named
  head := hw.head
  pending := fun tx htx => hw.pending tx (transaction_crash_eq_some_iff.mp htx).1

theorem pendingRow_crash_sublist (w : World) (gone : ℕ → Bool) :
    (w.crash gone).database.pendingRow.toList.Sublist w.database.pendingRow.toList := by
  unfold Database.pendingRow
  cases htx : (w.crash gone).database.transaction with
  | none => exact List.nil_sublist _
  | some tx => rw [(transaction_crash_eq_some_iff.mp htx).1]

theorem Intact.crash {w : World} (hw : w.Intact H) (gone : ℕ → Bool) :
    (w.crash gone).Intact H where
  faithful := ⟨hw.faithful.owned.crash gone, hw.faithful.cached,
    fun c id row hcall => hw.faithful.calls c id row (calls_of_crash hcall)⟩
  consistent := consistent_crash hw.consistent gone
  keyed := hw.keyed.sublist ((List.Sublist.refl _).append (pendingRow_crash_sublist w gone))

theorem Orderly.crash {w : World} (hw : w.Orderly H) (gone : ℕ → Bool) :
    (w.crash gone).Orderly H where
  consistent := consistent_crash hw.consistent gone
  requests := ⟨hw.requests.1.crash gone,
    fun tx htx => hw.requests.2 tx (transaction_crash_eq_some_iff.mp htx).1⟩
  ordered := ⟨hw.ordered.ascending, hw.ordered.payloads⟩

theorem AppendsLogged.crash {w : World} (hw : w.AppendsLogged H) (gone : ℕ → Bool) :
    (w.crash gone).AppendsLogged H := by
  intro c dto createdAt entry hop
  obtain ⟨call, hcall, hop⟩ := Option.bind_eq_some_iff.mp hop
  refine hw c dto createdAt entry ?_
  rw [operation, calls_of_crash hcall, Option.bind_some, hop]

/-- What holds of the service whenever it is alive. -/
structure Alive (H : Digest) (w : World) : Prop where
  /-- The stores agree. -/
  intact : w.Intact H
  /-- Time stamps follow the commit order. -/
  orderly : w.Orderly H
  /-- What was committed is there. -/
  logged : w.AppendsLogged H

theorem alive_start (now : JsDate) : (start now).Alive H where
  intact := intact_start now
  orderly := orderly_start now
  logged := by simp [AppendsLogged, operation, start]

/-- **The step**, which may be a crash. -/
theorem Alive.of_live {w t : World} {e : LifeEvent} (hw : w.Alive H)
    (hallowed : Living (fun w e => PlainUse w e ∧ CommitsInOrder w e) w e)
    (hstep : w.live H e = some t) : t.Alive H ∧ w.log <+: t.log := by
  cases e with
  | service e =>
    obtain ⟨hplain, horder⟩ := hallowed
    have huntampered := not_isTamper_of_plainUse hplain
    exact ⟨⟨hw.intact.of_step huntampered hstep, hw.orderly.of_step hplain horder hstep,
      hw.logged.of_step hw.intact huntampered hstep⟩, log_prefix_of_step huntampered hstep⟩
  | crash gone =>
    cases hstep
    exact ⟨⟨hw.intact.crash gone, hw.orderly.crash gone, hw.logged.crash gone⟩, List.prefix_rfl⟩

/-- **The run.** -/
theorem Alive.of_run {s w : World} {events : List LifeEvent} (hs : s.Alive H)
    (hrun : Run (live H) (Living fun w e => PlainUse w e ∧ CommitsInOrder w e) s events w) :
    w.Alive H ∧ s.log <+: w.log := by
  induction hrun with
  | nil => exact ⟨hs, List.prefix_rfl⟩
  | snoc _ hallowed hstep ih =>
    obtain ⟨hw, hgrows⟩ := ih.1.of_live hallowed hstep
    exact ⟨hw, ih.2.trans hgrows⟩

/-- **Crashes lose nothing.** In surroundings as assumed, with entries committed in
the order of their time stamps and any number of crashes at any moments: the log
only grows, an entry that a call had committed stays in it, every verification
succeeds and counts all of it, and every read answers what the log answers. -/
theorem crashes_lose_nothing {now : JsDate} {before after : List LifeEvent} {s w : World}
    (hbefore : Run (live H) (Living fun w e => PlainUse w e ∧ CommitsInOrder w e) (start now)
      before s)
    (hafter : Run (live H) (Living fun w e => PlainUse w e ∧ CommitsInOrder w e) s after w) :
    s.log <+: w.log ∧
      (∀ c dto createdAt entry, s.operation H c = some (.append dto createdAt entry) →
        entry ∈ w.log) ∧
      (∀ rows, w.database.FindAllOrdered rows →
        verifyIntegrity H rows = .success w.log.length) ∧
      ∀ c id answer e, w.Decides H c id answer e →
        answer.Agrees (AuditLog.answer H w.log id) := by
  have hs := ((alive_start now).of_run hbefore).1
  obtain ⟨hw, hgrows⟩ := hs.of_run hafter
  refine ⟨hgrows, fun c dto createdAt entry hop => ?_, fun rows hrows => ?_,
    fun c id answer e hdecides => ?_⟩
  · exact hgrows.subset (hs.logged c dto createdAt entry hop)
  · rw [hw.orderly.ordered.verifyIntegrity_eq hw.orderly.consistent hrows, log, List.length_map]
  · rw [answer_log]
    exact hw.intact.faithful.agrees hdecides

/-- A process dies between the commit of an entry and its answer, and another one in
the middle of a transaction, which a third one waits for. -/
theorem crashes_lose_nothing_twice :
    ∃ s w before after,
      Run (live sha256) (Living fun w e => PlainUse w e ∧ CommitsInOrder w e)
        (start JsDate.epoch) before s ∧
      Run (live sha256) (Living fun w e => PlainUse w e ∧ CommitsInOrder w e) s after w ∧
      (∃ gone, .crash gone ∈ after) ∧ s.log.length = 1 ∧ w.log.length = 2 ∧ s.log <+: w.log := by
  let dto : CreateLogDto := ⟨js "alice", js "login", .null⟩
  let before : List LifeEvent :=
    (Event.createLogEntry 0 dto :: appendEvents 0 (js "1")).map .service
  let waiting : List Event :=
    [.tick nextMillisecond, .createLogEntry 0 dto, .createLogEntry 1 dto]
  let after : List LifeEvent := [.crash fun _ => true] ++
    (waiting ++ (appendEvents 0 (js "2")).take 3).map .service ++
    [.crash fun c => c = 0] ++ (appendEvents 1 (js "3")).map .service
  have hexecute : (execute (live sha256)
      (Living fun w e => PlainUse w e ∧ CommitsInOrder w e) (start JsDate.epoch) before).any
      (fun s => decide (s.log.length = 1) &&
        (execute (live sha256) (Living fun w e => PlainUse w e ∧ CommitsInOrder w e) s after).any
          fun w => decide (w.log.length = 2)) = true := by
    decide +kernel
  obtain ⟨s, hbefore, hcheck⟩ := Run.exists_of_execute hexecute
  obtain ⟨hone, hrest⟩ := (Bool.and_eq_true _ _).mp hcheck
  obtain ⟨w, hafter, htwo⟩ := Run.exists_of_execute hrest
  exact ⟨s, w, before, after, hbefore, hafter, by simp [after], of_decide_eq_true hone,
    of_decide_eq_true htwo, (crashes_lose_nothing hbefore hafter).1⟩

end World

end TamperEvidentLog.Service
