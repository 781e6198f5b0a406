/-
# The write path

PostgreSQL alone decides which entry follows which: `createWithTransaction` does
not ask Redis, and what a call asks of Redis and of the queue comes after the
commit. So what is written depends neither on what is cached, nor on whether Redis
answers, nor on what becomes of the jobs, nor on who reads.

A view hides all of that: in it Redis never answers, the queue is empty, nobody
reads and a call gets no further than its commit. What it shows of a run is again a
run of the service.
-/

import TamperEvidentLog.Service.AuditLog

namespace TamperEvidentLog.Service

open TamperEvidentLog.Text TamperEvidentLog.Time TamperEvidentLog.Crypto
open TamperEvidentLog.Protocol

variable {H : Digest}

/-! ## What is on the write path -/

/-- The stage of a call, without what follows its commit. -/
def CreateStage.written : CreateStage → CreateStage
  | enqueueing entry => settingLatest entry
  | returned entry => settingLatest entry
  | stage => stage

/-- The call, if it writes. -/
def Call.written : Call → Option Call
  | create dto createdAt stage => some (create dto createdAt stage.written)
  | read _ _ => none

/-- What the view shows of a call. -/
def shown (call : Option Call) : Option Call := call.bind Call.written

/-- Is the event one of the clock, of a new `createLogEntry`, of its transaction or
of the table? -/
def Event.isWrite : Event → Bool
  | tick _ => true
  | createLogEntry _ _ => true
  | lockChainHead _ => true
  | cancel _ => true
  | computeHashes => true
  | insertEntry _ => true
  | updateChainHead => true
  | commit => true
  | rollback => true
  | tamper _ => true
  | _ => false

namespace World

/-- The service without Redis, without the queue and without readers. -/
def writes (w : World) : World where
  now := w.now
  database := w.database
  redis := fun _ => none
  redisUp := false
  queue := []
  calls := shown ∘ w.calls

/-! ## The view -/

theorem calls_writes (w : World) (c : ℕ) : w.writes.calls c = shown (w.calls c) := rfl

@[simp]
theorem writes_store (w : World) (stored : Bool) (key value : JsString) :
    (w.store stored key value).writes = w.writes := by
  simp [writes]

@[simp]
theorem writes_enqueue (w : World) (added : Bool) (id : JsString) :
    (w.enqueue added id).writes = w.writes := by
  simp [writes]

/-- Of a resumed call the view shows what it writes. -/
theorem writes_setCall (w : World) (c : ℕ) (call : Call) : (w.setCall c call).writes =
    { w.writes with calls := Function.update w.writes.calls c call.written } := by
  have hcalls : (w.setCall c call).writes.calls =
      Function.update w.writes.calls c call.written :=
    Function.comp_update shown w.calls c (some call)
  rw [← hcalls]
  rfl

/-- A call that goes on behind the view. -/
theorem writes_setCall_of_eq {w : World} {c : ℕ} {call : Call}
    (hsame : call.written = w.writes.calls c) : (w.setCall c call).writes = w.writes := by
  rw [writes_setCall, hsame, Function.update_eq_self]

/-- The steps that the view hides. -/
theorem writes_of_hidden {w t : World} {e : Event} (hstep : w.step H e = some t)
    (hhidden : e.isWrite = false) : t.writes = w.writes := by
  cases Step.of_step hstep with
  | setLatestReply hcall | enqueueReply hcall | setReply hcall =>
    rw [writes_setCall_of_eq] <;>
      simp [calls_writes, hcall, shown, Call.written, CreateStage.written]
  | enqueueThrow hcall | getReply hcall | findById hcall | getLogById hcall =>
    exact writes_setCall_of_eq (congrArg shown hcall).symm
  | expire | redisDown | redisBack => rfl
  | _ => cases hhidden

/-- The steps that it shows. -/
theorem writes_of_shown {w t : World} {e : Event} (hstep : w.step H e = some t)
    (hshown : e.isWrite = true) : w.writes.step H e = some t.writes := by
  cases Step.of_step hstep with
  | tick => rfl
  | createLogEntry hcall =>
    rw [writes_setCall]
    exact (Step.createLogEntry (congrArg shown hcall)).step_eq
  | lockChainHead hcall hdb =>
    rw [writes_setCall]
    exact (Step.lockChainHead (w := w.writes) (congrArg shown hcall) hdb).step_eq
  | headMissing hcall hhead =>
    rw [writes_setCall]
    exact (Step.headMissing (w := w.writes) (congrArg shown hcall) hhead).step_eq
  | cancel hcall =>
    rw [writes_setCall]
    exact (Step.cancel (congrArg shown hcall)).step_eq
  | computeHashes hdb => exact (Step.computeHashes (w := w.writes) hdb).step_eq
  | insertEntry hdb => exact (Step.insertEntry (w := w.writes) hdb).step_eq
  | updateChainHead hdb => exact (Step.updateChainHead (w := w.writes) hdb).step_eq
  | commit htx hdb =>
    rw [writes_setCall]
    exact (Step.commit (w := w.writes) htx hdb).step_eq
  | rollback htx hdb =>
    rw [writes_setCall]
    exact (Step.rollback (w := w.writes) htx hdb).step_eq
  | tamper hdb => exact (Step.tamper (w := w.writes) hdb).step_eq
  | _ => cases hshown

/-! ## Runs -/

/-- The view shows what a call has appended. -/
theorem operation_writes (w : World) (c : ℕ) (dto : CreateLogDto) (createdAt : JsDate)
    (entry : Row) : w.writes.operation H c = some (.append dto createdAt entry) ↔
      w.operation H c = some (.append dto createdAt entry) := by
  rw [operation, operation, calls_writes]
  cases w.calls c with
  | none => rfl
  | some call =>
    cases call with
    | create dto' createdAt' stage => cases stage <;> rfl
    | read id stage =>
      have hread : (Call.read id stage).operation H ≠ some (.append dto createdAt entry) := by
        simp [Call.operation]
      exact iff_of_false (by simp [shown, Call.written]) hread

/-- It shows whose transaction has failed. -/
theorem rejected_writes (w : World) (c : ℕ) (dto : CreateLogDto) (createdAt : JsDate) :
    w.writes.calls c = some (.create dto createdAt .rejected) ↔
      w.calls c = some (.create dto createdAt .rejected) := by
  rw [calls_writes]
  cases w.calls c with
  | none => rfl
  | some call =>
    cases call with
    | create dto' createdAt' stage =>
      cases stage <;> simp [shown, Call.written, CreateStage.written]
    | read id stage => simp [shown, Call.written]

/-- **Redis is not on the write path.** The events of a run that have to do with
writing are a run by themselves, with Redis out of reach and nobody reading; and
wherever else they occur in this order, whatever Redis holds there, whoever reads
and whatever becomes of the cache and of the jobs, the tables are the same, and so
are the calls that have failed and the entries of those that have not. -/
theorem writes_ignore_redis {allowed : World → Event → Prop} {s w : World} {events : List Event}
    (hrun : Run (step H) (fun w e => allowed w.writes e) s events w) :
    Run (step H) allowed s.writes (events.filter Event.isWrite) w.writes ∧
      ∀ s' w' events', s'.writes = s.writes →
        events'.filter Event.isWrite = events.filter Event.isWrite →
        Run (step H) (fun _ _ => True) s' events' w' →
        w'.database = w.database ∧ ∀ c dto createdAt,
          (w'.calls c = some (.create dto createdAt .rejected) ↔
            w.calls c = some (.create dto createdAt .rejected)) ∧
          ∀ entry, w'.operation H c = some (.append dto createdAt entry) ↔
            w.operation H c = some (.append dto createdAt entry) := by
  have hhidden (u : World) (e : Event) (t : World) (hstep : u.step H e = some t)
      (himage : Option.guard Event.isWrite e = none) : t.writes = u.writes :=
    writes_of_hidden hstep (by simpa using himage)
  have hshown (u : World) (e : Event) (t : World) (e' : Event) (hstep : u.step H e = some t)
      (himage : Option.guard Event.isWrite e = some e') :
      u.writes.step H e' = some t.writes := by
    obtain ⟨rfl, hwrite⟩ := Option.guard_eq_some_iff.mp himage
    exact writes_of_shown hstep hwrite
  constructor
  · rw [← List.filterMap_eq_filter]
    refine hrun.project (fun u e t _ => hhidden u e t) fun u e t e' hallowed hstep himage => ?_
    have hsame := (Option.guard_eq_some_iff.mp himage).1
    exact ⟨hsame ▸ hallowed, hshown u e t e' hstep himage⟩
  · intro s' w' events' hstart hsame hrun'
    simp only [← List.filterMap_eq_filter] at hsame
    have hview : w'.writes = w.writes := Run.view_eq hhidden hshown hrun' hrun hstart hsame
    refine ⟨(congrArg database hview :), fun c dto createdAt => ⟨?_, fun entry => ?_⟩⟩
    · rw [← rejected_writes, hview, rejected_writes]
    · rw [← operation_writes, hview, operation_writes]

/-- An entry is posted twice: once with everything working and a reader, once with
Redis out of reach. -/
theorem writes_ignore_redis_outage :
    ∃ w w' events events', Run (step sha256) NoTampering (start JsDate.epoch) events w ∧
      Run (step sha256) NoTampering (start JsDate.epoch) events' w' ∧
      w.queue = [js "1"] ∧ w'.queue = [] ∧ w.redisUp = true ∧ w'.redisUp = false ∧
      w'.database = w.database := by
  let posting : List Event :=
    .createLogEntry 0 ⟨js "alice", js "login", .null⟩ :: appendEvents 0 (js "1")
  let events : List Event := (readEvents 1 (js "1")).take 3 ++ posting ++
    [.setLatestReply 0 true, .enqueueReply 0 true] ++ readEvents 2 (js "1")
  let events' : List Event := .redisDown :: posting
  have hexecute : (execute (step sha256) NoTampering (start JsDate.epoch) events).any
      (fun w => decide (w.queue = [js "1"] ∧ w.redisUp = true)) = true := by
    decide +kernel
  have hexecute' : (execute (step sha256) NoTampering (start JsDate.epoch) events').any
      (fun w => decide (w.queue = [] ∧ w.redisUp = false)) = true := by
    decide +kernel
  obtain ⟨w, hrun, hcheck⟩ := Run.exists_of_execute hexecute
  obtain ⟨w', hrun', hcheck'⟩ := Run.exists_of_execute hexecute'
  obtain ⟨hjob, hup⟩ := of_decide_eq_true hcheck
  obtain ⟨hnone, hdown⟩ := of_decide_eq_true hcheck'
  have hwrites : Run (step sha256) (fun w e => NoTampering w.writes e) (start JsDate.epoch)
      events w := hrun
  have hsame : events'.filter Event.isWrite = events.filter Event.isWrite := rfl
  exact ⟨w, w', events, events', hrun, hrun', hjob, hnone, hup, hdown,
    ((writes_ignore_redis hwrites).2 _ w' events' rfl hsame
      (hrun'.mono fun _ _ _ => trivial)).1⟩

end World

end TamperEvidentLog.Service
