/-
# Verification in the background

A new entry puts a job into the verification queue, and a worker beside the
service takes jobs out and verifies the whole chain for each of them. What BullMQ
does with a job is not fixed here: once it has been added it may be handed out at
any time, again after a failure, and several at once. `server.js` does not start
the worker; this is about a process that does.

BullMQ drops a job whose identifier it knows already, so the identifiers have to
differ; and a job does not say which entries to verify, so it matters that the
entry it was added for is committed by then. With both, what a worker reports
includes the entry of its job. A report of damage, on the other hand, is never the
last one: entries appended later do not hide it.

A processor awaits the rows and logs its result later, so with several jobs in
flight a count may come behind a larger one. What holds is that it covers all that
was in the log when its job started, and no more than is in it when it is logged.
-/

import TamperEvidentLog.Service.AuditLog
import TamperEvidentLog.Service.History

namespace TamperEvidentLog.Service

open TamperEvidentLog.Text TamperEvidentLog.Time TamperEvidentLog.Crypto
open TamperEvidentLog.Protocol

variable {H : Digest}

/-! ## One job an entry -/

namespace World

/-- The queue changes when a call learns that its job has been added. -/
theorem queue_of_step {w t : World} {e : Event} (hstep : w.step H e = some t) :
    t.queue = w.queue ∨ ∃ c dto createdAt entry,
      w.calls c = some (.create dto createdAt (.enqueueing entry)) ∧
      t.calls c = some (.create dto createdAt (.returned entry)) ∧
      entry.id ∉ w.queue ∧ t.queue = w.queue ++ [entry.id] := by
  cases Step.of_step hstep with
  | @enqueueReply c added dto createdAt entry hcall hup =>
    rw [queue_setCall, enqueue]
    split
    case isTrue hnew =>
      exact .inr ⟨c, dto, createdAt, entry, hcall, calls_setCall_self .., hnew.2, rfl⟩
    case isFalse => exact .inl rfl
  | setLatestReply | setReply => exact .inl (by simp)
  | _ => exact .inl rfl

/-- A call that has returned stays so. -/
theorem returned_of_step {w t : World} {e : Event} (hw : w.Owned) (hstep : w.step H e = some t)
    {c : ℕ} {dto : CreateLogDto} {createdAt : JsDate} {entry : Row}
    (hcall : w.calls c = some (.create dto createdAt (.returned entry))) :
    t.calls c = some (.create dto createdAt (.returned entry)) := by
  rcases call_of_step hw hstep c with hsame | ⟨call, hresumes, _⟩
  · rw [hsame, hcall]
  · cases hresumes <;> simp_all

/-- Calls append entries with different identifiers. -/
theorem caller_eq_of_id_eq {now : JsDate} {events : List Event} {w : World}
    (hrun : Run (step H) NoTampering (start now) events w) {c c' : ℕ} {dto dto' : CreateLogDto}
    {createdAt createdAt' : JsDate} {entry entry' : Row}
    (hop : w.operation H c = some (.append dto createdAt entry))
    (hop' : w.operation H c' = some (.append dto' createdAt' entry')) (hid : entry.id = entry'.id) :
    c = c' := by
  induction hrun with
  | nil => cases hop
  | @snoc events s t e prior hallowed hstep ih =>
    have hs := intact_of_run prior
    have howned := hs.faithful.owned
    -- The new entry differs from what has been in the log before.
    have hnew {k k' : ℕ} {d d' : CreateLogDto} {at' at'' : JsDate} {row row' : Row}
        (heffect : effect (step H) resumed (operation H) s e = some (k, .append d at' row))
        (hold : s.operation H k' = some (.append d' at'' row')) : row.id ≠ row'.id := by
      obtain ⟨⟨id, hfresh, hrow⟩, _⟩ := hs.effect_legal hallowed hstep heffect
      have hmem := appendsLogged_of_run prior _ _ _ _ hold
      rintro heq
      refine hfresh ?_
      have hrowid : row.id = id := by
        rw [hrow]
        rfl
      rw [← hrowid, heq]
      exact List.mem_map_of_mem hmem
    have houtcome := settles.outcome_of_step howned hstep
    rcases (houtcome c _).mp hop with hold | heffect
    · rcases (houtcome c' _).mp hop' with hold' | heffect'
      · exact ih hold hold'
      · exact absurd hid.symm (hnew heffect' hold)
    · rcases (houtcome c' _).mp hop' with hold' | heffect'
      · exact absurd hid (hnew heffect hold')
      · exact congrArg Prod.fst (Option.some.inj (heffect.symm.trans heffect'))

/-- The queue holds one job for an entry, added by the call that returned it. -/
structure OneJobEach (w : World) : Prop where
  /-- No job is there twice. -/
  nodup : w.queue.Nodup
  /-- Every job is for an entry that a call has returned. -/
  returned : ∀ id ∈ w.queue, ∃ c dto createdAt entry,
    w.calls c = some (.create dto createdAt (.returned entry)) ∧ entry.id = id

theorem OneJobEach.of_step {w t : World} {e : Event} (hw : w.OneJobEach) (howned : w.Owned)
    (hstep : w.step H e = some t) : t.OneJobEach := by
  have hkept (id : JsString) (hid : id ∈ w.queue) : ∃ c dto createdAt entry,
      t.calls c = some (.create dto createdAt (.returned entry)) ∧ entry.id = id := by
    obtain ⟨c, dto, createdAt, entry, hcall, hentry⟩ := hw.returned id hid
    exact ⟨c, dto, createdAt, entry, returned_of_step howned hstep hcall, hentry⟩
  rcases queue_of_step hstep with hsame | ⟨c, dto, createdAt, entry, _, hcall, hnew, hqueue⟩
  · exact ⟨hsame ▸ hw.nodup, fun id hid => hkept id (hsame ▸ hid)⟩
  · refine ⟨?_, fun id hid => ?_⟩
    · rw [hqueue]
      exact hw.nodup.append (List.nodup_singleton _) (List.disjoint_singleton.mpr hnew)
    · rw [hqueue] at hid
      rcases List.mem_append.mp hid with hid | hid
      · exact hkept id hid
      · exact ⟨c, dto, createdAt, entry, hcall, (List.mem_singleton.mp hid).symm⟩

theorem oneJobEach_of_run {allowed : World → Event → Prop} {now : JsDate} {events : List Event}
    {w : World} (hrun : Run (step H) allowed (start now) events w) : w.OneJobEach :=
  (owned_run hrun).invariant ⟨List.nodup_nil, by simp [start]⟩
    fun _ _ _ howned hstep hw => hw.of_step howned hstep

/-- The entry of a job is in the log. -/
theorem mem_log_of_mem_queue {now : JsDate} {events : List Event} {w : World}
    (hrun : Run (step H) NoTampering (start now) events w) {id : JsString} (hid : id ∈ w.queue) :
    ∃ entry ∈ w.log, entry.id = id := by
  obtain ⟨c, dto, createdAt, entry, hcall, hentry⟩ := (oneJobEach_of_run hrun).returned id hid
  have hop : w.operation H c = some (.append dto createdAt entry) := by
    rw [operation, hcall]
    rfl
  exact ⟨entry, appendsLogged_of_run hrun _ _ _ _ hop, hentry⟩

/-- **One job an entry.** While nobody tampers, every job in the queue belongs to
exactly one call, which has returned the entry of the job, and `queue.add` never
meets a job with the identifier of the one that it adds. -/
theorem one_job_each {now : JsDate} {events : List Event} {w : World}
    (hrun : Run (step H) NoTampering (start now) events w) :
    w.queue.Nodup ∧
      (∀ id ∈ w.queue, ∃! c, ∃ dto createdAt entry,
        w.calls c = some (.create dto createdAt (.returned entry)) ∧ entry.id = id) ∧
      ∀ c dto createdAt entry, w.calls c = some (.create dto createdAt (.enqueueing entry)) →
        entry.id ∉ w.queue := by
  have hjobs := oneJobEach_of_run hrun
  have hop {c : ℕ} {dto : CreateLogDto} {createdAt : JsDate} {entry : Row}
      (hcall : w.calls c = some (.create dto createdAt (.returned entry))) :
      w.operation H c = some (.append dto createdAt entry) := by
    rw [operation, hcall]
    rfl
  refine ⟨hjobs.nodup, fun id hid => ?_, fun c dto createdAt entry hcall hid => ?_⟩
  · obtain ⟨c, dto, createdAt, entry, hcall, hentry⟩ := hjobs.returned id hid
    refine ⟨c, ⟨dto, createdAt, entry, hcall, hentry⟩, ?_⟩
    rintro c' ⟨dto', createdAt', entry', hcall', hentry'⟩
    exact caller_eq_of_id_eq hrun (hop hcall') (hop hcall) (hentry'.trans hentry.symm)
  · obtain ⟨c', dto', createdAt', entry', hcall', hentry'⟩ := hjobs.returned _ hid
    have hadding : w.operation H c = some (.append dto createdAt entry) := by
      rw [operation, hcall]
      rfl
    -- The call that returned the entry would still be adding the job.
    obtain rfl := caller_eq_of_id_eq hrun hadding (hop hcall') hentry'.symm
    rw [hcall] at hcall'
    cases hcall'

/-- Two calls overlap and each adds its job. -/
theorem one_job_each_overlapping :
    ∃ w events, Run (step sha256) NoTampering (start JsDate.epoch) events w ∧
      w.queue = [js "2", js "1"] ∧ w.queue.Nodup ∧
      ∀ id ∈ w.queue, ∃! c, ∃ dto createdAt entry,
        w.calls c = some (.create dto createdAt (.returned entry)) ∧ entry.id = id := by
  let dto : CreateLogDto := ⟨js "alice", js "login", .null⟩
  let events : List Event := [.createLogEntry 0 dto, .createLogEntry 1 dto] ++
    appendEvents 0 (js "1") ++ appendEvents 1 (js "2") ++
    [.setLatestReply 1 true, .setLatestReply 0 true, .enqueueReply 1 true, .enqueueReply 0 true]
  have hexecute : (execute (step sha256) NoTampering (start JsDate.epoch) events).any
      (fun w => decide (w.queue = [js "2", js "1"])) = true := by
    decide +kernel
  obtain ⟨w, hrun, hcheck⟩ := Run.exists_of_execute hexecute
  obtain ⟨hnodup, hcaller, _⟩ := one_job_each hrun
  exact ⟨w, events, hrun, of_decide_eq_true hcheck, hnodup, hcaller⟩

end World

/-! ## The worker -/

/-- The identifier of the job of an entry. -/
def jobId (logEntryId : JsString) : JsString := js "verify-" ++ logEntryId

/-- What the processor of a job logs. -/
inductive JobLine
  | /-- `Verification job started`. -/
    started (jobId logEntryId : JsString)
  | /-- `Queue job completed — chain intact`. -/
    intact (jobId logEntryId : JsString) (totalEntries : ℕ)
  | /-- `Queue job completed — chain integrity failure detected`. -/
    broken (jobId logEntryId brokenEntryId reason : JsString)

namespace JobLine

/-- What the processor logs of a result. -/
def ofResult (logEntryId : JsString) : VerificationResult → JobLine
  | .success totalEntries => intact (jobId logEntryId) logEntryId totalEntries
  | .failure _ fault =>
    broken (jobId logEntryId) logEntryId fault.brokenEntryId fault.reason.text

end JobLine

/-- Where the processor of a job stands. -/
inductive JobStage
  | /-- It waits for `findAllOrdered`. -/
    querying
  | /-- These rows have been returned to it. -/
    returned (rows : List Row)

/-- A job that is being processed. -/
structure Job where
  /-- The entry it was added for. -/
  logEntryId : JsString
  /-- Where its processor stands. -/
  stage : JobStage

/-- The service and a worker beside it. -/
structure Background where
  /-- The service. -/
  world : World
  /-- The jobs that are being processed. -/
  running : ℕ → Option Job
  /-- What the processors have logged. -/
  lines : List JobLine

/-- What can happen in both. -/
inductive BackgroundEvent
  | /-- Something in the service. -/
    service (e : Event)
  | /-- The worker is handed a job and calls the processor. -/
    processJob (n : ℕ) (logEntryId : JsString)
  | /-- `findAllOrdered` returns. -/
    findAllOrdered (n : ℕ) (rows : List Row)
  | /-- The processor verifies what was returned, logs the result and ends. -/
    logResult (n : ℕ)
  | /-- The processor ends without a result: `findAllOrdered` rejects, or its process is
    gone. -/
    failJob (n : ℕ)

namespace Background

/-- A service without a log and a worker without a job. -/
def start (now : JsDate) : Background := ⟨.start now, fun _ => none, []⟩

/-- The processor logs what it has to log and goes on to wait, or ends. -/
def setJob (b : Background) (n : ℕ) (job : Option Job) (lines : List JobLine) : Background :=
  { b with running := Function.update b.running n job, lines := b.lines ++ lines }

theorem running_setJob_self (b : Background) (n : ℕ) (job : Option Job) (lines : List JobLine) :
    (b.setJob n job lines).running n = job := Function.update_self ..

theorem running_setJob_of_ne (b : Background) {n n' : ℕ} (hne : n' ≠ n) (job : Option Job)
    (lines : List JobLine) : (b.setJob n job lines).running n' = b.running n' :=
  Function.update_of_ne hne _ _

/-- The state after an event, if the event is possible. -/
def step (H : Digest) (b : Background) : BackgroundEvent → Option Background
  | .service e => (b.world.step H e).map fun world => { b with world }
  | .processJob n logEntryId =>
    if (b.running n).isNone ∧ logEntryId ∈ b.world.queue then
      some (b.setJob n (some ⟨logEntryId, .querying⟩) [.started (jobId logEntryId) logEntryId])
    else none
  | .findAllOrdered n rows =>
    match b.running n with
    | some ⟨logEntryId, .querying⟩ => some (b.setJob n (some ⟨logEntryId, .returned rows⟩) [])
    | _ => none
  | .logResult n =>
    match b.running n with
    | some ⟨logEntryId, .returned rows⟩ =>
      some (b.setJob n none [.ofResult logEntryId (verifyIntegrity H rows)])
    | _ => none
  | .failJob n => (b.running n).map fun _ => b.setJob n none []

/-- The surroundings: `allowed` says what happens to the service, and a query
returns what is in the table. -/
def Sees (allowed : World → Event → Prop) (b : Background) : BackgroundEvent → Prop
  | .service e => allowed b.world e
  | .findAllOrdered _ rows => b.world.database.FindAllOrdered rows
  | .processJob _ _ => True
  | .logResult _ => True
  | .failJob _ => True

/-- The event of the service. -/
def serviceEvent : BackgroundEvent → Option Event
  | .service e => some e
  | .processJob _ _ => none
  | .findAllOrdered _ _ => none
  | .logResult _ => none
  | .failJob _ => none

variable {allowed : World → Event → Prop}

/-- What a step of the worker does. -/
inductive JobStep (H : Digest) (b : Background) : BackgroundEvent → Background → Prop
  | processJob {n : ℕ} {logEntryId : JsString} (hfree : b.running n = none)
      (hjob : logEntryId ∈ b.world.queue) :
      JobStep H b (.processJob n logEntryId)
        (b.setJob n (some ⟨logEntryId, .querying⟩) [.started (jobId logEntryId) logEntryId])
  | findAllOrdered {n : ℕ} {logEntryId : JsString} {rows : List Row}
      (hrunning : b.running n = some ⟨logEntryId, .querying⟩) :
      JobStep H b (.findAllOrdered n rows) (b.setJob n (some ⟨logEntryId, .returned rows⟩) [])
  | logResult {n : ℕ} {logEntryId : JsString} {rows : List Row}
      (hrunning : b.running n = some ⟨logEntryId, .returned rows⟩) :
      JobStep H b (.logResult n)
        (b.setJob n none [.ofResult logEntryId (verifyIntegrity H rows)])
  | failJob {n : ℕ} {job : Job} (hrunning : b.running n = some job) :
      JobStep H b (.failJob n) (b.setJob n none [])

/-- A step is one of the service or one of the worker. -/
theorem cases_of_step {b t : Background} {e : BackgroundEvent} (hstep : b.step H e = some t) :
    (∃ e' w, e = .service e' ∧ b.world.step H e' = some w ∧ t = { b with world := w }) ∨
      JobStep H b e t := by
  cases e with
  | service e =>
    obtain ⟨w, hw, rfl⟩ := Option.map_eq_some_iff.mp hstep
    exact .inl ⟨e, w, rfl, hw, rfl⟩
  | processJob n logEntryId =>
    obtain ⟨⟨hfree, hjob⟩, ht⟩ := Option.ite_none_right_eq_some.mp hstep
    cases ht
    exact .inr (.processJob (Option.isNone_iff_eq_none.mp hfree) hjob)
  | findAllOrdered n rows =>
    simp only [step] at hstep
    split at hstep <;> cases hstep
    exact .inr (.findAllOrdered ‹_›)
  | logResult n =>
    simp only [step] at hstep
    split at hstep <;> cases hstep
    exact .inr (.logResult ‹_›)
  | failJob n =>
    obtain ⟨_, hrunning, rfl⟩ := Option.map_eq_some_iff.mp hstep
    exact .inr (.failJob hrunning)

theorem JobStep.step_eq {b t : Background} {e : BackgroundEvent} (hjob : JobStep H b e t) :
    b.step H e = some t := by
  cases hjob with
  | processJob hfree hjob => exact if_pos ⟨Option.isNone_iff_eq_none.mpr hfree, hjob⟩
  | findAllOrdered hrunning | logResult hrunning => simp only [step, hrunning]
  | failJob hrunning => simp only [step, hrunning, Option.map_some]

/-- The worker does not touch the service. -/
theorem JobStep.world_eq {b t : Background} {e : BackgroundEvent} (hjob : JobStep H b e t) :
    t.world = b.world := by
  cases hjob <;> rfl

/-- The service inside both. -/
theorem world_of_run {b t : Background} {events : List BackgroundEvent}
    (hrun : Run (step H) (Sees allowed) b events t) :
    Run (World.step H) allowed b.world (events.filterMap serviceEvent) t.world := by
  refine hrun.project ?_ ?_
  · intro s e u _ hstep himage
    rcases cases_of_step hstep with ⟨e', w, rfl, _, _⟩ | hjob
    · cases himage
    · exact hjob.world_eq
  · intro s e u e' hallowed hstep himage
    rcases cases_of_step hstep with ⟨e'', w, rfl, hw, rfl⟩ | hjob
    · cases himage
      exact ⟨hallowed, hw⟩
    · cases hjob <;> cases himage

/-- A service that runs by itself. -/
theorem service_of_run {w t : World} {events : List Event}
    (hrun : Run (World.step H) allowed w events t) (running : ℕ → Option Job)
    (lines : List JobLine) :
    Run (step H) (Sees allowed) ⟨w, running, lines⟩ (events.map .service) ⟨t, running, lines⟩ := by
  induction hrun with
  | nil => exact .nil
  | @snoc events s u e _ hallowed hstep ih =>
    rw [List.map_append]
    refine ih.snoc hallowed ?_
    rw [step, hstep, Option.map_some]

/-- The state in which the rows of a new job have been returned. -/
def queried (b : Background) (n : ℕ) (logEntryId : JsString) (rows : List Row) : Background :=
  { b with
    running := Function.update b.running n (some ⟨logEntryId, .returned rows⟩)
    lines := b.lines ++ [.started (jobId logEntryId) logEntryId] }

theorem running_queried (b : Background) (n : ℕ) (logEntryId : JsString) (rows : List Row) :
    (b.queried n logEntryId rows).running n = some ⟨logEntryId, .returned rows⟩ :=
  Function.update_self ..

/-- A job is started and its query returns. -/
theorem run_queried {b : Background} {n : ℕ} {logEntryId : JsString} {rows : List Row}
    (hfree : b.running n = none) (hjob : logEntryId ∈ b.world.queue)
    (hrows : b.world.database.FindAllOrdered rows) :
    Run (step H) (Sees allowed) b [.processJob n logEntryId, .findAllOrdered n rows]
      (b.queried n logEntryId rows) := by
  let busy := b.setJob n (some ⟨logEntryId, .querying⟩) [.started (jobId logEntryId) logEntryId]
  have hprocess : JobStep H b (.processJob n logEntryId) busy := .processJob hfree hjob
  have hquery : JobStep H busy (.findAllOrdered n rows)
      (busy.setJob n (some ⟨logEntryId, .returned rows⟩) []) :=
    .findAllOrdered (running_setJob_self ..)
  have hend : busy.setJob n (some ⟨logEntryId, .returned rows⟩) [] =
      b.queried n logEntryId rows := by
    simp [busy, setJob, queried]
  have hprocessing := Run.single (show Sees allowed b (.processJob n logEntryId) from trivial)
    hprocess.step_eq
  rw [← hend]
  exact hprocessing.snoc (show Sees allowed busy (.findAllOrdered n rows) from hrows) hquery.step_eq

end Background

/-! ## What a report covers -/

namespace JobLine

/-- The entry of the job is in the log, a count covers it and no damage is
reported. -/
def Vouches (log : List Row) : JobLine → Prop
  | started _ logEntryId => ∃ entry ∈ log, entry.id = logEntryId
  | intact _ logEntryId totalEntries =>
    totalEntries ≤ log.length ∧ ∃ entry ∈ log.take totalEntries, entry.id = logEntryId
  | broken _ _ _ _ => False

/-- A report stays right while the log grows. -/
theorem Vouches.mono {log log' : List Row} {line : JobLine} (hline : line.Vouches log)
    (hgrown : log <+: log') : line.Vouches log' := by
  cases line with
  | started jobId logEntryId =>
    obtain ⟨entry, hentry, hid⟩ := hline
    exact ⟨entry, hgrown.subset hentry, hid⟩
  | intact jobId logEntryId totalEntries =>
    obtain ⟨htotal, entry, hentry, hid⟩ := hline
    exact ⟨htotal.trans hgrown.length_le, entry, (hgrown.take totalEntries).subset hentry, hid⟩
  | broken jobId logEntryId brokenEntryId reason => exact hline

end JobLine

/-- The entry of the job is in the log, and what has been returned to its processor
verifies, covers the entry and shows at least `low` entries. -/
def Job.Covers (H : Digest) (low : ℕ) (log : List Row) (job : Job) : Prop :=
  match job.stage with
  | .querying => ∃ entry ∈ log, entry.id = job.logEntryId
  | .returned rows => ∃ total, verifyIntegrity H rows = .success total ∧ low ≤ total ∧
      total ≤ log.length ∧ ∃ entry ∈ log.take total, entry.id = job.logEntryId

/-- It stays so while the log grows. -/
theorem Job.Covers.mono {low : ℕ} {log log' : List Row} {job : Job}
    (hjob : job.Covers H low log) (hgrown : log <+: log') : job.Covers H low log' := by
  obtain ⟨logEntryId, stage⟩ := job
  cases stage with
  | querying =>
    obtain ⟨entry, hentry, hid⟩ := hjob
    exact ⟨entry, hgrown.subset hentry, hid⟩
  | returned rows =>
    obtain ⟨total, hverified, hlow, htotal, entry, hentry, hid⟩ := hjob
    exact ⟨total, hverified, hlow, htotal.trans hgrown.length_le, entry,
      (hgrown.take total).subset hentry, hid⟩

namespace Background

/-- The surroundings in which the log is a log: nobody tampers, the clock does not
go back, payloads are in storage order and entries are committed in the order of
their time stamps. -/
def Plain : Background → BackgroundEvent → Prop :=
  Sees fun w e => PlainUse w e ∧ CommitsInOrder w e

/-- What the worker keeps true in these surroundings; the rows of job `n` show at
least `low n` entries. -/
structure Vouched (H : Digest) (low : ℕ → ℕ) (b : Background) : Prop where
  /-- So many entries are in the log. -/
  since : ∀ n, low n ≤ b.world.log.length
  /-- The jobs. -/
  running : ∀ n job, b.running n = some job → job.Covers H (low n) b.world.log
  /-- The lines. -/
  lines : ∀ line ∈ b.lines, line.Vouches b.world.log

theorem vouched_start (now : JsDate) : (start now).Vouched H fun _ => 0 := by
  constructor <;> simp [start]

/-- A job goes on and one more line is logged. -/
theorem Vouched.setJob {low : ℕ → ℕ} {b : Background} (hb : b.Vouched H low) {n : ℕ}
    {job : Option Job} {lines : List JobLine}
    (hjob : ∀ job' ∈ job, job'.Covers H (low n) b.world.log)
    (hlines : ∀ line ∈ lines, line.Vouches b.world.log) :
    (b.setJob n job lines).Vouched H low where
  since := hb.since
  running := by
    intro n' job' hrunning
    by_cases hn : n' = n
    · subst hn
      rw [running_setJob_self] at hrunning
      exact hjob job' hrunning
    · rw [running_setJob_of_ne b hn] at hrunning
      exact hb.running n' job' hrunning
  lines := by
    intro line hline
    rcases List.mem_append.mp hline with hline | hline
    · exact hb.lines line hline
    · exact hlines line hline

/-- What a job with verified rows logs. -/
theorem exists_ofResult_eq {low : ℕ} {log : List Row} {logEntryId : JsString} {rows : List Row}
    (hcovers : Job.Covers H low log ⟨logEntryId, .returned rows⟩) :
    ∃ total, JobLine.ofResult logEntryId (verifyIntegrity H rows) =
        .intact (jobId logEntryId) logEntryId total ∧
      low ≤ total ∧ total ≤ log.length ∧ ∃ entry ∈ log.take total, entry.id = logEntryId := by
  obtain ⟨total, hverified, hrest⟩ := hcovers
  exact ⟨total, by rw [hverified, JobLine.ofResult], hrest⟩

/-- **The step.** -/
theorem Vouched.of_step {low : ℕ → ℕ} {b t : Background} {e : BackgroundEvent}
    (hb : b.Vouched H low) (horderly : b.world.Orderly H)
    (hqueue : ∀ id ∈ b.world.queue, ∃ entry ∈ b.world.log, entry.id = id)
    (hallowed : Sees NoTampering b e) (hstep : b.step H e = some t) : t.Vouched H low := by
  rcases cases_of_step hstep with ⟨e', w, rfl, hw, rfl⟩ | hjob
  · have hgrown : b.world.log <+: w.log := World.log_prefix_of_step hallowed hw
    exact ⟨fun n => (hb.since n).trans hgrown.length_le,
      fun n job hrunning => (hb.running n job hrunning).mono hgrown,
      fun line hline => (hb.lines line hline).mono hgrown⟩
  · cases hjob with
    | @processJob n logEntryId hfree hjob =>
      have hentry := hqueue logEntryId hjob
      refine hb.setJob (fun job' hjob' => ?_) fun line hline => ?_
      · cases hjob'
        exact hentry
      · rw [List.mem_singleton.mp hline]
        exact hentry
    | @findAllOrdered n logEntryId rows hrunning =>
      have hverified := horderly.ordered.verifyIntegrity_eq horderly.consistent hallowed
      obtain ⟨entry, hentry, hid⟩ := hb.running n _ hrunning
      refine hb.setJob (fun job' hjob' => ?_) (by simp)
      cases hjob'
      refine ⟨b.world.log.length, ?_, hb.since n, le_rfl, entry, ?_, hid⟩
      · rw [hverified, World.log, List.length_map]
      · rw [List.take_length]
        exact hentry
    | @logResult n logEntryId rows hrunning =>
      obtain ⟨total, hline, _, htotal, hentry⟩ := exists_ofResult_eq (hb.running n _ hrunning)
      refine hb.setJob (by simp) fun line hmem => ?_
      rw [List.mem_singleton.mp hmem, hline]
      exact ⟨htotal, hentry⟩
    | failJob hrunning =>
      exact hb.setJob (by simp) (by simp)

/-- **The run.** -/
theorem vouched_of_run {low : ℕ → ℕ} {now : JsDate} {before later : List BackgroundEvent}
    {s b : Background} (hbefore : Run (step H) Plain (start now) before s)
    (hs : s.Vouched H low) (hlater : Run (step H) Plain s later b) : b.Vouched H low := by
  induction hlater with
  | nil => exact hs
  | @snoc later u t e prior hallowed hstep ih =>
    have hworld := world_of_run (hbefore.append prior)
    have hplain : ∀ w e, PlainUse w e ∧ CommitsInOrder w e → NoTampering w e :=
      fun _ _ hboth => World.not_isTamper_of_plainUse hboth.1
    have horderly : u.world.Orderly H := hworld.invariant (World.orderly_start now)
      fun _ _ _ hboth hstep hw => hw.of_step hboth.1 hboth.2 hstep
    refine ih.of_step horderly (fun id => World.mem_log_of_mem_queue (hworld.mono hplain)) ?_ hstep
    cases e with
    | service e => exact hplain _ _ hallowed
    | processJob | findAllOrdered | logResult | failJob => exact hallowed

/-- The rows of job `n` have been returned to its processor. -/
def HasRows (b : Background) (n : ℕ) : Prop :=
  ∃ logEntryId rows, b.running n = some ⟨logEntryId, .returned rows⟩

/-- **What a job reports covers its entry.** In such surroundings, however the queue
hands out its jobs and however many are processed at once: a job starts when its
entry is in the log, damage is never reported, and a reported count includes the
entry of the job. A job whose rows have not been returned at some moment reports at
least what is in the log then, and at most what is in it when it reports. -/
theorem jobs_vouch {now : JsDate} {before later : List BackgroundEvent} {s b : Background}
    (hbefore : Run (step H) Plain (start now) before s) (hlater : Run (step H) Plain s later b) :
    (∀ line ∈ b.lines, line.Vouches b.world.log) ∧
      ∀ n t, ¬ s.HasRows n → b.step H (.logResult n) = some t →
        ∃ logEntryId rows total, b.running n = some ⟨logEntryId, .returned rows⟩ ∧
          t.lines = b.lines ++ [.intact (jobId logEntryId) logEntryId total] ∧
          s.world.log.length ≤ total ∧ total ≤ b.world.log.length ∧
          ∃ entry ∈ b.world.log.take total, entry.id = logEntryId := by
  classical
  let low (n : ℕ) : ℕ := if s.HasRows n then 0 else s.world.log.length
  have hs : s.Vouched H fun _ => 0 := vouched_of_run .nil (vouched_start now) hbefore
  have hlow : s.Vouched H low := by
    refine ⟨fun n => ?_, fun n job hrunning => ?_, hs.lines⟩
    · simp only [low]
      split
      · exact Nat.zero_le _
      · exact le_rfl
    · have hcovers := hs.running n job hrunning
      obtain ⟨logEntryId, stage⟩ := job
      cases stage with
      | querying => exact hcovers
      | returned rows =>
        have hreturned : low n = 0 := if_pos ⟨logEntryId, rows, hrunning⟩
        rw [hreturned]
        exact hcovers
  have hb : b.Vouched H low := vouched_of_run hbefore hlow hlater
  refine ⟨hb.lines, fun n t hnew hstep => ?_⟩
  rcases cases_of_step hstep with ⟨_, _, hservice, _⟩ | hjob
  · cases hservice
  · cases hjob with
    | @logResult n logEntryId rows hrunning =>
      obtain ⟨total, hline, hrest⟩ := exists_ofResult_eq (hb.running n _ hrunning)
      have hsince : low n = s.world.log.length := if_neg hnew
      rw [hsince] at hrest
      exact ⟨logEntryId, rows, total, hrunning, by rw [← hline]; rfl, hrest⟩

/-- Two entries are appended. The job of the first one has its rows before the
second one is there; the job of the second one starts behind it and reports
first. -/
theorem jobs_vouch_of_two :
    ∃ s b t before later, Run (step sha256) Plain (start JsDate.epoch) before s ∧
      Run (step sha256) Plain s later b ∧ s.HasRows 0 ∧ ¬ s.HasRows 1 ∧
      s.world.log.length = 2 ∧ b.step sha256 (.logResult 1) = some t ∧
      t.lines = [.started (js "verify-1") (js "1"), .started (js "verify-2") (js "2"),
        .intact (js "verify-2") (js "2") 2] ∧
      ∀ line ∈ b.lines, line.Vouches b.world.log := by
  let dto : CreateLogDto := ⟨js "alice", js "login", .null⟩
  let posted (c : ℕ) (id : JsString) : List Event := [.createLogEntry c dto] ++
    World.appendEvents c id ++ [.setLatestReply c true, .enqueueReply c true]
  have hexecute : (execute (World.step sha256) (fun w e => PlainUse w e ∧ CommitsInOrder w e)
      (.start JsDate.epoch) (posted 0 (js "1"))).any (fun w => decide (w.queue = [js "1"]) &&
        (execute (World.step sha256) (fun w e => PlainUse w e ∧ CommitsInOrder w e) w
          (.tick World.nextMillisecond :: posted 1 (js "2"))).any fun w' =>
            decide (js "2" ∈ w'.queue ∧ w'.log.length = 2)) = true := by
    decide +kernel
  obtain ⟨w, hfirst, hcheck⟩ := Run.exists_of_execute hexecute
  obtain ⟨hqueue, hcheck⟩ := (Bool.and_eq_true _ _).mp hcheck
  obtain ⟨w', hsecond, hcheck⟩ := Run.exists_of_execute hcheck
  obtain ⟨hqueue', htwo⟩ := of_decide_eq_true hcheck
  have hjob : js "1" ∈ w.queue := of_decide_eq_true hqueue ▸ List.mem_singleton_self _
  obtain ⟨rows, hrows⟩ := w.database.exists_findAllOrdered
  obtain ⟨rows', hrows'⟩ := w'.database.exists_findAllOrdered
  let first : Background := ⟨w, fun _ => none, []⟩
  let s : Background := { first.queried 0 (js "1") rows with world := w' }
  let b : Background := s.queried 1 (js "2") rows'
  have hbefore : Run (step sha256) Plain (start JsDate.epoch) _ s :=
    ((service_of_run hfirst (fun _ => none) []).append
      (run_queried (b := first) rfl hjob hrows)).append (service_of_run hsecond _ _)
  have hlater : Run (step sha256) Plain s _ b := run_queried (b := s) rfl hqueue' hrows'
  have hnew : ¬ s.HasRows 1 := by
    rintro ⟨_, _, hheld⟩
    cases hheld
  have hreturned : b.running 1 = some ⟨js "2", .returned rows'⟩ := running_queried ..
  have hlogs : JobStep sha256 b (.logResult 1) _ := .logResult hreturned
  obtain ⟨hvouches, hcounts⟩ := jobs_vouch hbefore hlater
  obtain ⟨logEntryId, _, total, hrunning, hlines, hlow, hhigh, _⟩ := hcounts 1 _ hnew hlogs.step_eq
  obtain rfl : total = 2 := Nat.le_antisymm (hhigh.trans htwo.le) (htwo.ge.trans hlow)
  cases hreturned.symm.trans hrunning
  exact ⟨s, b, _, _, _, hbefore, hlater, ⟨_, _, rfl⟩, hnew, htwo, hlogs.step_eq, hlines, hvouches⟩

end Background

/-! ## The alarm -/

/-- A fault in the first rows is the fault of all of them. -/
theorem verifyIntegrity_append {kept rest : List Row} {total : ℕ} {fault : Fault}
    (hfailure : verifyIntegrity H kept = .failure total fault) :
    verifyIntegrity H (kept ++ rest) = .failure (kept ++ rest).length fault := by
  rw [verifyIntegrity, verifyEntireChain] at hfailure
  rw [verifyIntegrity, verifyEntireChain, List.map_append, firstFault_append, List.length_append,
    List.length_map, List.length_map, List.length_append]
  split at hfailure
  case h_1 hfault =>
    cases hfailure
    rw [hfault, Option.some_or]
  case h_2 => cases hfailure

namespace World

/-- While entries are only appended, in the order of the time stamps, a query
returns first what it could have returned before. -/
theorem kept_of_run {allowed : World → Event → Prop} {now : JsDate} {events later : List Event}
    {w t : World} (hrun : Run (step H) allowed (start now) events w)
    (hlater : Run (step H) AppendsInOrder w later t) {rows : List Row}
    (hrows : t.database.FindAllOrdered rows) :
    ∃ kept rest, w.database.FindAllOrdered kept ∧ rows = kept ++ rest := by
  have hgrows := grows_of_run hrun hlater
  by_cases hnew : history H w later = []
  · refine ⟨rows, [], ?_, (List.append_nil _).symm⟩
    rw [Database.FindAllOrdered, hgrows.entries, hnew, List.append_nil] at hrows
    exact hrows
  · obtain ⟨kept, hkept, hsplit⟩ := hgrows.exists_kept hnew hrows
    exact ⟨kept, _, hkept, hsplit⟩

end World

/-- The line reports damage that verification would have found in this table. -/
def JobLine.Accuses (H : Digest) (db : Database) : JobLine → Prop
  | started _ _ => True
  | intact _ _ _ => False
  | broken _ _ brokenEntryId reason => ∃ rows total fault, db.FindAllOrdered rows ∧
      verifyIntegrity H rows = .failure total fault ∧
      brokenEntryId = fault.brokenEntryId ∧ reason = fault.reason.text

namespace Background

/-- The line is the result of rows that a job has in hand. -/
def Holds (H : Digest) (b : Background) (line : JobLine) : Prop :=
  ∃ n logEntryId rows, b.running n = some ⟨logEntryId, .returned rows⟩ ∧
    line = .ofResult logEntryId (verifyIntegrity H rows)

/-- What is logged of rows that begin with an accused table accuses it. -/
theorem accuses_ofResult {db : Database} {kept rest : List Row} (hkept : db.FindAllOrdered kept)
    (hbroken : (verifyIntegrity H kept).isSuccess = false) (logEntryId : JsString) :
    (JobLine.ofResult logEntryId (verifyIntegrity H (kept ++ rest))).Accuses H db := by
  cases hresult : verifyIntegrity H kept with
  | success total =>
    rw [hresult] at hbroken
    cases hbroken
  | failure total fault =>
    rw [verifyIntegrity_append hresult]
    exact ⟨kept, total, fault, hkept, hresult, rfl, rfl⟩

/-- What has been logged since `s`, and what is about to be. -/
structure Accusing (H : Digest) (s b : Background) : Prop where
  /-- The lines. -/
  lines : ∃ new, b.lines = s.lines ++ new ∧
    ∀ line ∈ new, line.Accuses H s.world.database ∨ s.Holds H line
  /-- The rows in hand. -/
  rows : ∀ line, b.Holds H line → line.Accuses H s.world.database ∨ s.Holds H line

/-- A job goes on. -/
theorem Accusing.setJob {s b : Background} (hb : Accusing H s b) {n : ℕ} {job : Option Job}
    {lines : List JobLine}
    (hjob : ∀ logEntryId rows, job = some ⟨logEntryId, .returned rows⟩ →
      (JobLine.ofResult logEntryId (verifyIntegrity H rows)).Accuses H s.world.database)
    (hlines : ∀ line ∈ lines, line.Accuses H s.world.database ∨ s.Holds H line) :
    Accusing H s (b.setJob n job lines) where
  lines := by
    obtain ⟨new, hnew, haccuses⟩ := hb.lines
    refine ⟨new ++ lines, ?_, fun line hline => ?_⟩
    · rw [← List.append_assoc, ← hnew]
      rfl
    · exact (List.mem_append.mp hline).elim (haccuses line) (hlines line)
  rows := by
    rintro line ⟨n', logEntryId, rows, hrunning, rfl⟩
    by_cases hn : n' = n
    · subst hn
      rw [running_setJob_self] at hrunning
      exact .inl (hjob logEntryId rows hrunning)
    · rw [running_setJob_of_ne b hn] at hrunning
      exact hb.rows _ ⟨n', logEntryId, rows, hrunning, rfl⟩

/-- **The alarm does not fall silent.** Whatever has been done to the table: if no
verification of it succeeds, then no job whose rows are returned later reports an
intact chain, however many entries are appended in the meantime, as long as nobody
tampers again. Every such report names an entry and a reason that verification
would have named before. -/
theorem alarm_stays {allowed : World → Event → Prop} {now : JsDate}
    {before later : List BackgroundEvent} {s b : Background}
    (hbefore : Run (step H) (Sees allowed) (start now) before s)
    (hbroken : ∀ rows, s.world.database.FindAllOrdered rows →
      (verifyIntegrity H rows).isSuccess = false)
    (hlater : Run (step H) (Sees World.AppendsInOrder) s later b) :
    ∃ new, b.lines = s.lines ++ new ∧
      ∀ line ∈ new, line.Accuses H s.world.database ∨ s.Holds H line := by
  have hb : Accusing H s b := by
    induction hlater with
    | nil => exact ⟨⟨[], (List.append_nil _).symm, by simp⟩, fun _ => .inr⟩
    | @snoc later u t e prior hallowed hstep ih =>
      rcases cases_of_step hstep with ⟨e', w, rfl, _, rfl⟩ | hjob
      · exact ⟨ih.lines, ih.rows⟩
      · cases hjob with
        | processJob =>
          refine ih.setJob (by simp) fun line hline => ?_
          rw [List.mem_singleton.mp hline]
          exact .inl trivial
        | @findAllOrdered n logEntryId rows hrunning =>
          obtain ⟨kept, rest, hkept, rfl⟩ :=
            World.kept_of_run (world_of_run hbefore) (world_of_run prior) hallowed
          refine ih.setJob (fun logEntryId' rows' hjob => ?_) (by simp)
          cases hjob
          exact accuses_ofResult hkept (hbroken kept hkept) logEntryId
        | @logResult n logEntryId rows hrunning =>
          refine ih.setJob (by simp) fun line hline => ?_
          rw [List.mem_singleton.mp hline]
          exact ih.rows _ ⟨n, logEntryId, rows, hrunning, rfl⟩
        | failJob =>
          exact ih.setJob (by simp) (by simp)
  exact hb.lines

/-- A row that does not carry its own digest is inserted before the only entry,
another entry is appended, and the job of the first one is processed. -/
theorem alarm_stays_forged :
    ∃ s b before later, Run (step sha256) (Sees fun _ _ => True) (start JsDate.epoch) before s ∧
      Run (step sha256) (Sees World.AppendsInOrder) s later b ∧
      s.world.log.length < b.world.log.length ∧ b.lines.length = 2 ∧
      ∃ new, b.lines = s.lines ++ new ∧
        ∀ line ∈ new, line.Accuses sha256 s.world.database := by
  let dto : CreateLogDto := ⟨js "alice", js "login", .null⟩
  have hexecute : (execute (World.step sha256) (fun _ _ => True) (.start JsDate.epoch)
      ([.tick World.nextMillisecond, .createLogEntry 0 dto] ++ World.appendEvents 0 (js "1") ++
        [.setLatestReply 0 true, .enqueueReply 0 true, .tamper (.insert World.forgedRow),
          .tick ⟨2, by decide, by decide⟩, .createLogEntry 1 dto])).any
      (fun w => decide (js "2" ∈ w.log.map LogEntry.id ∧ w.log.length = 2 ∧ ∀ row ∈ w.log,
          row.id = js "2" → verificationStatus sha256 row.asEntry = false) &&
        (execute (World.step sha256) World.AppendsInOrder w (World.appendEvents 1 (js "3"))).any
          fun t => decide (js "1" ∈ t.queue ∧ t.log.length = 3)) = true := by
    decide +kernel
  obtain ⟨w, hbefore, hcheck⟩ := Run.exists_of_execute hexecute
  obtain ⟨hforged, hafter⟩ := (Bool.and_eq_true _ _).mp hcheck
  obtain ⟨hmem, htwo, hunverified⟩ := of_decide_eq_true hforged
  obtain ⟨t, hlater, hcheck'⟩ := Run.exists_of_execute hafter
  obtain ⟨hjob, hthree⟩ := of_decide_eq_true hcheck'
  have hbroken : ∀ rows, w.database.FindAllOrdered rows →
      (verifyIntegrity sha256 rows).isSuccess = false := by
    intro rows hrows
    obtain ⟨row, hrow, hid⟩ := List.mem_map.mp hmem
    by_contra hne
    have hvalid := isSuccess_verifyEntireChain_iff.mp (Bool.not_eq_false _ ▸ hne)
    have hverified := hvalid.verified row.asEntry (List.mem_map_of_mem (hrows.1.mem_iff.mpr hrow))
    rw [hunverified row hrow hid] at hverified
    cases hverified
  obtain ⟨rows, hrows⟩ := t.database.exists_findAllOrdered
  have hstart := service_of_run hbefore (fun _ => none) []
  let u := queried ⟨t, fun _ => none, []⟩ 0 (js "1") rows
  have hqueried : Run (step sha256) (Sees World.AppendsInOrder) ⟨t, fun _ => none, []⟩ _ u :=
    run_queried rfl hjob hrows
  have hreturned : u.running 0 = some ⟨js "1", .returned rows⟩ := running_queried ..
  have hlogs : JobStep sha256 u (.logResult 0) _ := .logResult hreturned
  have hrun := ((service_of_run hlater (fun _ => none) []).append hqueried).snoc
    (show Sees World.AppendsInOrder u (.logResult 0) from trivial) hlogs.step_eq
  obtain ⟨new, hnew, haccuses⟩ := alarm_stays hstart hbroken hrun
  refine ⟨_, _, _, _, hstart, hrun, ?_, rfl, new, hnew, fun line hline => ?_⟩
  · show w.log.length < t.log.length
    rw [htwo, hthree]
    decide
  · -- No job had its rows at the time.
    refine (haccuses line hline).resolve_right ?_
    rintro ⟨_, _, _, hheld, _⟩
    cases hheld

end Background

end TamperEvidentLog.Service
