/-
# The service as one system

The state of everything a request touches: the clock, the database, the cache,
the verification queue and every call of `createLogEntry` and `getLogById`, each
at the `await` it stands at. One event is one resumption of one call, or
something that happens around the calls: time passes, a cached value expires,
Redis goes away or comes back, somebody changes the table.

A Redis command issued while the server is away is queued by the client and
neither resolves nor rejects, so its reply is an event that needs the server. A
`set` resolves whether or not the value was stored; `get` takes a rejected
command for a miss.

The events are not restricted here. A statement says which of them it admits.
-/

import TamperEvidentLog.Protocol.Run
import TamperEvidentLog.Service.ChainVerification
import TamperEvidentLog.Service.LogRepository

namespace TamperEvidentLog.Service

open TamperEvidentLog.Text TamperEvidentLog.Time TamperEvidentLog.Crypto
open TamperEvidentLog.Protocol

/-! ## Calls -/

/-- An error with an HTTP status. -/
structure AppError where
  /-- The text of the error. -/
  message : JsString
  /-- The HTTP status. -/
  statusCode : ℕ
  /-- The code of the error. -/
  code : JsString
  deriving DecidableEq

/-- What `getLogById` throws when there is no row. -/
def logEntryNotFound : AppError := ⟨js "Log entry not found", 404, js "NOT_FOUND"⟩

/-- How `getLogById` ends. -/
inductive Answer
  | /-- It returns an entry and whether it verified. -/
    found (entry : Entry) (verificationStatus : Bool)
  | /-- It throws. -/
    failed (error : AppError)

/-- Where a call of `createLogEntry` stands. -/
inductive CreateStage
  | /-- It has sampled the time and waits for the lock. -/
    waiting
  | /-- Its transaction holds the lock. -/
    transacting
  | /-- Committed; it waits for `redisService.set`. -/
    settingLatest (entry : Row)
  | /-- It waits for `queueService.enqueueVerification`. -/
    enqueueing (entry : Row)
  | /-- It has returned the entry. -/
    returned (entry : Row)
  | /-- It has rejected. -/
    rejected

/-- Where a call of `getLogById` stands. -/
inductive ReadStage
  | /-- It waits for `redisService.get`. -/
    gettingCache
  | /-- A miss; it waits for `repository.findById`. -/
    findingRow
  | /-- It waits for `redisService.set`. -/
    settingCache (entry : Row)
  | /-- It has answered. -/
    answered (answer : Answer)

/-- A call of the service. -/
inductive Call
  | /-- `createLogEntry(dto)`, which sampled `createdAt`. -/
    create (dto : CreateLogDto) (createdAt : JsDate) (stage : CreateStage)
  | /-- `getLogById(id)`. -/
    read (id : JsString) (stage : ReadStage)

/-! ## States -/

/-- The Redis key for the latest entry's summary. -/
def latestLogKey : JsString := js "latest_log"

/-- The Redis key for an entry. -/
def logKey (id : JsString) : JsString := js "log:" ++ id

theorem logKey_ne_latestLogKey (id : JsString) : logKey id ≠ latestLogKey := by
  intro h
  have hhead := congrArg (List.take 4) h
  rw [logKey, List.take_append_of_le_length (by decide)] at hhead
  exact absurd hhead (by decide)

theorem logKey_injective : Function.Injective logKey := fun _ _ h => List.append_cancel_left h

/-- What `createLogEntry` caches of a new entry. -/
def latestSummary (entry : Row) : JsonValue where
  json := .object [
    (js "id", .string entry.id),
    (js "currentHash", .string entry.currentHash),
    (js "createdAt", .string entry.createdAt.toISOString)]
  uniqueKeys_json := by
    have hkeys : [js "id", js "currentHash", js "createdAt"].Nodup := by decide
    rw [Json.uniqueKeys_object]
    exact ⟨hkeys, by simp [Json.uniqueKeys]⟩

/-- The state of the system. -/
structure World where
  /-- The clock. -/
  now : JsDate
  /-- PostgreSQL. -/
  database : Database
  /-- The texts that Redis holds. -/
  redis : JsString → Option JsString
  /-- Is the Redis server reachable? -/
  redisUp : Bool
  /-- The entries whose verification jobs have been added. -/
  queue : List JsString
  /-- The calls so far. -/
  calls : ℕ → Option Call

/-- What can happen. -/
inductive Event
  | /-- The clock shows another time. -/
    tick (now : JsDate)
  | /-- A call of `createLogEntry` starts. -/
    createLogEntry (c : ℕ) (dto : CreateLogDto)
  | /-- Its transaction reads `chain_head`. -/
    lockChainHead (c : ℕ)
  | /-- It fails before it has the lock. -/
    cancel (c : ℕ)
  | /-- The transaction in progress computes the hashes. -/
    computeHashes
  | /-- It inserts the entry. -/
    insertEntry (id : JsString)
  | /-- It updates `chain_head`. -/
    updateChainHead
  | /-- It commits. -/
    commit
  | /-- It rolls back. -/
    rollback
  | /-- `set` of `latest_log` returns. -/
    setLatestReply (c : ℕ) (stored : Bool)
  | /-- `queue.add` returns. -/
    enqueueReply (c : ℕ) (added : Bool)
  | /-- `getVerificationQueue` throws. -/
    enqueueThrow (c : ℕ)
  | /-- A call of `getLogById` starts. -/
    getLogById (c : ℕ) (id : JsString)
  | /-- `get` of the entry resolves or rejects. -/
    getReply (c : ℕ) (resolved : Bool)
  | /-- `findById` returns. -/
    findById (c : ℕ)
  | /-- `set` of the entry returns. -/
    setReply (c : ℕ) (stored : Bool)
  | /-- A cached value expires. -/
    expire (key : JsString)
  | /-- The Redis server becomes unreachable. -/
    redisDown
  | /-- It is reachable again. -/
    redisBack
  | /-- Somebody changes `log_entries`. -/
    tamper (edit : Edit)

namespace World

/-- An empty log, an empty cache, no calls. -/
def start (now : JsDate) : World :=
  ⟨now, .initial, fun _ => none, true, [], fun _ => none⟩

/-- The call resumes and stops at its next `await`. -/
def setCall (w : World) (c : ℕ) (call : Call) : World :=
  { w with calls := Function.update w.calls c (some call) }

/-- Redis stores a value, or not. -/
def store (w : World) (stored : Bool) (key value : JsString) : World :=
  if stored then { w with redis := Function.update w.redis key (some value) } else w

/-- The queue takes a job unless it has one for this entry. -/
def enqueue (w : World) (added : Bool) (id : JsString) : World :=
  if added ∧ id ∉ w.queue then { w with queue := w.queue ++ [id] } else w

variable (H : Digest)

section Fields

variable (w : World) (c : ℕ) (call : Call) (flag : Bool) (key value : JsString)

@[simp] theorem now_setCall : (w.setCall c call).now = w.now := rfl
@[simp] theorem database_setCall : (w.setCall c call).database = w.database := rfl
@[simp] theorem redis_setCall : (w.setCall c call).redis = w.redis := rfl
@[simp] theorem redisUp_setCall : (w.setCall c call).redisUp = w.redisUp := rfl
@[simp] theorem queue_setCall : (w.setCall c call).queue = w.queue := rfl

@[simp]
theorem calls_setCall_self : (w.setCall c call).calls c = some call := Function.update_self ..

theorem calls_setCall_of_ne {c c' : ℕ} (hne : c' ≠ c) (call : Call) :
    (w.setCall c call).calls c' = w.calls c' := Function.update_of_ne hne _ _

@[simp]
theorem now_store : (w.store flag key value).now = w.now := by
  unfold store
  split <;> rfl

@[simp]
theorem database_store : (w.store flag key value).database = w.database := by
  unfold store
  split <;> rfl

@[simp]
theorem redisUp_store : (w.store flag key value).redisUp = w.redisUp := by
  unfold store
  split <;> rfl

@[simp]
theorem queue_store : (w.store flag key value).queue = w.queue := by
  unfold store
  split <;> rfl

@[simp]
theorem calls_store : (w.store flag key value).calls = w.calls := by
  unfold store
  split <;> rfl

@[simp]
theorem redis_store_self : (w.store true key value).redis key = some value :=
  Function.update_self ..

theorem redis_store_of_ne {key key' : JsString} (hne : key' ≠ key) (value : JsString) :
    (w.store flag key value).redis key' = w.redis key' := by
  unfold store
  split
  · exact Function.update_of_ne hne _ _
  · rfl

@[simp]
theorem now_enqueue : (w.enqueue flag value).now = w.now := by
  unfold enqueue
  split <;> rfl

@[simp]
theorem database_enqueue : (w.enqueue flag value).database = w.database := by
  unfold enqueue
  split <;> rfl

@[simp]
theorem redis_enqueue : (w.enqueue flag value).redis = w.redis := by
  unfold enqueue
  split <;> rfl

@[simp]
theorem redisUp_enqueue : (w.enqueue flag value).redisUp = w.redisUp := by
  unfold enqueue
  split <;> rfl

@[simp]
theorem calls_enqueue : (w.enqueue flag value).calls = w.calls := by
  unfold enqueue
  split <;> rfl

end Fields

/-- What `getLogById` makes of the reply to `get`: a miss, an error or a text
that does not parse send it to the database. No text but an encoded entry is
ever stored under the key. -/
def cacheHit (w : World) (id : JsString) (resolved : Bool) : Option ReadStage :=
  match if resolved then w.redis (logKey id) else none with
  | none => some .findingRow
  | some text =>
    match JsonValue.parse text with
    | none => some .findingRow
    | some v => (LogEntry.ofJson v).map fun entry =>
      .answered (.found entry (verificationStatus H entry))

/-- What `getLogById` does with the row that `findById` returned. -/
def rowFound (w : World) (id : JsString) : ReadStage :=
  match w.database.findById id with
  | none => .answered (.failed logEntryNotFound)
  | some row => .settingCache row

/-- A step of the transaction in progress that leaves the calls alone. -/
def transact (w : World) (e : DatabaseEvent) : Option World :=
  (w.database.step H e).map fun db => { w with database := db }

/-- The state after an event, if the event is possible. -/
def step (w : World) : Event → Option World
  | .tick now => some { w with now }
  | .createLogEntry c dto =>
    match w.calls c with
    | none => some (w.setCall c (.create dto w.now .waiting))
    | some _ => none
  | .lockChainHead c =>
    match w.calls c, w.database.chainHead with
    | some (.create dto createdAt .waiting), some _ =>
      (w.transact H (.lockChainHead c dto createdAt)).map fun w =>
        w.setCall c (.create dto createdAt .transacting)
    -- `chainHeads[0]` is undefined.
    | some (.create dto createdAt .waiting), none =>
      some (w.setCall c (.create dto createdAt .rejected))
    | _, _ => none
  | .cancel c =>
    match w.calls c with
    | some (.create dto createdAt .waiting) => some (w.setCall c (.create dto createdAt .rejected))
    | _ => none
  | .computeHashes => w.transact H .computeHashes
  | .insertEntry id => w.transact H (.insertEntry id)
  | .updateChainHead => w.transact H .updateChainHead
  | .commit =>
    match w.database.transaction with
    | some ⟨c, dto, createdAt, .headUpdated created⟩ =>
      (w.transact H .commit).map fun w =>
        w.setCall c (.create dto createdAt (.settingLatest created.readBack))
    | _ => none
  | .rollback =>
    match w.database.transaction with
    | some tx =>
      (w.transact H .rollback).map fun w =>
        w.setCall tx.caller (.create tx.dto tx.createdAt .rejected)
    | none => none
  | .setLatestReply c stored =>
    match w.calls c, w.redisUp with
    | some (.create dto createdAt (.settingLatest entry)), true =>
      some ((w.store stored latestLogKey (latestSummary entry).stringify).setCall c
        (.create dto createdAt (.enqueueing entry)))
    | _, _ => none
  | .enqueueReply c added =>
    match w.calls c, w.redisUp with
    | some (.create dto createdAt (.enqueueing entry)), true =>
      some ((w.enqueue added entry.id).setCall c (.create dto createdAt (.returned entry)))
    | _, _ => none
  | .enqueueThrow c =>
    match w.calls c with
    | some (.create dto createdAt (.enqueueing entry)) =>
      some (w.setCall c (.create dto createdAt (.returned entry)))
    | _ => none
  | .getLogById c id =>
    match w.calls c with
    | none => some (w.setCall c (.read id .gettingCache))
    | some _ => none
  | .getReply c resolved =>
    match w.calls c, w.redisUp with
    | some (.read id .gettingCache), true =>
      (w.cacheHit H id resolved).map fun stage => w.setCall c (.read id stage)
    | _, _ => none
  | .findById c =>
    match w.calls c with
    | some (.read id .findingRow) => some (w.setCall c (.read id (w.rowFound id)))
    | _ => none
  | .setReply c stored =>
    match w.calls c, w.redisUp with
    | some (.read id (.settingCache row)), true =>
      some ((w.store stored (logKey id) row.asEntry.encode).setCall c
        (.read id (.answered (.found row.asEntry (verificationStatus H row.asEntry)))))
    | _, _ => none
  | .expire key => some { w with redis := Function.update w.redis key none }
  | .redisDown => some { w with redisUp := false }
  | .redisBack => some { w with redisUp := true }
  | .tamper edit => w.transact H (.tamper edit)

/-- What a step does, event by event. -/
inductive Step (w : World) : Event → World → Prop
  | tick {now : JsDate} : Step w (.tick now) { w with now }
  | createLogEntry {c : ℕ} {dto : CreateLogDto} (hcall : w.calls c = none) :
      Step w (.createLogEntry c dto) (w.setCall c (.create dto w.now .waiting))
  | lockChainHead {c : ℕ} {dto : CreateLogDto} {createdAt : JsDate} {db : Database}
      (hcall : w.calls c = some (.create dto createdAt .waiting))
      (hdb : w.database.step H (.lockChainHead c dto createdAt) = some db) :
      Step w (.lockChainHead c)
        (setCall { w with database := db } c (.create dto createdAt .transacting))
  | headMissing {c : ℕ} {dto : CreateLogDto} {createdAt : JsDate}
      (hcall : w.calls c = some (.create dto createdAt .waiting))
      (hhead : w.database.chainHead = none) :
      Step w (.lockChainHead c) (w.setCall c (.create dto createdAt .rejected))
  | cancel {c : ℕ} {dto : CreateLogDto} {createdAt : JsDate}
      (hcall : w.calls c = some (.create dto createdAt .waiting)) :
      Step w (.cancel c) (w.setCall c (.create dto createdAt .rejected))
  | computeHashes {db : Database} (hdb : w.database.step H .computeHashes = some db) :
      Step w .computeHashes { w with database := db }
  | insertEntry {id : JsString} {db : Database}
      (hdb : w.database.step H (.insertEntry id) = some db) :
      Step w (.insertEntry id) { w with database := db }
  | updateChainHead {db : Database} (hdb : w.database.step H .updateChainHead = some db) :
      Step w .updateChainHead { w with database := db }
  | commit {c : ℕ} {dto : CreateLogDto} {createdAt : JsDate} {created : Row} {db : Database}
      (htx : w.database.transaction = some ⟨c, dto, createdAt, .headUpdated created⟩)
      (hdb : w.database.step H .commit = some db) :
      Step w .commit (setCall { w with database := db } c
        (.create dto createdAt (.settingLatest created.readBack)))
  | rollback {tx : Transaction} {db : Database} (htx : w.database.transaction = some tx)
      (hdb : w.database.step H .rollback = some db) :
      Step w .rollback (setCall { w with database := db } tx.caller
        (.create tx.dto tx.createdAt .rejected))
  | setLatestReply {c : ℕ} {stored : Bool} {dto : CreateLogDto} {createdAt : JsDate} {entry : Row}
      (hcall : w.calls c = some (.create dto createdAt (.settingLatest entry)))
      (hup : w.redisUp = true) :
      Step w (.setLatestReply c stored)
        ((w.store stored latestLogKey (latestSummary entry).stringify).setCall c
          (.create dto createdAt (.enqueueing entry)))
  | enqueueReply {c : ℕ} {added : Bool} {dto : CreateLogDto} {createdAt : JsDate} {entry : Row}
      (hcall : w.calls c = some (.create dto createdAt (.enqueueing entry)))
      (hup : w.redisUp = true) :
      Step w (.enqueueReply c added)
        ((w.enqueue added entry.id).setCall c (.create dto createdAt (.returned entry)))
  | enqueueThrow {c : ℕ} {dto : CreateLogDto} {createdAt : JsDate} {entry : Row}
      (hcall : w.calls c = some (.create dto createdAt (.enqueueing entry))) :
      Step w (.enqueueThrow c) (w.setCall c (.create dto createdAt (.returned entry)))
  | getLogById {c : ℕ} {id : JsString} (hcall : w.calls c = none) :
      Step w (.getLogById c id) (w.setCall c (.read id .gettingCache))
  | getReply {c : ℕ} {resolved : Bool} {id : JsString} {stage : ReadStage}
      (hcall : w.calls c = some (.read id .gettingCache)) (hup : w.redisUp = true)
      (hstage : w.cacheHit H id resolved = some stage) :
      Step w (.getReply c resolved) (w.setCall c (.read id stage))
  | findById {c : ℕ} {id : JsString} (hcall : w.calls c = some (.read id .findingRow)) :
      Step w (.findById c) (w.setCall c (.read id (w.rowFound id)))
  | setReply {c : ℕ} {stored : Bool} {id : JsString} {row : Row}
      (hcall : w.calls c = some (.read id (.settingCache row))) (hup : w.redisUp = true) :
      Step w (.setReply c stored)
        ((w.store stored (logKey id) row.asEntry.encode).setCall c
          (.read id (.answered (.found row.asEntry (verificationStatus H row.asEntry)))))
  | expire {key : JsString} :
      Step w (.expire key) { w with redis := Function.update w.redis key none }
  | redisDown : Step w .redisDown { w with redisUp := false }
  | redisBack : Step w .redisBack { w with redisUp := true }
  | tamper {edit : Edit} {db : Database} (hdb : w.database.step H (.tamper edit) = some db) :
      Step w (.tamper edit) { w with database := db }

variable {H}

theorem transact_eq_some_iff {w t : World} {e : DatabaseEvent} :
    w.transact H e = some t ↔
      ∃ db, w.database.step H e = some db ∧ { w with database := db } = t :=
  Option.map_eq_some_iff

/-- The step function does what `Step` says. -/
theorem Step.of_step {w t : World} {e : Event} (hstep : w.step H e = some t) :
    Step H w e t := by
  cases e with
  | tick now =>
    cases hstep
    exact .tick
  | createLogEntry c dto =>
    simp only [step] at hstep
    split at hstep <;> cases hstep
    exact .createLogEntry ‹_›
  | lockChainHead c =>
    simp only [step] at hstep
    split at hstep
    case h_1 hcall hhead =>
      obtain ⟨_, htransact, rfl⟩ := Option.map_eq_some_iff.mp hstep
      obtain ⟨db, hdb, rfl⟩ := transact_eq_some_iff.mp htransact
      exact .lockChainHead hcall hdb
    case h_2 hcall hhead =>
      cases hstep
      exact .headMissing hcall hhead
    case h_3 => cases hstep
  | cancel c =>
    simp only [step] at hstep
    split at hstep <;> cases hstep
    exact .cancel ‹_›
  | computeHashes =>
    obtain ⟨db, hdb, rfl⟩ := transact_eq_some_iff.mp hstep
    exact .computeHashes hdb
  | insertEntry id =>
    obtain ⟨db, hdb, rfl⟩ := transact_eq_some_iff.mp hstep
    exact .insertEntry hdb
  | updateChainHead =>
    obtain ⟨db, hdb, rfl⟩ := transact_eq_some_iff.mp hstep
    exact .updateChainHead hdb
  | commit =>
    simp only [step] at hstep
    split at hstep
    case h_1 htx =>
      obtain ⟨_, htransact, rfl⟩ := Option.map_eq_some_iff.mp hstep
      obtain ⟨db, hdb, rfl⟩ := transact_eq_some_iff.mp htransact
      exact .commit htx hdb
    case h_2 => cases hstep
  | rollback =>
    simp only [step] at hstep
    split at hstep
    case h_1 htx =>
      obtain ⟨_, htransact, rfl⟩ := Option.map_eq_some_iff.mp hstep
      obtain ⟨db, hdb, rfl⟩ := transact_eq_some_iff.mp htransact
      exact .rollback htx hdb
    case h_2 => cases hstep
  | setLatestReply c stored =>
    simp only [step] at hstep
    split at hstep <;> cases hstep
    exact .setLatestReply ‹_› ‹_›
  | enqueueReply c added =>
    simp only [step] at hstep
    split at hstep <;> cases hstep
    exact .enqueueReply ‹_› ‹_›
  | enqueueThrow c =>
    simp only [step] at hstep
    split at hstep <;> cases hstep
    exact .enqueueThrow ‹_›
  | getLogById c id =>
    simp only [step] at hstep
    split at hstep <;> cases hstep
    exact .getLogById ‹_›
  | getReply c resolved =>
    simp only [step] at hstep
    split at hstep
    case h_1 hcall hup =>
      obtain ⟨stage, hstage, rfl⟩ := Option.map_eq_some_iff.mp hstep
      exact .getReply hcall hup hstage
    case h_2 => cases hstep
  | findById c =>
    simp only [step] at hstep
    split at hstep <;> cases hstep
    exact .findById ‹_›
  | setReply c stored =>
    simp only [step] at hstep
    split at hstep <;> cases hstep
    exact .setReply ‹_› ‹_›
  | expire key =>
    cases hstep
    exact .expire
  | redisDown =>
    cases hstep
    exact .redisDown
  | redisBack =>
    cases hstep
    exact .redisBack
  | tamper edit =>
    obtain ⟨db, hdb, rfl⟩ := transact_eq_some_iff.mp hstep
    exact .tamper hdb

/-- What `Step` says, the step function does. -/
theorem Step.step_eq {w t : World} {e : Event} (hstep : Step H w e t) :
    w.step H e = some t := by
  cases hstep with
  | tick | expire | redisDown | redisBack => rfl
  | createLogEntry hcall | cancel hcall | enqueueThrow hcall | getLogById hcall | findById hcall =>
    simp only [step, hcall]
  | @lockChainHead c dto createdAt db hcall hdb =>
    cases Database.Step.of_step hdb with
    | lockChainHead hfree hhead => simp only [step, hcall, hhead, transact, hdb, Option.map_some]
  | headMissing hcall hhead => simp only [step, hcall, hhead]
  | computeHashes hdb | insertEntry hdb | updateChainHead hdb | tamper hdb =>
    simp only [step, transact, hdb, Option.map_some]
  | commit htx hdb | rollback htx hdb => simp only [step, htx, transact, hdb, Option.map_some]
  | setLatestReply hcall hup | enqueueReply hcall hup | setReply hcall hup =>
    simp only [step, hcall, hup]
  | getReply hcall hup hstage => simp only [step, hcall, hup, hstage, Option.map_some]

/-! ## Views of a step -/

/-- Every call satisfies `p`. -/
def AllCalls (p : Call → Prop) (w : World) : Prop := ∀ c call, w.calls c = some call → p call

/-- A resumed call does not affect the others. -/
theorem AllCalls.setCall {p : Call → Prop} {w : World} {c : ℕ} {call : Call}
    (hcalls : w.AllCalls p) (hcall : p call) : (w.setCall c call).AllCalls p := by
  intro c' call' hcall'
  by_cases hc : c' = c
  · rw [hc, calls_setCall_self] at hcall'
    exact Option.some.inj hcall' ▸ hcall
  · rw [calls_setCall_of_ne w hc] at hcall'
    exact hcalls c' call' hcall'

theorem AllCalls.store {p : Call → Prop} {w : World} (hcalls : w.AllCalls p) (stored : Bool)
    (key value : JsString) : (w.store stored key value).AllCalls p := by
  rw [AllCalls, calls_store]
  exact hcalls

theorem AllCalls.enqueue {p : Call → Prop} {w : World} (hcalls : w.AllCalls p) (added : Bool)
    (id : JsString) : (w.enqueue added id).AllCalls p := by
  rw [AllCalls, calls_enqueue]
  exact hcalls

/-- The event of the database that an event of the system is, if any. -/
def databaseEvent (w : World) : Event → Option DatabaseEvent
  | .lockChainHead c =>
    match w.calls c with
    | some (.create dto createdAt _) => some (.lockChainHead c dto createdAt)
    | _ => none
  | .computeHashes => some .computeHashes
  | .insertEntry id => some (.insertEntry id)
  | .updateChainHead => some .updateChainHead
  | .commit => some .commit
  | .rollback => some .rollback
  | .tamper edit => some (.tamper edit)
  | _ => none

/-- **The database inside the system.** A step of the system is a step of its
database or leaves it alone. -/
theorem database_of_step {w t : World} {e : Event} (hstep : w.step H e = some t) :
    t.database = w.database ∨
      ∃ e' ∈ w.databaseEvent e, w.database.step H e' = some t.database := by
  cases Step.of_step hstep with
  | lockChainHead hcall hdb => exact .inr ⟨_, by rw [databaseEvent, hcall]; rfl, hdb⟩
  | computeHashes hdb => exact .inr ⟨_, rfl, hdb⟩
  | insertEntry hdb => exact .inr ⟨_, rfl, hdb⟩
  | updateChainHead hdb => exact .inr ⟨_, rfl, hdb⟩
  | commit htx hdb => exact .inr ⟨_, rfl, hdb⟩
  | rollback htx hdb => exact .inr ⟨_, rfl, hdb⟩
  | tamper hdb => exact .inr ⟨_, rfl, hdb⟩
  | setLatestReply | setReply => exact .inl (by simp)
  | enqueueReply => exact .inl (by simp)
  | tick | createLogEntry | headMissing | cancel | enqueueThrow | getLogById | getReply |
      findById | expire | redisDown | redisBack => exact .inl rfl

/-- The table changes by a commit or from outside. -/
theorem entries_of_step {w t : World} {e : Event} (hstep : w.step H e = some t) :
    t.database.entries = w.database.entries ∨
      (e = .commit ∧ ∃ c dto createdAt created,
        w.database.transaction = some ⟨c, dto, createdAt, .headUpdated created⟩ ∧
        t.database.entries = w.database.entries ++ [created]) ∨
      ∃ edit, e = .tamper edit ∧ t.database.entries = edit.apply w.database.entries := by
  rcases database_of_step hstep with hsame | ⟨e', he', hstep'⟩
  · exact .inl (congrArg Database.entries hsame)
  · rcases Database.entries_of_step hstep' with hsame | ⟨rfl, hcommit⟩ | ⟨edit, rfl, hedit⟩
    · exact .inl hsame
    · refine .inr (.inl ⟨?_, hcommit⟩)
      cases e with
      | commit => rfl
      | lockChainHead c =>
        rw [databaseEvent] at he'
        split at he' <;> cases he'
      | _ => cases he'
    · refine .inr (.inr ⟨edit, ?_, hedit⟩)
      cases e with
      | tamper edit' =>
        cases he'
        rfl
      | lockChainHead c =>
        rw [databaseEvent] at he'
        split at he' <;> cases he'
      | _ => cases he'

/-! ## Whose transaction it is -/

/-- The transaction in progress is the one call that waits for it. -/
def Owned (w : World) : Prop :=
  ∀ c dto createdAt, w.calls c = some (.create dto createdAt .transacting) ↔
    ∃ stage, w.database.transaction = some ⟨c, dto, createdAt, stage⟩

theorem owned_start (now : JsDate) : (start now).Owned := by
  simp [Owned, start, Database.initial]

/-- A call that neither waited for a transaction nor starts to. -/
theorem Owned.setCall {w : World} (hw : w.Owned) {c : ℕ} {call : Call}
    (hold : ∀ dto createdAt, w.calls c ≠ some (.create dto createdAt .transacting))
    (hnew : ∀ dto createdAt, call ≠ .create dto createdAt .transacting) :
    (w.setCall c call).Owned := by
  intro c' dto createdAt
  by_cases hc : c' = c
  · subst hc
    rw [calls_setCall_self, Option.some.injEq, database_setCall, ← hw]
    exact iff_of_false (hnew dto createdAt) (hold dto createdAt)
  · rw [calls_setCall_of_ne w hc, database_setCall]
    exact hw c' dto createdAt

/-- Another view of the same calls and the same database. -/
theorem Owned.congr {w t : World} (hw : w.Owned) (hcalls : t.calls = w.calls)
    (hdatabase : t.database = w.database) : t.Owned := by
  rw [Owned, hcalls, hdatabase]
  exact hw

/-- The transaction moves to another stage. -/
theorem Owned.advance {w : World} (hw : w.Owned) {c : ℕ} {dto : CreateLogDto}
    {createdAt : JsDate} {stage stage' : TransactionStage} {db : Database}
    (htx : w.database.transaction = some ⟨c, dto, createdAt, stage⟩)
    (hdb : db.transaction = some ⟨c, dto, createdAt, stage'⟩) :
    ({ w with database := db } : World).Owned := by
  intro c' dto' createdAt'
  rw [hw c' dto' createdAt', hdb, htx]
  simp

/-- The transaction ends and its call goes on. -/
theorem Owned.finish {w : World} (hw : w.Owned) {tx : Transaction} {call : Call} {db : Database}
    (htx : w.database.transaction = some tx) (hdb : db.transaction = none)
    (hnew : ∀ dto createdAt, call ≠ .create dto createdAt .transacting) :
    (World.setCall { w with database := db } tx.caller call).Owned := by
  intro c dto createdAt
  have hnone : ¬ ∃ stage, db.transaction = some ⟨c, dto, createdAt, stage⟩ := by
    simp [hdb]
  by_cases hc : c = tx.caller
  · subst hc
    rw [calls_setCall_self, Option.some.injEq]
    exact iff_of_false (hnew dto createdAt) hnone
  · rw [calls_setCall_of_ne _ hc]
    refine iff_of_false (fun hcall => ?_) hnone
    obtain ⟨stage, hstage⟩ := (hw c dto createdAt).mp hcall
    rw [htx] at hstage
    cases hstage
    exact hc rfl

theorem Owned.of_step {w t : World} {e : Event} (hw : w.Owned) (hstep : w.step H e = some t) :
    t.Owned := by
  cases Step.of_step hstep with
  | tick | expire | redisDown | redisBack => exact hw.congr rfl rfl
  | createLogEntry hcall | getLogById hcall => exact hw.setCall (by simp [hcall]) (by simp)
  | @lockChainHead c dto createdAt db hcall hdb =>
    cases Database.Step.of_step hdb with
    | lockChainHead hfree hhead =>
      intro c' dto' createdAt'
      by_cases hc : c' = c
      · subst hc
        rw [calls_setCall_self]
        simp
      · rw [calls_setCall_of_ne _ hc]
        refine iff_of_false (fun hcall' => ?_) (by simp [Ne.symm hc])
        obtain ⟨stage, hstage⟩ := (hw c' dto' createdAt').mp hcall'
        rw [hfree] at hstage
        cases hstage
  | headMissing hcall | cancel hcall | enqueueThrow hcall =>
    exact hw.setCall (by simp [hcall]) (by simp)
  | getReply hcall | findById hcall => exact hw.setCall (by simp [hcall]) (by simp)
  | computeHashes hdb | insertEntry hdb | updateChainHead hdb =>
    obtain ⟨_, _, htx, _, rfl⟩ := Database.advance_eq_some_iff.mp hdb
    exact hw.advance htx rfl
  | commit htx hdb =>
    cases Database.Step.of_step hdb with
    | commit => exact hw.finish htx rfl (by simp)
  | rollback htx hdb =>
    cases Database.Step.of_step hdb with
    | rollback => exact hw.finish htx rfl (by simp)
  | setLatestReply hcall | setReply hcall =>
    exact (hw.congr (calls_store ..) (database_store ..)).setCall (by simp [hcall]) (by simp)
  | enqueueReply hcall =>
    exact (hw.congr (calls_enqueue ..) (database_enqueue ..)).setCall (by simp [hcall]) (by simp)
  | tamper hdb =>
    cases Database.Step.of_step hdb with
    | tamper => exact hw

theorem owned_of_run {allowed : World → Event → Prop} {now : JsDate} {events : List Event}
    {w : World} (hrun : Run (step H) allowed (start now) events w) : w.Owned :=
  hrun.invariant (owned_start now) fun _ _ _ _ hstep hs => hs.of_step hstep

/-! ## What happens to one call -/

/-- A step that resumes call `c` makes this of it. -/
inductive Resumes (H : Digest) (w : World) (c : ℕ) : Event → Call → Prop
  | createLogEntry {dto : CreateLogDto} (hcall : w.calls c = none) :
      Resumes H w c (.createLogEntry c dto) (.create dto w.now .waiting)
  | lockChainHead {dto : CreateLogDto} {createdAt : JsDate}
      (hcall : w.calls c = some (.create dto createdAt .waiting)) :
      Resumes H w c (.lockChainHead c) (.create dto createdAt .transacting)
  | headMissing {dto : CreateLogDto} {createdAt : JsDate}
      (hcall : w.calls c = some (.create dto createdAt .waiting)) :
      Resumes H w c (.lockChainHead c) (.create dto createdAt .rejected)
  | cancel {dto : CreateLogDto} {createdAt : JsDate}
      (hcall : w.calls c = some (.create dto createdAt .waiting)) :
      Resumes H w c (.cancel c) (.create dto createdAt .rejected)
  | commit {dto : CreateLogDto} {createdAt : JsDate} {created : Row}
      (hcall : w.calls c = some (.create dto createdAt .transacting))
      (htx : w.database.transaction = some ⟨c, dto, createdAt, .headUpdated created⟩) :
      Resumes H w c .commit (.create dto createdAt (.settingLatest created.readBack))
  | rollback {dto : CreateLogDto} {createdAt : JsDate}
      (hcall : w.calls c = some (.create dto createdAt .transacting)) :
      Resumes H w c .rollback (.create dto createdAt .rejected)
  | setLatestReply {stored : Bool} {dto : CreateLogDto} {createdAt : JsDate} {entry : Row}
      (hcall : w.calls c = some (.create dto createdAt (.settingLatest entry)))
      (hup : w.redisUp = true) :
      Resumes H w c (.setLatestReply c stored) (.create dto createdAt (.enqueueing entry))
  | enqueueReply {added : Bool} {dto : CreateLogDto} {createdAt : JsDate} {entry : Row}
      (hcall : w.calls c = some (.create dto createdAt (.enqueueing entry)))
      (hup : w.redisUp = true) :
      Resumes H w c (.enqueueReply c added) (.create dto createdAt (.returned entry))
  | enqueueThrow {dto : CreateLogDto} {createdAt : JsDate} {entry : Row}
      (hcall : w.calls c = some (.create dto createdAt (.enqueueing entry))) :
      Resumes H w c (.enqueueThrow c) (.create dto createdAt (.returned entry))
  | getLogById {id : JsString} (hcall : w.calls c = none) :
      Resumes H w c (.getLogById c id) (.read id .gettingCache)
  | getReply {resolved : Bool} {id : JsString} {stage : ReadStage}
      (hcall : w.calls c = some (.read id .gettingCache)) (hup : w.redisUp = true)
      (hstage : w.cacheHit H id resolved = some stage) :
      Resumes H w c (.getReply c resolved) (.read id stage)
  | findById {id : JsString} (hcall : w.calls c = some (.read id .findingRow)) :
      Resumes H w c (.findById c) (.read id (w.rowFound id))
  | setReply {stored : Bool} {id : JsString} {row : Row}
      (hcall : w.calls c = some (.read id (.settingCache row))) (hup : w.redisUp = true) :
      Resumes H w c (.setReply c stored)
        (.read id (.answered (.found row.asEntry (verificationStatus H row.asEntry))))

/-- **One call in the system.** A step leaves a call alone or resumes it. -/
theorem call_of_step {w t : World} {e : Event} (hw : w.Owned) (hstep : w.step H e = some t)
    (c : ℕ) : t.calls c = w.calls c ∨ ∃ call, w.Resumes H c e call ∧ t.calls c = some call := by
  have hset {s : World} {c' : ℕ} {call : Call} (hcalls : s.calls = w.calls)
      (hresumes : w.Resumes H c' e call) :
      (s.setCall c' call).calls c = w.calls c ∨
        ∃ call', w.Resumes H c e call' ∧ (s.setCall c' call).calls c = some call' := by
    by_cases hc : c = c'
    · subst hc
      exact .inr ⟨call, hresumes, calls_setCall_self ..⟩
    · rw [calls_setCall_of_ne s hc, hcalls]
      exact .inl rfl
  cases Step.of_step hstep with
  | tick | computeHashes | insertEntry | updateChainHead | expire | redisDown | redisBack |
      tamper => exact .inl rfl
  | createLogEntry hcall => exact hset rfl (.createLogEntry hcall)
  | lockChainHead hcall => exact hset rfl (.lockChainHead hcall)
  | headMissing hcall => exact hset rfl (.headMissing hcall)
  | cancel hcall => exact hset rfl (.cancel hcall)
  | commit htx => exact hset rfl (.commit ((hw _ _ _).mpr ⟨_, htx⟩) htx)
  | rollback htx => exact hset rfl (.rollback ((hw _ _ _).mpr ⟨_, htx⟩))
  | setLatestReply hcall hup => exact hset (calls_store ..) (.setLatestReply hcall hup)
  | enqueueReply hcall hup => exact hset (calls_enqueue ..) (.enqueueReply hcall hup)
  | enqueueThrow hcall => exact hset rfl (.enqueueThrow hcall)
  | getLogById hcall => exact hset rfl (.getLogById hcall)
  | getReply hcall hup hstage => exact hset rfl (.getReply hcall hup hstage)
  | findById hcall => exact hset rfl (.findById hcall)
  | setReply hcall hup => exact hset (calls_store ..) (.setReply hcall hup)

/-- Redis is reachable as before, unless it goes away or comes back. -/
theorem redisUp_of_step {w t : World} {e : Event} (hstep : w.step H e = some t) :
    t.redisUp = w.redisUp ∨ (e = .redisDown ∧ t.redisUp = false) ∨
      (e = .redisBack ∧ t.redisUp = true) := by
  cases Step.of_step hstep with
  | redisDown => exact .inr (.inl ⟨rfl, rfl⟩)
  | redisBack => exact .inr (.inr ⟨rfl, rfl⟩)
  | setLatestReply | setReply | enqueueReply => exact .inl (by simp)
  | _ => exact .inl rfl

end World

end TamperEvidentLog.Service
