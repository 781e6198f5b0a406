/-
# What becomes of a POST

The bounds of `CreateLogSchema` keep within the columns, but nothing in front of
the table looks at characters. So a body that passes validation may still be one
that a column refuses. Its transaction gets as far as the `INSERT` and can then
only roll back: nothing of it is stored, and the client is told `500`.

Whatever else passes validation can be stored, and is, unless its transaction is
given up for another reason. Such reasons are not told apart here: a lost
connection is one, a payload nested too deeply for `JSON.stringify` is another.
-/

import TamperEvidentLog.Service.AppReads
import TamperEvidentLog.Service.CreateOutcome

namespace TamperEvidentLog.Service

open TamperEvidentLog.Text TamperEvidentLog.Time TamperEvidentLog.Crypto
open TamperEvidentLog.Protocol

variable {H : Digest} {apiKey : JsString}

/-! ## What the columns took -/

/-- What the call has committed, the columns took. -/
def Call.Taken : Call → Prop
  | create dto _ stage => stage.entry?.isSome = true → dto.Storable
  | read _ _ => True

/-- A call that has committed nothing. -/
theorem Call.taken_of_none {dto : CreateLogDto} {createdAt : JsDate} {stage : CreateStage}
    (hnone : stage.entry? = none) : (create dto createdAt stage).Taken := by
  simp [Taken, hnone]

namespace World

/-- The columns took whatever has been inserted or committed. -/
structure Taken (w : World) : Prop where
  /-- What the transaction in progress has inserted. -/
  inserted : ∀ tx ∈ w.database.transaction, tx.stage.created?.isSome = true → tx.dto.Storable
  /-- What the calls have committed. -/
  committed : w.AllCalls Call.Taken

theorem taken_start (now : JsDate) : (start now).Taken := by
  constructor <;> simp [start, Database.initial, AllCalls]

/-- Nothing is known of a transaction that has inserted nothing. -/
theorem Taken.transact {w : World} (hw : w.Taken) {db : Database}
    (hinserted : ∀ tx ∈ db.transaction, tx.stage.created?.isSome = true → tx.dto.Storable) :
    Taken { w with database := db } :=
  ⟨hinserted, hw.committed⟩

/-- A call that goes on. -/
theorem Taken.setCall {w : World} (hw : w.Taken) {c : ℕ} {call : Call} (hcall : call.Taken) :
    (w.setCall c call).Taken :=
  ⟨hw.inserted, hw.committed.setCall hcall⟩

/-- A call that has committed goes on with its entry. -/
theorem Taken.resume {w s : World} (hw : w.Taken) (hdatabase : s.database = w.database)
    (hcalls : s.calls = w.calls) {c : ℕ} {call : Call} (hcall : call.Taken) :
    (s.setCall c call).Taken := by
  refine Taken.setCall ⟨?_, ?_⟩ hcall
  · rw [hdatabase]
    exact hw.inserted
  · rw [AllCalls, hcalls]
    exact hw.committed

theorem Taken.of_step {w t : World} {e : Event} (hw : w.Taken) (hstep : w.step H e = some t) :
    t.Taken := by
  cases Step.of_step hstep with
  | tick | expire | redisDown | redisBack => exact ⟨hw.inserted, hw.committed⟩
  | createLogEntry | headMissing | cancel => exact hw.setCall (Call.taken_of_none rfl)
  | getLogById | getReply | findById => exact hw.setCall trivial
  | lockChainHead hcall hdb =>
    cases Database.Step.of_step hdb with
    | lockChainHead =>
      refine Taken.setCall (hw.transact ?_) (Call.taken_of_none rfl)
      simp [TransactionStage.created?]
  | computeHashes hdb =>
    cases Database.Step.of_step hdb with
    | computeHashes => exact hw.transact (by simp [TransactionStage.created?])
  | insertEntry hdb =>
    cases Database.Step.of_step hdb with
    | insertEntry htx hstorable => exact hw.transact (by simp [hstorable])
  | updateChainHead hdb =>
    cases Database.Step.of_step hdb with
    | updateChainHead htx =>
      have hstorable := hw.inserted _ htx rfl
      exact hw.transact (by simp [hstorable])
  | commit htx hdb =>
    have hstorable := hw.inserted _ htx rfl
    cases Database.Step.of_step hdb with
    | commit => exact Taken.setCall (hw.transact (by simp)) fun _ => hstorable
  | rollback htx hdb =>
    cases Database.Step.of_step hdb with
    | rollback => exact Taken.setCall (hw.transact (by simp)) (Call.taken_of_none rfl)
  | setLatestReply hcall =>
    exact hw.resume (database_store ..) (calls_store ..) fun _ => hw.committed _ _ hcall rfl
  | enqueueReply hcall =>
    exact hw.resume (database_enqueue ..) (calls_enqueue ..) fun _ => hw.committed _ _ hcall rfl
  | enqueueThrow hcall => exact hw.setCall fun _ => hw.committed _ _ hcall rfl
  | setReply => exact hw.resume (database_store ..) (calls_store ..) trivial
  | tamper hdb =>
    cases Database.Step.of_step hdb with
    | tamper => exact hw.transact hw.inserted

/-- **The run.** Nothing is in a transaction or has been committed but what the
columns took. -/
theorem taken_of_run {allowed : World → Event → Prop} {now : JsDate} {events : List Event}
    {w : World} (hrun : Run (step H) allowed (start now) events w) : w.Taken :=
  hrun.invariant (taken_start now) fun _ _ _ _ hstep hs => hs.of_step hstep

/-! ## Why a call rejects -/

/-- The event gives call `c` up, before it has the lock or with its
transaction. -/
def Aborts (c : ℕ) (w : World) (e : Event) : Prop :=
  e = .cancel c ∨ e = .rollback ∧ ∃ tx ∈ w.database.transaction, tx.caller = c

/-- A call rejects because it was given up: `chain_head` is always there. -/
theorem aborted_of_run {allowed : World → Event → Prop} {now : JsDate} {events : List Event}
    {w : World} (hrun : Run (step H) allowed (start now) events w) {c : ℕ} {dto : CreateLogDto}
    {createdAt : JsDate} (hcall : w.calls c = some (.create dto createdAt .rejected)) :
    Run.Occurred (step H) allowed (start now) events (Aborts c) := by
  induction hrun with
  | nil => cases hcall
  | @snoc events s t e prior hallowed hstep ih =>
    have howned := owned_of_run prior
    rcases call_of_step howned hstep c with hsame | ⟨call, hresumes, hcall'⟩
    · exact (ih (hsame.symm.trans hcall)).append [e]
    · cases hcall'.symm.trans hcall
      cases hresumes with
      | headMissing hwaiting =>
        have hhead := (showing_of_run prior).head
        cases Step.of_step hstep with
        | lockChainHead =>
          rw [calls_setCall_self] at hcall
          cases hcall
        | headMissing _ hmissing => cases hhead.symm.trans hmissing
      | cancel => exact Run.occurred_now prior (.inl rfl)
      | rollback htransacting =>
        obtain ⟨stage, htx⟩ := (howned _ _ _).mp htransacting
        exact Run.occurred_now prior (.inr ⟨rfl, _, htx, rfl⟩)

/-! ## A call that nothing disturbs -/

/-- The event starts no call and is no query of a read. -/
def Inner (_ : World) (e : Event) : Prop := started? e = none ∧ ∀ c, e ≠ .findById c

/-- A call that waits for a free lock can commit and return what the columns take,
unless its hash is taken. -/
theorem exists_returned {w : World} {c : ℕ} {dto : CreateLogDto} {createdAt : JsDate}
    {head : ChainHead} (hcall : w.calls c = some (.create dto createdAt .waiting))
    (hup : w.redisUp = true) (hfree : w.database.transaction = none)
    (hhead : w.database.chainHead = some head) (hstorable : dto.Storable)
    (hhash : (Service.computeHashes H head.latestHash dto createdAt).2 ∉
      w.database.entries.map LogEntry.currentHash) :
    ∃ events t row, Run (step H) Inner w events t ∧
      t.calls c = some (.create dto createdAt (.returned row)) := by
  obtain ⟨id, hid⟩ := Infinite.exists_notMem_finset (w.database.entries.map LogEntry.id).toFinset
  rw [List.mem_toFinset] at hid
  let hashes := Service.computeHashes H head.latestHash dto createdAt
  let created := newRow id dto createdAt hashes
  let locked : World := setCall { w with
    database := { w.database with
      transaction := some ⟨c, dto, createdAt, .locked head.latestHash⟩ } } c
    (.create dto createdAt .transacting)
  let hashed : World := { locked with
    database := { w.database with transaction := some ⟨c, dto, createdAt, .hashed hashes⟩ } }
  let inserted : World := { locked with
    database := { w.database with transaction := some ⟨c, dto, createdAt, .inserted created⟩ } }
  let updated : World := { locked with
    database := { w.database with transaction := some ⟨c, dto, createdAt, .headUpdated created⟩ } }
  let committed : World := setCall { updated with
    database := ⟨w.database.entries ++ [created], some ⟨created.currentHash, some created.id⟩,
      none⟩ } c (.create dto createdAt (.settingLatest created.readBack))
  let set : World := (committed.store true latestLogKey
    (latestSummary created.readBack).stringify).setCall c
      (.create dto createdAt (.enqueueing created.readBack))
  have hlock : Step H w (.lockChainHead c) locked :=
    .lockChainHead hcall (Database.Step.step_eq (.lockChainHead hfree hhead))
  have hcompute : Step H locked .computeHashes hashed :=
    .computeHashes (Database.Step.step_eq (.computeHashes rfl))
  have hinsert : Step H hashed (.insertEntry id) inserted :=
    .insertEntry (Database.Step.step_eq (.insertEntry rfl hstorable hid hhash))
  have hupdate : Step H inserted .updateChainHead updated :=
    .updateChainHead (Database.Step.step_eq (.updateChainHead rfl))
  have hcommit : Step H updated .commit committed :=
    .commit rfl (Database.Step.step_eq (.commit rfl))
  have hset : Step H committed (.setLatestReply c true) set :=
    .setLatestReply (calls_setCall_self ..) hup
  have hup' : set.redisUp = true := by
    rw [redisUp_setCall, redisUp_store]
    exact hup
  have hreturn : Step H set (.enqueueReply c true) _ := .enqueueReply (calls_setCall_self ..) hup'
  refine ⟨_, _, created.readBack, ((((((Run.single ?_ hlock.step_eq).snoc ?_ hcompute.step_eq).snoc
    ?_ hinsert.step_eq).snoc ?_ hupdate.step_eq).snoc ?_ hcommit.step_eq).snoc ?_
      hset.step_eq).snoc ?_ hreturn.step_eq, calls_setCall_self ..⟩
  all_goals exact ⟨rfl, fun _ => Event.noConfusion⟩

end World

/-! ## Requests that are let in -/

/-- A `POST /api/log` with this body that passes the key check. -/
structure Request.Posts (apiKey : JsString) (body : JsonValue) (request : Request) : Prop where
  /-- The route. -/
  route : request.route = .createLog
  /-- The key. -/
  key : requireApiKey apiKey request.apiKey = .next ()
  /-- The body. -/
  body : request.body = some body

/-- If the rate limiter lets it pass too, it gets to its route. -/
theorem Request.Posts.admission_eq {body : JsonValue} {request : Request}
    (hposts : request.Posts apiKey body) :
    request.admission apiKey false = Route.createLog.handle body := by
  simp [admission, hposts.body, hposts.route, Route.isApi, hposts.key]

/-- A call that has committed nothing has appended nothing. -/
theorem Call.operation_eq_none {dto : CreateLogDto} {createdAt : JsDate} {stage : CreateStage}
    (hnone : stage.entry? = none) : (create dto createdAt stage).operation H = none := by
  cases stage with
  | waiting | transacting | rejected => rfl
  | settingLatest | enqueueing | returned => cases hnone

/-- A `createLogEntry` ends with its entry or rejects. -/
theorem Call.response?_create {dto : CreateLogDto} {createdAt : JsDate} {stage : CreateStage}
    {response : Response} (hresponse : (create dto createdAt stage).response? = some response) :
    (∃ row, stage = .returned row ∧ response = Response.created row.asEntry.toJson.json) ∨
      stage = .rejected ∧ response = Response.globalErrorHandler := by
  cases stage with
  | returned row => exact .inl ⟨row, rfl, (Option.some.inj hresponse).symm⟩
  | rejected => exact .inr ⟨rfl, (Option.some.inj hresponse).symm⟩
  | waiting | transacting | settingLatest | enqueueing => cases hresponse

/-- The call of a `POST /api/log`. -/
theorem Call.exists_of_admission {call : Call} {dto : CreateLogDto}
    (hadmission : call.admission = .createLogEntry dto) :
    ∃ createdAt stage, call = .create dto createdAt stage := by
  cases call with
  | create dto' createdAt stage =>
    cases hadmission
    exact ⟨createdAt, stage, rfl⟩
  | read => cases hadmission

namespace App

/-- What becomes of exchange `n` once validation has made `dto` of its body. -/
structure Outcome (H : Digest) (apiKey : JsString) (now : JsDate) (events : List AppEvent)
    (app : App) (n : ℕ) (exchange : Exchange) (dto : CreateLogDto) : Prop where
  /-- Keys apart, the `INSERT` of its transaction succeeds exactly when the columns take the
  request. -/
  inserts : ∀ dto' createdAt hashes,
    app.world.database.transaction = some ⟨n, dto', createdAt, .hashed hashes⟩ →
    ∀ id ∉ app.world.database.entries.map LogEntry.id,
      hashes.2 ∉ app.world.database.entries.map LogEntry.currentHash →
      ((app.step H apiKey (.world (.insertEntry id))).isSome = true ↔ dto.Storable)
  /-- What the columns do not take is not committed, and no answer but `500` is given. -/
  refused : ¬ dto.Storable → app.world.operation H n = none ∧
    ∀ response, exchange.stage = .answered response → response = Response.globalErrorHandler
  /-- The answer is the entry that was committed, or the call was given up. -/
  answered : ∀ response, exchange.stage = .answered response →
    (∃ createdAt row, app.world.calls n = some (.create dto createdAt (.returned row)) ∧
      response = Response.created row.asEntry.toJson.json) ∨
    (response = Response.globalErrorHandler ∧
      Run.Occurred (World.step H) (fun _ _ => True) (World.start now)
        (events.filterMap (toWorld apiKey)) (World.Aborts n))

/-- The call that an exchange was let in for. -/
theorem Coupled.exists_call {app : App} (happ : app.Coupled H apiKey) {n : ℕ}
    {exchange : Exchange} {dto : CreateLogDto} (hexchange : app.exchanges n = some exchange)
    (hadmission : exchange.admission apiKey = .createLogEntry dto) :
    ∃ createdAt stage, app.world.calls n = some (.create dto createdAt stage) ∧
      ∀ response, exchange.stage = .answered response →
        (Call.create dto createdAt stage).response? = some response := by
  have hfits := (happ.paired n).fits exchange hexchange
  rw [hadmission] at hfits
  have hcalled {call : Call} (hcall : app.world.calls n = some call) :
      call.admission = .createLogEntry dto := by
    obtain ⟨exchange', hexchange', hsame⟩ := (happ.paired n).called call hcall
    cases hexchange.symm.trans hexchange'
    exact hsame.symm.trans hadmission
  cases hstage : exchange.stage with
  | answered response =>
    rw [hstage] at hfits
    obtain ⟨call, hcall, hresponse⟩ := hfits.exists_response
    obtain ⟨createdAt, stage, rfl⟩ := Call.exists_of_admission (hcalled hcall)
    refine ⟨createdAt, stage, hcall, ?_⟩
    rintro _ ⟨rfl⟩
    exact hresponse
  | calling =>
    rw [hstage] at hfits
    obtain ⟨call, hcall, _⟩ := hfits.exists_call
    obtain ⟨createdAt, stage, rfl⟩ := Call.exists_of_admission (hcalled hcall)
    exact ⟨createdAt, stage, hcall, by simp⟩
  | listing | verifying | exporting | probing =>
    rw [hstage] at hfits
    cases hfits

/-- An `INSERT` succeeds only if the columns take the request. -/
theorem storable_of_insertEntry {app t : App} {id : JsString}
    (hstep : app.step H apiKey (.world (.insertEntry id)) = some t) {tx : Transaction}
    (htx : app.world.database.transaction = some tx) : tx.dto.Storable := by
  cases Step.of_step hstep with
  | world _ _ hworld =>
    cases World.Step.of_step hworld with
    | insertEntry hdb =>
      cases Database.Step.of_step hdb with
      | insertEntry htx' hstorable =>
        cases htx.symm.trans htx'
        exact hstorable

/-- Keys apart, an `INSERT` succeeds exactly when the columns take the request. -/
theorem isSome_insertEntry_iff {app : App} {n : ℕ} {dto : CreateLogDto} {createdAt : JsDate}
    {hashes : JsString × JsString}
    (htx : app.world.database.transaction = some ⟨n, dto, createdAt, .hashed hashes⟩)
    {id : JsString} (hid : id ∉ app.world.database.entries.map LogEntry.id)
    (hhash : hashes.2 ∉ app.world.database.entries.map LogEntry.currentHash) :
    (app.step H apiKey (.world (.insertEntry id))).isSome = true ↔ dto.Storable := by
  constructor
  · intro hinserted
    obtain ⟨t, hstep⟩ := Option.isSome_iff_exists.mp hinserted
    exact storable_of_insertEntry hstep htx
  · intro hstorable
    have hinsert : Step H apiKey app (.world (.insertEntry id)) _ := .world rfl rfl
      (World.Step.step_eq (.insertEntry (Database.Step.step_eq
        (.insertEntry htx hstorable hid hhash))))
    rw [hinsert.step_eq, Option.isSome_some]

/-- **In every run** a request that passed validation comes to one of its two ends. -/
theorem outcome_of_run {allowed : App → AppEvent → Prop} {now : JsDate} {events : List AppEvent}
    {app : App} (hrun : Run (step H apiKey) allowed (start now) events app) {n : ℕ}
    {exchange : Exchange} {dto : CreateLogDto} (hexchange : app.exchanges n = some exchange)
    (hadmission : exchange.admission apiKey = .createLogEntry dto) :
    Outcome H apiKey now events app n exchange dto := by
  have happ := coupled_of_run hrun
  have hworld : Run (World.step H) (fun _ _ => True) (World.start now)
      (events.filterMap (toWorld apiKey)) app.world :=
    world_of_run hrun fun _ _ _ _ _ => trivial
  obtain ⟨createdAt, stage, hcall, hresponse⟩ := happ.exists_call hexchange hadmission
  refine ⟨?_, fun hrefused => ?_, fun response hanswered => ?_⟩
  · intro dto' createdAt' hashes htx id hid hhash
    have howner := (happ.owned n dto' createdAt').mpr ⟨_, htx⟩
    cases hcall.symm.trans howner
    exact isSome_insertEntry_iff htx hid hhash
  · have hnone : stage.entry? = none := by
      by_contra hsome
      have htaken := (World.taken_of_run hworld).committed n _ hcall
      exact hrefused (htaken (Option.isSome_iff_ne_none.mpr hsome))
    constructor
    · rw [World.operation, hcall, Option.bind_some, Call.operation_eq_none hnone]
    · intro response hanswered
      rcases Call.response?_create (hresponse response hanswered) with ⟨_, rfl, _⟩ | ⟨_, hfailed⟩
      · cases hnone
      · exact hfailed
  · rcases Call.response?_create (hresponse response hanswered) with
      ⟨row, rfl, hcreated⟩ | ⟨rfl, hfailed⟩
    · exact .inl ⟨createdAt, row, hcall, hcreated⟩
    · exact .inr ⟨hfailed, World.aborted_of_run hworld hcall⟩

/-! ## A request that nothing disturbs -/

/-- What the calls do among themselves the application does. -/
theorem run_of_world {app : App} {events : List Event} {w : World}
    (hrun : Run (World.step H) World.Inner app.world events w) :
    Run (step H apiKey) (fun _ _ => True) app (events.map .world) { app with world := w } := by
  induction hrun with
  | nil => exact Run.nil
  | @snoc events s t e _ hquiet hstep ih =>
    rw [List.map_append, List.map_singleton]
    have hthrown : hasThrown { app with world := s } e = false := by
      cases e with
      | findById c => exact absurd rfl (hquiet.2 c)
      | _ => rfl
    have hnext : Step H apiKey { app with world := s } (.world e) { app with world := t } :=
      .world hquiet.1 hthrown hstep
    exact ih.snoc trivial hnext.step_eq

/-- A request that the columns take can be answered with `201`. -/
theorem exists_created {request : Request} {dto : CreateLogDto}
    (hadmission : request.admission apiKey false = .createLogEntry dto)
    (hstorable : dto.Storable) (now : JsDate) (n : ℕ) :
    ∃ events app, Run (step H apiKey) (fun _ _ => True) (start now)
      (.receive n request false :: events) app ∧ app.statusCode? n = some HttpStatus.created := by
  let w := (World.start now).setCall n (.create dto now .waiting)
  let exchange : Exchange := ⟨request, false, .calling⟩
  let arrived : App := setStage { start now with world := w } n exchange .calling
  have hstart : startEvent n (request.admission apiKey false) = some (.createLogEntry n dto) := by
    rw [hadmission]
    rfl
  have hstage : firstStage now (request.admission apiKey false) = .calling := by
    rw [hadmission]
    rfl
  have hcall : Step H apiKey (start now) (.receive n request false)
      (setStage { start now with world := w } n
        ⟨request, false, firstStage now (request.admission apiKey false)⟩
        (firstStage now (request.admission apiKey false))) :=
    .started rfl hstart (World.Step.step_eq (.createLogEntry rfl))
  have hreceive : Step H apiKey (start now) (.receive n request false) arrived := by
    rw [hstage] at hcall
    exact hcall
  obtain ⟨events, t, row, hworld, hcall⟩ := World.exists_returned (H := H) (w := w)
    (World.calls_setCall_self ..) rfl rfl rfl hstorable (by simp [w, World.start, Database.initial])
  have hcalls : Run (step H apiKey) (fun _ _ => True) arrived (events.map .world)
      { arrived with world := t } := run_of_world hworld
  have hrespond : Step H apiKey { arrived with world := t } (.respond n) _ :=
    .respond (exchanges_setStage_self ..) hcall rfl
  refine ⟨_, _, (Run.single trivial hreceive.step_eq).append
    (hcalls.snoc trivial hrespond.step_eq), ?_⟩
  rw [statusCode?, exchanges_setStage_self]
  rfl

/-! ## Accepted and stored -/

/-- **What validation leaves to the columns.** A `POST /api/log` that the rate
limiter and the key check let through is answered 422, or its body fits the
columns in its lengths. Then the columns take it exactly when no string or key of
it has U+0000 or an unpaired surrogate; that is when it can be answered with
`201`, and in every run it comes to the one end or the other. Of a payload that is
nested too deeply for `JSON.stringify` only the second end is left: the transaction
throws and is rolled back. -/
theorem createLog_spec {body : JsonValue} {request : Request}
    (hposts : request.Posts apiKey body) (now : JsDate) :
    (∃ response, validateBody body = .answered response ∧
        request.admission apiKey false = .answered response ∧
        response.statusCode = HttpStatus.unprocessableEntity) ∨
      ∃ dto, validateBody body = .next dto ∧
        (codePoints dto.actor ≤ 255 ∧ codePoints dto.action ≤ 500) ∧
        (dto.Storable ↔ ∀ s ∈ dto.texts, isColumnText s = true) ∧
        (∀ n, dto.Storable ↔ ∃ events app, Run (step H apiKey) (fun _ _ => True) (start now)
          (.receive n request false :: events) app ∧
            app.statusCode? n = some HttpStatus.created) ∧
        ∀ allowed events app n exchange,
          Run (step H apiKey) allowed (start now) events app →
          app.exchanges n = some exchange → exchange.request = request →
          exchange.limited = false → Outcome H apiKey now events app n exchange dto := by
  cases hparsed : CreateLogSchema.safeParse body with
  | error issues =>
    have hhandled : validateBody body = .answered ⟨HttpStatus.unprocessableEntity,
        .object [(js "error", .string (js "Validation Error")),
          (js "details", issueDetails issues)]⟩ := by
      rw [validateBody, hparsed]
    refine .inl ⟨_, hhandled, ?_, rfl⟩
    rw [hposts.admission_eq, Route.handle, hhandled]
  | ok dto =>
    have hhandled : validateBody body = .next dto := by
      rw [validateBody, hparsed]
    have hadmission : request.admission apiKey false = .createLogEntry dto := by
      rw [hposts.admission_eq, Route.handle, hhandled]
    refine .inr ⟨dto, hhandled, CreateLogSchema.codePoints_of_safeParse hparsed,
      CreateLogSchema.storable_iff hparsed, fun n => ?_, ?_⟩
    · constructor
      · intro hstorable
        exact exists_created hadmission hstorable now n
      · rintro ⟨events, app, hrun, hcode⟩
        obtain ⟨exchange, response, hexchange, hstage, hstatus⟩ := exists_answered hcode
        have hsame := admission_of_run hrun hexchange
        by_contra hrefused
        have houtcome := outcome_of_run hrun hexchange (hsame.trans hadmission)
        rw [(houtcome.refused hrefused).2 response hstage] at hstatus
        cases hstatus
    · intro allowed events app n exchange hrun hexchange hrequest hlimited
      refine outcome_of_run hrun hexchange ?_
      rw [Exchange.admission, hrequest, hlimited, hadmission]

/-- The body `{"actor":"\u0000","action":"login"}`. -/
def nulActor : JsonValue where
  json := .object [(js "actor", .string [0]), (js "action", .string (js "login"))]
  uniqueKeys_json := by decide

/-- A `POST /api/log` with this body. -/
def nulRequest : Request := { postRequest (some (js "key")) with body := some nulActor }

theorem validateBody_nulActor :
    validateBody nulActor = .next ⟨[0], js "login", JsonValue.null⟩ := rfl

/-- Both bodies are accepted; one of them can be stored, the other cannot. -/
theorem createLog_spec_of_two :
    (∃ events app, Run (step sha256 (js "key")) (fun _ _ => True) (start JsDate.epoch)
      (.receive 0 (postRequest (some (js "key"))) false :: events) app ∧
        app.statusCode? 0 = some 201) ∧
    ¬ ∃ events app, Run (step sha256 (js "key")) (fun _ _ => True) (start JsDate.epoch)
      (.receive 0 nulRequest false :: events) app ∧ app.statusCode? 0 = some 201 := by
  obtain ⟨body, hposts, haccepted⟩ : ∃ body,
      (postRequest (some (js "key"))).Posts (js "key") body ∧
        validateBody body = .next ⟨js "alice", js "login", JsonValue.null⟩ :=
    ⟨_, ⟨rfl, rfl, rfl⟩, rfl⟩
  have hnul : nulRequest.Posts (js "key") nulActor := ⟨rfl, rfl, rfl⟩
  constructor
  · rcases createLog_spec (H := sha256) hposts JsDate.epoch with
      ⟨_, hanswered, _⟩ | ⟨dto, hnext, _, _, hstored, _⟩
    · cases haccepted.symm.trans hanswered
    · cases haccepted.symm.trans hnext
      exact (hstored 0).mp (by decide)
  · rcases createLog_spec (H := sha256) hnul JsDate.epoch with
      ⟨_, hanswered, _⟩ | ⟨dto, hnext, _, _, hstored, _⟩
    · cases validateBody_nulActor.symm.trans hanswered
    · cases validateBody_nulActor.symm.trans hnext
      exact fun hcreated => absurd ((hstored 0).mpr hcreated) (by decide)

/-- The request of `nulActor` up to its `INSERT`. -/
def nulEvents : List AppEvent :=
  [.receive 0 nulRequest false, .world (.lockChainHead 0), .world .computeHashes]

/-- Not all that validation accepts is storable: the `INSERT` for this body is
refused, the transaction rolls back and the answer is `500`. -/
theorem not_storable_nulActor :
    (¬ ∀ body dto, validateBody body = .next dto → dto.Storable) ∧
      ∃ s app, Run (step sha256 (js "key")) (fun _ _ => True) (start JsDate.epoch) nulEvents s ∧
        (∀ id, s.step sha256 (js "key") (.world (.insertEntry id)) = none) ∧
        Run (step sha256 (js "key")) (fun _ _ => True) s [.world .rollback, .respond 0] app ∧
        app.statusCode? 0 = some 500 := by
  have hrefused : ¬ (⟨[0], js "login", JsonValue.null⟩ : CreateLogDto).Storable := by decide
  refine ⟨fun hall => hrefused (hall nulActor _ validateBody_nulActor), ?_⟩
  have hexecute : (execute (step sha256 (js "key")) (fun _ _ => True) (start JsDate.epoch)
      nulEvents).any (fun s => (s.world.database.transaction.any fun tx =>
          decide (¬ tx.dto.Storable)) &&
        (execute (step sha256 (js "key")) (fun _ _ => True) s [.world .rollback, .respond 0]).any
          fun app => decide (app.statusCode? 0 = some 500)) = true := by
    decide +kernel
  obtain ⟨s, hrun, hcheck⟩ := Run.exists_of_execute hexecute
  obtain ⟨hpending, hlater⟩ := (Bool.and_eq_true _ _).mp hcheck
  obtain ⟨app, hrest, hcode⟩ := Run.exists_of_execute hlater
  obtain ⟨tx, htx, hdto⟩ := (Option.any_eq_true _ _).mp hpending
  refine ⟨s, app, hrun, fun id => ?_, hrest, of_decide_eq_true hcode⟩
  refine Option.eq_none_iff_forall_ne_some.mpr fun t hstep => ?_
  exact of_decide_eq_true hdto (storable_of_insertEntry hstep htx)

end App

end TamperEvidentLog.Service
