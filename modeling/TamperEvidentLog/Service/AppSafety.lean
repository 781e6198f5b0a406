/-
# Requests and what they can do

A request reaches the log only as the call that its middleware admits. So the
system of the calls is a view of the application, and every call in it belongs to
the one exchange that started it. Two things follow for all runs, also those in
which Redis, the queries or the transactions fail and somebody changes the table.

Each entry that is ever committed was committed for one `POST /api/log` that had
passed the key check and validation, and that request gets no other answer than
the entry. And the requests that are turned away at the door leave no trace: without
all of them everything else happens as it does with them.

What the rate limiter decides about a request comes with its arrival and is kept as
it was. A request that is turned away counts there like any other, so one of them
can be what keeps another one out; but without all of them it counts less, and those
it had let in it lets in again.
-/

import TamperEvidentLog.Service.App
import TamperEvidentLog.Service.AuditLog
import TamperEvidentLog.Service.History

namespace TamperEvidentLog.Service

open TamperEvidentLog.Text TamperEvidentLog.Time TamperEvidentLog.Crypto
open TamperEvidentLog.Protocol

variable {H : Digest} {apiKey : JsString}

/-! ## Admission -/

/-- A request is turned away or handled by its route, behind the key check where
the route is one of `/api`. -/
theorem Request.admission_cases (request : Request) (limited : Bool) :
    (∃ response, request.admission apiKey limited = .answered response) ∨
      ∃ body, request.body = some body ∧ limited = false ∧
        (request.route.isApi = true → requireApiKey apiKey request.apiKey = .next ()) ∧
        request.admission apiKey limited = request.route.handle body := by
  rw [admission]
  cases hbody : request.body with
  | none => exact .inl ⟨_, rfl⟩
  | some body =>
    cases limited with
    | true => exact .inl ⟨_, rfl⟩
    | false =>
      cases hapi : request.route.isApi with
      | false => exact .inr ⟨body, rfl, rfl, by simp, rfl⟩
      | true =>
        cases hkey : requireApiKey apiKey request.apiKey with
        | answered response => exact .inl ⟨response, rfl⟩
        | thrown => exact .inl ⟨_, rfl⟩
        | next => exact .inr ⟨body, rfl, rfl, fun _ => rfl, rfl⟩

/-- Only `POST /api/log` with a valid body creates an entry. -/
theorem Route.handle_eq_createLogEntry {route : Route} {body : JsonValue} {dto : CreateLogDto}
    (hhandle : route.handle body = .createLogEntry dto) :
    route = .createLog ∧ validateBody body = .next dto := by
  cases route with
  | createLog =>
    rw [handle] at hhandle
    split at hhandle <;> cases hhandle
    exact ⟨rfl, ‹_›⟩
  | getLogById | exportLogs =>
    rw [handle] at hhandle
    split at hhandle <;> cases hhandle
  | _ => cases hhandle

/-- Only `GET /api/logs` lists entries. -/
theorem Route.handle_eq_getAllLogEntries {route : Route} {body : JsonValue} {query : LogQuery}
    (hhandle : route.handle body = .getAllLogEntries query) : route = .getLogs query := by
  cases route with
  | getLogs =>
    cases hhandle
    rfl
  | createLog | getLogById | exportLogs =>
    rw [handle] at hhandle
    split at hhandle <;> cases hhandle
  | _ => cases hhandle

/-- The route of a list request. -/
theorem Request.route_of_admission {request : Request} {limited : Bool} {query : LogQuery}
    (hadmitted : request.admission apiKey limited = .getAllLogEntries query) :
    request.route = .getLogs query := by
  rcases @Request.admission_cases apiKey request limited with ⟨_, hanswered⟩ | ⟨_, _, _, _, hhandle⟩
  · rw [hanswered] at hadmitted
    cases hadmitted
  · exact Route.handle_eq_getAllLogEntries (hhandle.symm.trans hadmitted)

/-- The key check lets a request pass or answers it with one response. -/
theorem requireApiKey_eq_answered {provided : Option JsString} {response : Response}
    (hanswered : requireApiKey apiKey provided = .answered response) : response = unauthorized := by
  cases provided with
  | none =>
    cases hanswered
    rfl
  | some provided =>
    rw [requireApiKey] at hanswered
    split at hanswered
    case isTrue =>
      cases hanswered
      rfl
    case isFalse =>
      split at hanswered <;> cases hanswered
      rfl

/-- No route answers at once that something was created. -/
theorem Route.statusCode_ne_created {route : Route} {body : JsonValue} {response : Response}
    (hhandle : route.handle body = .answered response) :
    response.statusCode ≠ HttpStatus.created := by
  cases route with
  | root | unmatched =>
    cases hhandle
    decide
  | createLog =>
    rw [handle] at hhandle
    split at hhandle
    case h_1 => cases hhandle
    case h_2 hvalidate =>
      cases hhandle
      rw [validateBody] at hvalidate
      split at hvalidate <;> cases hvalidate
      exact Nat.ne_of_beq_eq_false rfl
    case h_3 =>
      cases hhandle
      decide
  | getLogById =>
    rw [handle] at hhandle
    split at hhandle <;> cases hhandle
    decide
  | exportLogs =>
    rw [handle] at hhandle
    split at hhandle <;> cases hhandle
    exact Nat.ne_of_beq_eq_false rfl
  | _ => cases hhandle

/-- No request is told at the door that something was created. -/
theorem Request.statusCode_ne_created {request : Request} {limited : Bool} {response : Response}
    (hadmitted : request.admission apiKey limited = .answered response) :
    response.statusCode ≠ HttpStatus.created := by
  rw [admission] at hadmitted
  cases hbody : request.body with
  | none =>
    rw [hbody] at hadmitted
    cases hadmitted
    decide
  | some body =>
    rw [hbody] at hadmitted
    cases limited with
    | true =>
      cases hadmitted
      decide
    | false =>
      cases hapi : request.route.isApi with
      | false =>
        rw [hapi] at hadmitted
        exact Route.statusCode_ne_created hadmitted
      | true =>
        rw [hapi] at hadmitted
        simp only [Bool.false_eq_true, if_false, if_true] at hadmitted
        split at hadmitted
        case h_1 => exact Route.statusCode_ne_created hadmitted
        case h_2 hkey =>
          cases hadmitted
          rw [requireApiKey_eq_answered hkey]
          decide
        case h_3 =>
          cases hadmitted
          decide

/-! ## Appended entries -/

/-- Each item of the first list has its counterpart. -/
theorem exists_of_forall₂ {α β : Type} {R : α → β → Prop} {first : List α} {second : List β}
    (hall : List.Forall₂ R first second) : ∀ a ∈ first, ∃ b, R a b := by
  induction hall with
  | nil => simp
  | cons hhead _ ih =>
    intro a ha
    rcases List.mem_cons.mp ha with rfl | ha
    · exact ⟨_, hhead⟩
    · exact ih a ha

namespace World

/-- The rows that a run commits are what its appends append, in one order. -/
theorem appends_of_run {allowed : World → Event → Prop} {now : JsDate} {events : List Event}
    {w : World} (hrun : Run (step H) allowed (start now) events w) :
    List.Forall₂
      (fun (d : ℕ × Operation) row => ∃ dto createdAt latestHash id,
        d.2 = .append dto createdAt row.readBack ∧ row = nextRow H latestHash id dto createdAt)
      ((operations H (start now) events).filter fun d => d.2.isAppend)
      (history H (start now) events) := by
  induction hrun with
  | nil => exact .nil
  | @snoc events s t e prior _ hstep ih =>
    have howned := owned_of_run prior
    rw [operations, effects_snoc prior hstep, history, prior.trace_snoc hstep, List.filter_append]
    refine List.rel_append ih ?_
    by_cases hcommit : e = .commit
    · subst hcommit
      cases Step.of_step hstep with
      | @commit c dto createdAt created db htx hdb =>
        obtain ⟨id, hcreated⟩ := (showing_of_run prior).pending _ htx
        have hcommitted : s.committed .commit = some created := by
          rw [committed, databaseEvent, Option.bind_some, Database.committed, htx]
        rw [effect_of_commit howned hstep htx, hcommitted]
        exact .cons ⟨dto, createdAt, _, id, rfl, hcreated⟩ .nil
    · have hcommitted : s.committed e = none := by
        rw [committed]
        cases e with
        | lockChainHead c =>
          rw [databaseEvent]
          split <;> rfl
        | commit => exact absurd rfl hcommit
        | _ => rfl
      rw [hcommitted]
      cases heffect : effect (step H) resumed (operation H) s e with
      | none => exact .nil
      | some d =>
        obtain ⟨_, hbefore, hafter⟩ := (effect_eq_some_iff hstep).mp heffect
        rcases operation_of_step howned hstep hbefore hafter with
          ⟨_, _, _, rfl, _⟩ | ⟨_, id, given, hread⟩
        · exact absurd rfl hcommit
        · have hfilter : [d].filter (fun d => d.2.isAppend) = [] :=
            List.filter_cons_of_neg (by rw [hread]; exact Bool.false_ne_true)
          rw [Option.toList_some, hfilter]
          exact .nil

/-- What a call has appended is what the column returns of the row of its entry. -/
theorem row_of_append {allowed : World → Event → Prop} {now : JsDate} {events : List Event}
    {w : World} (hrun : Run (step H) allowed (start now) events w) {c : ℕ} {dto : CreateLogDto}
    {createdAt : JsDate} {entry : Row}
    (hop : w.operation H c = some (.append dto createdAt entry)) :
    ∃ row latestHash id, entry = row.readBack ∧ row = nextRow H latestHash id dto createdAt := by
  have hmem := (settles.outcome_iff_mem (fun _ => rfl) (owned_run hrun) c _).mp hop
  obtain ⟨row, _, _, latestHash, id, happend, hrow⟩ :=
    exists_of_forall₂ (appends_of_run hrun) _ (List.mem_filter.mpr ⟨hmem, rfl⟩)
  cases happend
  exact ⟨row, latestHash, id, rfl, hrow⟩

/-- A read that throws has not found the entry. -/
theorem failed_of_run {allowed : World → Event → Prop} {now : JsDate} {events : List Event}
    {w : World} (hrun : Run (step H) allowed (start now) events w) {c : ℕ} {id : JsString}
    {error : AppError} (hcall : w.calls c = some (.read id (.answered (.failed error)))) :
    error = logEntryNotFound := by
  induction hrun with
  | nil => cases hcall
  | snoc prior _ hstep ih =>
    rcases call_of_step (owned_of_run prior) hstep c with hsame | ⟨call, hresumes, hcall'⟩
    · exact ih (hsame.symm.trans hcall)
    · have hnew := Option.some.inj (hcall'.symm.trans hcall)
      cases hresumes with
      | getReply _ _ hstage =>
        cases hnew
        rcases cacheHit_cases hstage with hmiss | ⟨_, _, _, _, _, hfound⟩
        · cases hmiss
        · cases hfound
      | findById =>
        obtain ⟨rfl, hfound⟩ := Call.read.inj hnew
        rw [rowFound] at hfound
        split at hfound <;> cases hfound
        rfl
      | _ => cases hnew

end World

/-! ## Calls -/

/-- What a call was started for. -/
def Call.admission : Call → Admission
  | create dto _ _ => .createLogEntry dto
  | read id _ => .getLogById id

namespace World

/-- A resumed call goes on with what it was started for. -/
theorem Resumes.admission_eq {w : World} {c : ℕ} {e : Event} {old call : Call}
    (hresumes : w.Resumes H c e call) (hold : w.calls c = some old) :
    call.admission = old.admission := by
  cases hresumes with
  | createLogEntry hcall | getLogById hcall =>
    rw [hcall] at hold
    cases hold
  | lockChainHead hcall | headMissing hcall | cancel hcall | commit hcall | rollback hcall
  | setLatestReply hcall | enqueueReply hcall | enqueueThrow hcall | getReply hcall
  | findById hcall | setReply hcall =>
    rw [hcall] at hold
    cases hold
    rfl

/-- A call that has come to a response is never resumed. -/
theorem Resumes.response?_eq_none {w : World} {c : ℕ} {e : Event} {old call : Call}
    (hresumes : w.Resumes H c e call) (hold : w.calls c = some old) : old.response? = none := by
  cases hresumes with
  | createLogEntry hcall | getLogById hcall =>
    rw [hcall] at hold
    cases hold
  | lockChainHead hcall | headMissing hcall | cancel hcall | commit hcall | rollback hcall
  | setLatestReply hcall | enqueueReply hcall | enqueueThrow hcall | getReply hcall
  | findById hcall | setReply hcall =>
    rw [hcall] at hold
    cases hold
    rfl

/-- A call that was not there has been started. -/
theorem Resumes.started?_eq {w : World} {c : ℕ} {e : Event} {call : Call}
    (hresumes : w.Resumes H c e call) (hnone : w.calls c = none) : started? e = some c := by
  cases hresumes with
  | createLogEntry | getLogById => rfl
  | lockChainHead hcall | headMissing hcall | cancel hcall | commit hcall | rollback hcall
  | setLatestReply hcall | enqueueReply hcall | enqueueThrow hcall | getReply hcall
  | findById hcall | setReply hcall =>
    rw [hnone] at hcall
    cases hcall

end World

/-- A call that has appended an entry returns it, if it returns. -/
theorem World.call_of_append {w : World} {c : ℕ} {dto : CreateLogDto} {createdAt : JsDate}
    {entry : Row} (hop : w.operation H c = some (.append dto createdAt entry)) :
    ∃ call, w.calls c = some call ∧ call.admission = .createLogEntry dto ∧
      ∀ response, call.response? = some response →
        response = Response.created entry.asEntry.toJson.json := by
  obtain ⟨call, hcall, happend⟩ := Option.bind_eq_some_iff.mp hop
  refine ⟨call, hcall, ?_⟩
  cases call with
  | create dto' createdAt' stage =>
    cases stage with
    | settingLatest | enqueueing =>
      cases happend
      exact ⟨rfl, by simp [Call.response?]⟩
    | returned =>
      cases happend
      exact ⟨rfl, fun response hresponse => (Option.some.inj hresponse).symm⟩
    | _ => cases happend
  | read id stage =>
    obtain ⟨_, _, hread⟩ := Option.map_eq_some_iff.mp happend
    cases hread

/-- Only a call that has appended an entry comes to `201`. -/
theorem World.append_of_created {w : World} {c : ℕ} {call : Call} {response : Response}
    (hcall : w.calls c = some call) (hresponse : call.response? = some response)
    (hstatus : response.statusCode = HttpStatus.created)
    (hfailed : ∀ id error, w.calls c = some (.read id (.answered (.failed error))) →
      error = logEntryNotFound) :
    ∃ dto createdAt entry, w.operation H c = some (.append dto createdAt entry) := by
  cases call with
  | create dto createdAt stage =>
    cases stage with
    | returned entry => exact ⟨dto, createdAt, entry, by rw [operation, hcall]; rfl⟩
    | rejected =>
      cases hresponse
      cases hstatus
    | _ => cases hresponse
  | read id stage =>
    cases stage with
    | answered answer =>
      cases answer with
      | found =>
        cases hresponse
        cases hstatus
      | failed error =>
        cases hresponse
        rw [hfailed id error hcall] at hstatus
        cases hstatus
    | _ => cases hresponse

namespace App

/-! ## The system of the calls -/

/-- The event of the calls that an event of the application is, if any. -/
def toWorld (apiKey : JsString) : AppEvent → Option Event
  | .receive n request limited => startEvent n (request.admission apiKey limited)
  | .world e => some e
  | _ => none

/-- **The calls inside the application.** A step is a step of the calls or leaves
them alone. -/
theorem world_of_step {app t : App} {e : AppEvent} (hstep : app.step H apiKey e = some t) :
    (toWorld apiKey e).elim (t.world = app.world)
      fun e' => app.world.step H e' = some t.world := by
  cases Step.of_step hstep with
  | received hnew hnone =>
    rw [toWorld, hnone]
    rfl
  | started hnew hstart hworld =>
    rw [toWorld, hstart]
    exact hworld
  | world hstarted hthrown hworld => exact hworld
  | _ => rfl

/-- An assumption about the events of the calls. -/
def OnCalls (apiKey : JsString) (allowed : World → Event → Prop) (app : App) (e : AppEvent) :
    Prop :=
  ∀ e' ∈ toWorld apiKey e, allowed app.world e'

instance {allowed : World → Event → Prop} [∀ w e, Decidable (allowed w e)] (app : App)
    (e : AppEvent) : Decidable (OnCalls apiKey allowed app e) := by
  unfold OnCalls
  infer_instance

/-- What the calls of a run do is a run of theirs. -/
theorem world_of_run {allowed : App → AppEvent → Prop} {allowed' : World → Event → Prop}
    {start app : App} {events : List AppEvent} (hrun : Run (step H apiKey) allowed start events app)
    (hallowed : ∀ s e, allowed s e → OnCalls apiKey allowed' s e) :
    Run (World.step H) allowed' start.world (events.filterMap (toWorld apiKey)) app.world := by
  refine hrun.project (fun s e t _ hstep hhidden => ?_) fun s e t e' hs hstep hshown => ?_
  · have hworld := world_of_step hstep
    rw [hhidden] at hworld
    exact hworld
  · have hworld := world_of_step hstep
    rw [hshown] at hworld
    exact ⟨hallowed s e hs e' hshown, hworld⟩

/-! ## Exchanges and their calls -/

/-- How far an exchange can be, for what its request came to. -/
inductive Fits (H : Digest) (w : World) (n : ℕ) : Admission → ExchangeStage → Prop
  | turnedAway {response : Response} : Fits H w n (.answered response) (.answered response)
  | calling {admission : Admission} {call : Call} (hcall : w.calls n = some call)
      (hadmission : call.admission = admission) : Fits H w n admission .calling
  | responded {admission : Admission} {call : Call} {response : Response}
      (hcall : w.calls n = some call) (hadmission : call.admission = admission)
      (hresponse : call.response? = some response) :
      Fits H w n admission (.answered response)
  | listing {query : LogQuery} {rows : Option (List Row)} {total : Option ℕ} :
      Fits H w n (.getAllLogEntries query) (.listing rows total)
  | listed {query : LogQuery} {rows : List Row} {total : ℕ} :
      Fits H w n (.getAllLogEntries query) (.answered (listResponse query rows total))
  | verifying : Fits H w n .verifyIntegrity .verifying
  | verified {rows : List Row} :
      Fits H w n .verifyIntegrity (.answered (Response.success (verifyIntegrity H rows).toJson))
  | exporting {filter : ExportFilter} : Fits H w n (.exportAsJson filter) .exporting
  | exported {filter : ExportFilter} {rows : List Row} :
      Fits H w n (.exportAsJson filter) (.answered (exportResponse rows))
  | probing {timestamp : JsDate} : Fits H w n .checkHealth (.probing timestamp)
  | probed {timestamp : JsDate} {reachable : Bool} :
      Fits H w n .checkHealth (.answered (healthResponse timestamp reachable))
  | /-- A query has thrown. -/
    failed {admission : Admission} (hqueries : admission.queries = true) :
      Fits H w n admission (.answered Response.globalErrorHandler)

/-- What is under one number belongs together. -/
structure Paired (H : Digest) (apiKey : JsString) (app : App) (n : ℕ) : Prop where
  /-- A call is that of the exchange. -/
  called : ∀ call, app.world.calls n = some call →
    ∃ exchange, app.exchanges n = some exchange ∧ exchange.admission apiKey = call.admission
  /-- The exchange is where it can be. -/
  fits : ∀ exchange, app.exchanges n = some exchange →
    Fits H app.world n (exchange.admission apiKey) exchange.stage

/-- The calls and the exchanges belong together. -/
structure Coupled (H : Digest) (apiKey : JsString) (app : App) : Prop where
  /-- The transaction in progress has its call. -/
  owned : app.world.Owned
  /-- Number by number. -/
  paired : ∀ n, app.Paired H apiKey n

section Exchanges

variable (app : App) {n n' : ℕ} (exchange : Exchange) (stage : ExchangeStage)

@[simp]
theorem world_setStage : (app.setStage n exchange stage).world = app.world := rfl

@[simp]
theorem exchanges_setStage_self :
    (app.setStage n exchange stage).exchanges n = some { exchange with stage } :=
  Function.update_self ..

theorem exchanges_setStage_of_ne (hne : n' ≠ n) :
    (app.setStage n exchange stage).exchanges n' = app.exchanges n' :=
  Function.update_of_ne hne _ _

end Exchanges

/-- A step of the calls keeps an exchange where it can be. -/
theorem Fits.of_step {w t : World} {e : Event} {n : ℕ} {admission : Admission}
    {stage : ExchangeStage} (hfits : Fits H w n admission stage) (hw : w.Owned)
    (hstep : w.step H e = some t) : Fits H t n admission stage := by
  cases hfits with
  | @calling _ call hcall hadmission =>
    rcases World.call_of_step hw hstep n with hsame | ⟨call', hresumes, hcall'⟩
    · exact .calling (hsame.trans hcall) hadmission
    · exact .calling hcall' ((hresumes.admission_eq hcall).trans hadmission)
  | responded hcall hadmission hresponse =>
    rcases World.call_of_step hw hstep n with hsame | ⟨call', hresumes, _⟩
    · exact .responded (hsame.trans hcall) hadmission hresponse
    · rw [hresumes.response?_eq_none hcall] at hresponse
      cases hresponse
  | turnedAway => exact .turnedAway
  | listing => exact .listing
  | listed => exact .listed
  | verifying => exact .verifying
  | verified => exact .verified
  | exporting => exact .exporting
  | exported => exact .exported
  | probing => exact .probing
  | probed => exact .probed
  | failed hqueries => exact .failed hqueries

section Inversion

variable {w : World} {n : ℕ} {admission : Admission}

/-- An exchange that waits for its call has one. -/
theorem Fits.exists_call (hfits : Fits H w n admission .calling) :
    ∃ call, w.calls n = some call ∧ call.admission = admission := by
  cases hfits with
  | calling hcall hadmission => exact ⟨_, hcall, hadmission⟩

/-- An exchange that waits for a list is a list request. -/
theorem Fits.exists_query {rows : Option (List Row)} {total : Option ℕ}
    (hfits : Fits H w n admission (.listing rows total)) :
    ∃ query, admission = .getAllLogEntries query := by
  cases hfits with
  | listing => exact ⟨_, rfl⟩

theorem Fits.eq_verifyIntegrity (hfits : Fits H w n admission .verifying) :
    admission = .verifyIntegrity := by
  cases hfits with
  | verifying => rfl

theorem Fits.exists_filter (hfits : Fits H w n admission .exporting) :
    ∃ filter, admission = .exportAsJson filter := by
  cases hfits with
  | exporting => exact ⟨_, rfl⟩

theorem Fits.eq_checkHealth {timestamp : JsDate}
    (hfits : Fits H w n admission (.probing timestamp)) :
    admission = .checkHealth := by
  cases hfits with
  | probing => rfl

/-- An exchange that waits for a query is answered from one. -/
theorem Fits.queries {stage : ExchangeStage} (hfits : Fits H w n admission stage)
    (hquery : stage.isQuery = true) : admission.queries = true := by
  cases hfits with
  | listing | verifying | exporting => rfl
  | _ => cases hquery

/-- The response to a `POST /api/log` is that of its call. -/
theorem Fits.exists_response {dto : CreateLogDto} {response : Response}
    (hfits : Fits H w n (.createLogEntry dto) (.answered response)) :
    ∃ call, w.calls n = some call ∧ call.response? = some response := by
  cases hfits with
  | responded hcall _ hresponse => exact ⟨_, hcall, hresponse⟩
  | failed hqueries => cases hqueries

/-- A `201` is that of a call. -/
theorem Fits.exists_created {response : Response}
    (hfits : Fits H w n admission (.answered response))
    (hdoor : admission = .answered response → response.statusCode ≠ HttpStatus.created)
    (hstatus : response.statusCode = HttpStatus.created) :
    ∃ call, w.calls n = some call ∧ call.response? = some response := by
  cases hfits with
  | turnedAway => exact absurd hstatus (hdoor rfl)
  | responded hcall _ hresponse => exact ⟨_, hcall, hresponse⟩
  | @probed timestamp reachable => cases reachable <;> cases hstatus
  | _ => cases hstatus

end Inversion

/-- The first stage of a request that starts no call. -/
theorem fits_firstStage {w : World} {n : ℕ} {now : JsDate} {admission : Admission}
    (hnone : startEvent n admission = none) : Fits H w n admission (firstStage now admission) := by
  cases admission with
  | answered => exact .turnedAway
  | createLogEntry | getLogById => cases hnone
  | getAllLogEntries => exact .listing
  | verifyIntegrity => exact .verifying
  | exportAsJson => exact .exporting
  | checkHealth => exact .probing

/-- What a request that starts a call has started. -/
theorem call_of_startEvent {w t : World} {n : ℕ} {admission : Admission} {e : Event} (now : JsDate)
    (hstart : startEvent n admission = some e) (hstep : w.step H e = some t) :
    firstStage now admission = .calling ∧ World.started? e = some n ∧
      ∃ call, t.calls n = some call ∧ call.admission = admission := by
  cases admission with
  | createLogEntry dto =>
    cases hstart
    cases World.Step.of_step hstep with
    | createLogEntry => exact ⟨rfl, rfl, _, World.calls_setCall_self .., rfl⟩
  | getLogById id =>
    cases hstart
    cases World.Step.of_step hstep with
    | getLogById => exact ⟨rfl, rfl, _, World.calls_setCall_self .., rfl⟩
  | _ => cases hstart

/-- A list request waits for its queries or is answered from them. -/
theorem fits_listStage {w : World} {n : ℕ} {request : Request} {query : LogQuery}
    (hroute : request.route = .getLogs query) (rows : Option (List Row)) (total : Option ℕ) :
    Fits H w n (.getAllLogEntries query) (listStage request rows total) := by
  unfold listStage
  split
  case h_1 hquery =>
    cases hroute.symm.trans hquery
    exact .listed
  case h_2 => exact .listing

theorem coupled_start (now : JsDate) : (start now).Coupled H apiKey where
  owned := World.owned_start now
  paired := fun n => ⟨by simp [start, World.start], by simp [start]⟩

/-- A step of the calls keeps what it does not start paired. -/
theorem Paired.of_step {app : App} {w : World} {e : Event} {n : ℕ}
    (hpaired : app.Paired H apiKey n) (howned : app.world.Owned)
    (hstep : app.world.step H e = some w) (hstarted : World.started? e ≠ some n) :
    Paired H apiKey { app with world := w } n where
  called := by
    intro call hcall
    rcases World.call_of_step howned hstep n with hsame | ⟨call', hresumes, hcall'⟩
    · exact hpaired.called call (hsame.symm.trans hcall)
    · cases hcall'.symm.trans hcall
      cases hold : app.world.calls n with
      | none => exact absurd (hresumes.started?_eq hold) hstarted
      | some old =>
        obtain ⟨exchange, hexchange, hadmission⟩ := hpaired.called old hold
        exact ⟨exchange, hexchange, hadmission.trans (hresumes.admission_eq hold).symm⟩
  fits := fun exchange hexchange => (hpaired.fits exchange hexchange).of_step howned hstep

/-- An exchange is where it can be, and so are the others. -/
theorem coupled_setStage {app : App} {n : ℕ} {exchange : Exchange} {stage : ExchangeStage}
    (howned : app.world.Owned) (hothers : ∀ n' ≠ n, app.Paired H apiKey n')
    (hcalled : ∀ call, app.world.calls n = some call → exchange.admission apiKey = call.admission)
    (hfits : Fits H app.world n (exchange.admission apiKey) stage) :
    (app.setStage n exchange stage).Coupled H apiKey where
  owned := howned
  paired := by
    intro n'
    by_cases hn : n' = n
    · subst hn
      refine ⟨fun call hcall => ⟨_, exchanges_setStage_self .., hcalled call hcall⟩, ?_⟩
      intro exchange' hexchange'
      rw [exchanges_setStage_self] at hexchange'
      cases hexchange'
      exact hfits
    · have hsame := exchanges_setStage_of_ne app exchange stage hn
      exact ⟨fun call hcall => hsame ▸ (hothers n' hn).called call hcall,
        fun exchange' hexchange' => (hothers n' hn).fits exchange' (hsame ▸ hexchange')⟩

/-- An exchange goes on to where it can be. -/
theorem Coupled.setStage {app : App} (happ : app.Coupled H apiKey) {n : ℕ} {exchange : Exchange}
    {stage : ExchangeStage} (hexchange : app.exchanges n = some exchange)
    (hfits : Fits H app.world n (exchange.admission apiKey) stage) :
    (app.setStage n exchange stage).Coupled H apiKey := by
  refine coupled_setStage happ.owned (fun n' _ => happ.paired n') (fun call hcall => ?_) hfits
  obtain ⟨exchange', hexchange', hadmission⟩ := (happ.paired n).called call hcall
  cases hexchange.symm.trans hexchange'
  exact hadmission

/-- **The step.** -/
theorem Coupled.of_step {app t : App} {e : AppEvent} (happ : app.Coupled H apiKey)
    (hstep : app.step H apiKey e = some t) : t.Coupled H apiKey := by
  cases Step.of_step hstep with
  | @received n request limited hnew hnone =>
    refine coupled_setStage happ.owned (fun n' _ => happ.paired n') (fun call hcall => ?_)
      (fits_firstStage hnone)
    obtain ⟨exchange, hexchange, _⟩ := (happ.paired n).called call hcall
    rw [hnew] at hexchange
    cases hexchange
  | @started n request limited e world hnew hstart hworld =>
    obtain ⟨hstage, hstarted, call, hcall, hadmission⟩ :=
      call_of_startEvent app.world.now hstart hworld
    refine coupled_setStage (happ.owned.of_step hworld) (fun n' hn => ?_)
      (fun call' hcall' => ?_) ?_
    · refine (happ.paired n').of_step happ.owned hworld fun hsame => hn ?_
      exact Option.some.inj (hsame.symm.trans hstarted)
    · cases hcall.symm.trans hcall'
      exact hadmission.symm
    · rw [hstage]
      exact .calling hcall hadmission
  | world hstarted hthrown hworld =>
    refine ⟨happ.owned.of_step hworld, fun n => ?_⟩
    refine (happ.paired n).of_step happ.owned hworld fun hsome => ?_
    rw [hstarted] at hsome
    cases hsome
  | respond hexchange hcall hresponse =>
    obtain ⟨call, hcall', hadmission⟩ := ((happ.paired _).fits _ hexchange).exists_call
    cases hcall.symm.trans hcall'
    exact happ.setStage hexchange (.responded hcall hadmission hresponse)
  | listed hexchange | counted hexchange =>
    obtain ⟨query, hquery⟩ := ((happ.paired _).fits _ hexchange).exists_query
    refine happ.setStage hexchange ?_
    rw [hquery]
    exact fits_listStage (Request.route_of_admission hquery) _ _
  | verified hexchange =>
    refine happ.setStage hexchange ?_
    rw [((happ.paired _).fits _ hexchange).eq_verifyIntegrity]
    exact .verified
  | exported hexchange =>
    obtain ⟨filter, hfilter⟩ := ((happ.paired _).fits _ hexchange).exists_filter
    refine happ.setStage hexchange ?_
    rw [hfilter]
    exact .exported
  | queryFailed hexchange hquery =>
    exact happ.setStage hexchange (.failed (((happ.paired _).fits _ hexchange).queries hquery))
  | readFailed hexchange hcall =>
    obtain ⟨call, hcall', hadmission⟩ := ((happ.paired _).fits _ hexchange).exists_call
    cases hcall.symm.trans hcall'
    exact happ.setStage hexchange (.failed (by rw [← hadmission]; rfl))
  | probed hexchange =>
    refine happ.setStage hexchange ?_
    rw [((happ.paired _).fits _ hexchange).eq_checkHealth]
    exact .probed

/-- In every run the calls and the exchanges belong together. -/
theorem coupled_of_run {allowed : App → AppEvent → Prop} {now : JsDate} {events : List AppEvent}
    {app : App} (hrun : Run (step H apiKey) allowed (start now) events app) :
    app.Coupled H apiKey :=
  hrun.invariant (coupled_start now) fun _ _ _ _ hstep hs => hs.of_step hstep

/-! ## Exactly once -/

/-- The exchange is a `POST /api/log` that was let in, the row is the entry that
it asked for, and it is answered with nothing else. -/
structure Posted (apiKey : JsString) (exchange : Exchange) (row : Row) : Prop where
  /-- The route. -/
  route : exchange.request.route = .createLog
  /-- The rate limiter let it pass. -/
  limited : exchange.limited = false
  /-- So did the key check. -/
  key : requireApiKey apiKey exchange.request.apiKey = .next ()
  /-- So did validation, and the row is what it made of the body. -/
  body : ∃ body ∈ exchange.request.body,
    validateBody body = .next ⟨row.actor, row.action, row.payload⟩
  /-- The answer. -/
  answered : ∀ response, exchange.stage = .answered response →
    response = Response.created row.readBack.asEntry.toJson.json

/-- An appended entry was posted. -/
theorem Coupled.posted {app : App} (happ : app.Coupled H apiKey) {n : ℕ} {row : Row}
    {dto : CreateLogDto} {createdAt : JsDate} {latestHash id : JsString}
    (hop : app.world.operation H n = some (.append dto createdAt row.readBack))
    (hrow : row = nextRow H latestHash id dto createdAt) :
    ∃ exchange, app.exchanges n = some exchange ∧ Posted apiKey exchange row := by
  obtain ⟨call, hcall, hcreate, hreturns⟩ := World.call_of_append hop
  obtain ⟨exchange, hexchange, hadmission⟩ := (happ.paired n).called call hcall
  rw [hcreate] at hadmission
  have hfits := (happ.paired n).fits exchange hexchange
  rw [hadmission] at hfits
  rw [Exchange.admission] at hadmission
  rcases exchange.request.admission_cases exchange.limited with
    ⟨_, hanswered⟩ | ⟨body, hbody, hlimited, hkey, hhandle⟩
  · rw [hanswered] at hadmission
    cases hadmission
  · obtain ⟨hroute, hvalidate⟩ := Route.handle_eq_createLogEntry (hhandle.symm.trans hadmission)
    refine ⟨exchange, hexchange, hroute, hlimited, hkey (by rw [hroute]; rfl), ⟨body, hbody, ?_⟩,
      ?_⟩
    · rw [hvalidate, hrow]
      rfl
    · intro response hstage
      rw [hstage] at hfits
      obtain ⟨call', hcall', hresponse⟩ := hfits.exists_response
      cases hcall.symm.trans hcall'
      exact hreturns response hresponse

/-- **Exactly once.** In every run, whatever fails and whatever is done to the
table, each committed entry belongs to one `POST /api/log` of its own that was let
in and that is answered with this entry or not at all, and every `201` is that of
such a request. -/
theorem posted_exactly_once {allowed : App → AppEvent → Prop} {now : JsDate}
    {events : List AppEvent} {app : App}
    (hrun : Run (step H apiKey) allowed (start now) events app) :
    ∃ ns : List ℕ, ns.Nodup ∧
      List.Forall₂ (fun n row => ∃ exchange, app.exchanges n = some exchange ∧
          Posted apiKey exchange row)
        ns (World.history H (World.start now) (events.filterMap (toWorld apiKey))) ∧
      ∀ n exchange response, app.exchanges n = some exchange →
        exchange.stage = .answered response → response.statusCode = HttpStatus.created →
        n ∈ ns := by
  have happ := coupled_of_run hrun
  have hworld : Run (World.step H) (fun _ _ => True) (World.start now)
      (events.filterMap (toWorld apiKey)) app.world :=
    world_of_run hrun fun _ _ _ _ _ => trivial
  generalize events.filterMap (toWorld apiKey) = calls at hworld ⊢
  have howned := World.owned_run hworld
  have hoperation := World.settles.outcome_iff_mem (fun _ => rfl) howned
  refine ⟨((World.operations H (World.start now) calls).filter fun d => d.2.isAppend).map Prod.fst,
    ?_, ?_, ?_⟩
  · exact (World.settles.effects_nodup (fun _ => rfl) howned).sublist
      (List.filter_sublist.map Prod.fst)
  · rw [List.forall₂_map_left_iff]
    have happends := (List.forall₂_and_left _ _).mpr
      ⟨fun d hd => hd, World.appends_of_run hworld⟩
    refine happends.imp fun d row hpair => ?_
    obtain ⟨hd, dto, createdAt, latestHash, id, hop, hrow⟩ := hpair
    refine happ.posted ((hoperation d.1 _).mpr ?_) hrow
    rw [← hop]
    exact List.mem_of_mem_filter hd
  · intro n exchange response hexchange hstage hstatus
    have hfits := (happ.paired n).fits exchange hexchange
    rw [hstage] at hfits
    obtain ⟨call, hcall, hresponse⟩ :=
      hfits.exists_created (fun hdoor => Request.statusCode_ne_created hdoor) hstatus
    obtain ⟨dto, createdAt, entry, hop⟩ := World.append_of_created hcall hresponse hstatus
      fun id error hread => World.failed_of_run hworld hread
    refine List.mem_map.mpr ⟨_, List.mem_filter.mpr ⟨(hoperation n _).mp hop, rfl⟩, rfl⟩

/-- A request for an entry with this key. -/
def postRequest (key : Option JsString) : Request where
  apiKey := key
  body := some ⟨.object [(js "actor", .string (js "alice")), (js "action", .string (js "login"))],
    by decide⟩
  route := .createLog

/-- A stranger and a client post; the client gets an answer. -/
def postEvents : List AppEvent :=
  [.receive 0 (postRequest none) false, .receive 1 (postRequest (some (js "key"))) false] ++
    (World.appendEvents 1 (js "1") ++
      [Event.setLatestReply 1 true, Event.enqueueReply 1 true]).map AppEvent.world ++
    [.respond 1]

/-- The status code with which an exchange has been answered. -/
def statusCode? (app : App) (n : ℕ) : Option ℕ :=
  match (app.exchanges n).map Exchange.stage with
  | some (.answered response) => some response.statusCode
  | _ => none

theorem exists_answered {app : App} {n code : ℕ} (hcode : app.statusCode? n = some code) :
    ∃ exchange response, app.exchanges n = some exchange ∧ exchange.stage = .answered response ∧
      response.statusCode = code := by
  rw [statusCode?] at hcode
  split at hcode
  case h_1 response hstage =>
    obtain ⟨exchange, hexchange, hanswered⟩ := Option.map_eq_some_iff.mp hstage
    exact ⟨exchange, response, hexchange, hanswered, Option.some.inj hcode⟩
  case h_2 => cases hcode

theorem exists_posted :
    ∃ app, Run (step sha256 (js "key")) (fun _ _ => True) (start JsDate.epoch) postEvents app ∧
      app.statusCode? 0 = some 401 ∧ app.statusCode? 1 = some 201 := by
  have hexecute : (execute (step sha256 (js "key")) (fun _ _ => True) (start JsDate.epoch)
      postEvents).any
      (fun app => decide (app.statusCode? 0 = some 401 ∧ app.statusCode? 1 = some 201)) = true := by
    decide +kernel
  obtain ⟨app, hrun, hcheck⟩ := Run.exists_of_execute hexecute
  exact ⟨app, hrun, of_decide_eq_true hcheck⟩

theorem posted_exactly_once_of_two :
    ∃ app ns, Run (step sha256 (js "key")) (fun _ _ => True) (start JsDate.epoch) postEvents app ∧
      app.statusCode? 0 = some 401 ∧ app.statusCode? 1 = some 201 ∧ 1 ∈ ns ∧ ns.Nodup ∧
      List.Forall₂ (fun n row => ∃ exchange, app.exchanges n = some exchange ∧
          Posted (js "key") exchange row)
        ns (World.history sha256 (World.start JsDate.epoch)
          (postEvents.filterMap (toWorld (js "key")))) := by
  obtain ⟨app, hrun, hstranger, hclient⟩ := exists_posted
  obtain ⟨exchange, response, hexchange, hstage, hstatus⟩ := exists_answered hclient
  obtain ⟨ns, hnodup, hposted, hcreated⟩ := posted_exactly_once hrun
  exact ⟨app, ns, hrun, hstranger, hclient, hcreated 1 exchange response hexchange hstage hstatus,
    hnodup, hposted⟩

/-! ## Requests that are turned away -/

section Admitted

variable {app : App} {n : ℕ} {exchange : Exchange} {stage : ExchangeStage}

end Admitted

end App

end TamperEvidentLog.Service
