/-
# The application

`createApp` puts the same steps in front of every request: the body is parsed,
the rate limiter decides, and only then the routes are tried. The routes below
`/api` ask for the key first, also where no route matches. What is left of a
request is the call of a service or a query, and the response is made of what
that comes to; an exception that is no `AppError` is answered with status 500.

The state holds the system that the calls run in and one exchange for each
request that has arrived. Parsing and routing are Express's: a request is given by
the body that was parsed, if it could be, and the route that was matched. What the
rate limiter decides comes with the arrival.
-/

import TamperEvidentLog.Service.Auth
import TamperEvidentLog.Service.Drain
import TamperEvidentLog.Service.Export
import TamperEvidentLog.Service.LogQuery
import TamperEvidentLog.Service.Pagination

namespace TamperEvidentLog.Service

open TamperEvidentLog.Text TamperEvidentLog.Time TamperEvidentLog.Crypto
open TamperEvidentLog.Number TamperEvidentLog.Protocol

/-! ## Requests -/

/-- The route that a request matches. -/
inductive Route
  | /-- `GET /`. -/
    root
  | /-- `GET /health`. -/
    healthCheck
  | /-- `POST /api/log`. -/
    createLog
  | /-- `GET /api/log/:id`. -/
    getLogById (id : JsString)
  | /-- `GET /api/logs`. -/
    getLogs (query : LogQuery)
  | /-- `GET /api/verify`. -/
    verifyLog
  | /-- `GET /api/export`. -/
    exportLogs (query : Json)
  | /-- No route, below `/api` or elsewhere. -/
    unmatched (underApi : Bool)

/-- A request as it reaches the middleware. -/
structure Request where
  /-- The `x-api-key` header. -/
  apiKey : Option JsString
  /-- `req.body`, unless `express.json` throws. -/
  body : Option JsonValue
  /-- The route it matches. -/
  route : Route

/-- What a request comes to before its handler waits for anything. -/
inductive Admission
  | /-- It is answered. -/
    answered (response : Response)
  | /-- `logService.createLogEntry(dto)`. -/
    createLogEntry (dto : CreateLogDto)
  | /-- `logService.getLogById(id)`. -/
    getLogById (id : JsString)
  | /-- `logService.getAllLogEntries(page, pageSize)`. -/
    getAllLogEntries (query : LogQuery)
  | /-- `verificationService.verifyIntegrity()`. -/
    verifyIntegrity
  | /-- `exportService.exportAsJson(filter)`. -/
    exportAsJson (filter : ExportFilter)
  | /-- `checkHealth()`. -/
    checkHealth

/-- Is the request answered before its handler waits for anything? -/
def Admission.isAnswered : Admission → Bool
  | answered _ => true
  | _ => false

/-- Is the request answered from a query that may throw? -/
def Admission.queries : Admission → Bool
  | getLogById _ => true
  | getAllLogEntries _ => true
  | verifyIntegrity => true
  | exportAsJson _ => true
  | _ => false

/-- `globalErrorHandler`, for an `AppError`. -/
def AppError.response (error : AppError) : Response :=
  ⟨error.statusCode, .object [(js "error", .string error.message)]⟩

/-- What `getLogById` of the controller throws for a blank identifier. -/
def invalidId : AppError := ⟨js "Invalid id", HttpStatus.badRequest, js "INVALID_ID"⟩

/-- The answer to `GET /`. -/
def landing : Response :=
  ⟨HttpStatus.ok, .object [
    (js "success", .bool true),
    (js "message", .string (js "Tamper-Evident Log Service Running")),
    (js "version", .string (js "1.0.0")),
    (js "endpoints", .object [
      (js "health", .string (js "GET /health")),
      (js "createLog", .string (js "POST /api/log")),
      (js "getLog", .string (js "GET /api/log/:id")),
      (js "listLogs", .string (js "GET /api/logs")),
      (js "verify", .string (js "GET /api/verify")),
      (js "export", .string (js "GET /api/export"))]),
    (js "note", .string (js "All /api/* endpoints require x-api-key header"))]⟩

namespace Route

/-- Is the route one of `logRouter`, which is mounted on `/api`? -/
def isApi : Route → Bool
  | root => false
  | healthCheck => false
  | unmatched underApi => underApi
  | _ => true

/-- The handlers behind the key check, and those that need no key. -/
def handle (body : JsonValue) : Route → Admission
  | root => .answered landing
  | healthCheck => .checkHealth
  | createLog =>
    match validateBody body with
    | .next dto => .createLogEntry dto
    | .answered response => .answered response
    | .thrown => .answered Response.globalErrorHandler
  | getLogById id =>
    if trim id = [] then .answered invalidId.response else .getLogById (trim id)
  | getLogs query => .getAllLogEntries query
  | verifyLog => .verifyIntegrity
  | exportLogs query =>
    match ExportFilterSchema.safeParse query with
    | .ok filter => .exportAsJson filter
    | .error issues => .answered (Response.error HttpStatus.unprocessableEntity
        (js "Validation Error") (issueDetails issues))
  | unmatched _ => .answered Response.notFoundHandler

end Route

/-- The middleware in its order: `express.json`, the rate limiter, the routes,
with `requireApiKey` in front of those below `/api`. -/
def Request.admission (apiKey : JsString) (limited : Bool) (request : Request) : Admission :=
  match request.body with
  | none => .answered Response.globalErrorHandler
  | some body =>
    if limited then .answered Response.tooManyRequests
    else if request.route.isApi then
      match requireApiKey apiKey request.apiKey with
      | .next () => request.route.handle body
      | .answered response => .answered response
      | .thrown => .answered Response.globalErrorHandler
    else request.route.handle body

/-! ## Responses -/

/-- The response of `getLogById` of the controller. -/
def foundResponse (entry : Entry) (verificationStatus : Bool) : Response :=
  Response.success (.object [
    (js "entry", entry.toJson.json),
    (js "verificationStatus", .bool verificationStatus)])

/-- The response that a finished call is turned into. -/
def Call.response? : Call → Option Response
  | create _ _ (.returned entry) => some (Response.created entry.asEntry.toJson.json)
  | create _ _ .rejected => some Response.globalErrorHandler
  | create _ _ _ => none
  | read _ (.answered (.found entry status)) => some (foundResponse entry status)
  | read _ (.answered (.failed error)) => some error.response
  | read _ _ => none

/-- What `verifyEntireChain` returns, as JSON. -/
def VerificationResult.toJson : VerificationResult → Json
  | success totalEntries => .object [
    (js "success", .bool true),
    (js "totalEntries", .number (.ofNat totalEntries))]
  | failure totalEntries fault => .object [
    (js "success", .bool false),
    (js "totalEntries", .number (.ofNat totalEntries)),
    (js "brokenEntryId", .string fault.brokenEntryId),
    (js "reason", .string fault.reason.text),
    (js "expectedHash", .string fault.expectedHash),
    (js "actualHash", .string fault.actualHash)]

/-- A page number in the response, where it is a natural number. -/
def numberJson (value : Binary64) : Json :=
  value.finiteValue.elim .null fun n => .number (.ofNat n.toNat)

/-- The response of `getLogs`. -/
def listResponse (query : LogQuery) (rows : List Row) (total : ℕ) : Response :=
  let pageSize := query.requested.2
  Response.paginated (.array (rows.map fun row => row.asEntry.toJson.json)) (.object [
    (js "page", numberJson query.parsePagination.1),
    (js "pageSize", numberJson query.parsePagination.2),
    (js "total", .number (.ofNat total)),
    (js "totalPages", .number (.ofNat (buildPaginationMeta 1 pageSize total).totalPages))])

/-- The response of `exportLogs`. -/
def exportResponse (rows : List Row) : Response :=
  Response.success (.array (rows.map fun row => row.asEntry.toJson.json))

/-- The response of `healthCheck`. -/
def healthResponse (timestamp : JsDate) (reachable : Bool) : Response :=
  ⟨if reachable then HttpStatus.ok else HttpStatus.serviceUnavailable, .object [
    (js "status", .string (if reachable then js "ok" else js "degraded")),
    (js "database", .string (if reachable then js "ok" else js "unreachable")),
    (js "timestamp", .string timestamp.toISOString)]⟩

/-! ## States -/

/-- Where an exchange stands. -/
inductive ExchangeStage
  | /-- It waits for its call of the log service. -/
    calling
  | /-- It waits for `findAll` and `count`. -/
    listing (rows : Option (List Row)) (total : Option ℕ)
  | /-- It waits for `findAllOrdered`. -/
    verifying
  | /-- It waits for `findFiltered`. -/
    exporting
  | /-- It waits for the probe of the database. -/
    probing (timestamp : JsDate)
  | /-- It has been answered. -/
    answered (response : Response)

/-- Does the exchange wait for a query of its own? -/
def ExchangeStage.isQuery : ExchangeStage → Bool
  | listing _ _ => true
  | verifying => true
  | exporting => true
  | _ => false

/-- Has the exchange been answered? -/
def ExchangeStage.isAnswered : ExchangeStage → Bool
  | answered _ => true
  | _ => false

/-- Does the exchange wait for the one query that answers it? -/
def ExchangeStage.IsPending (stage : ExchangeStage) : Prop :=
  stage = .verifying ∨ stage = .exporting

/-- A request and what has become of it. -/
structure Exchange where
  /-- The request. -/
  request : Request
  /-- What the rate limiter decided. -/
  limited : Bool
  /-- Where it stands. -/
  stage : ExchangeStage

/-- What the request of an exchange came to. -/
def Exchange.admission (apiKey : JsString) (exchange : Exchange) : Admission :=
  exchange.request.admission apiKey exchange.limited

/-- The state of the application. -/
structure App where
  /-- The system that the calls run in; the call of an exchange has its number. -/
  world : World
  /-- The exchanges so far. -/
  exchanges : ℕ → Option Exchange

/-- What can happen. -/
inductive AppEvent
  | /-- A request arrives, and the rate limiter decides. -/
    receive (n : ℕ) (request : Request) (limited : Bool)
  | /-- Something happens in the system of the calls. -/
    world (e : Event)
  | /-- The call of an exchange has ended and the response is sent. -/
    respond (n : ℕ)
  | /-- `findAll` returns. -/
    listed (n : ℕ) (rows : List Row)
  | /-- `count` returns. -/
    counted (n : ℕ)
  | /-- `findAllOrdered` returns. -/
    verified (n : ℕ) (rows : List Row)
  | /-- `findFiltered` returns. -/
    exported (n : ℕ) (rows : List Row)
  | /-- A query throws. -/
    queryFailed (n : ℕ)
  | /-- The probe of the database ends, or its time is over. -/
    probed (n : ℕ) (reachable : Bool)

namespace App

/-- An empty log and no requests. -/
def start (now : JsDate) : App := ⟨World.start now, fun _ => none⟩

/-- The exchange goes on. -/
def setStage (app : App) (n : ℕ) (exchange : Exchange) (stage : ExchangeStage) : App :=
  { app with exchanges := Function.update app.exchanges n (some { exchange with stage }) }

/-- The first stage of an exchange. -/
def firstStage (now : JsDate) : Admission → ExchangeStage
  | .answered response => .answered response
  | .createLogEntry _ => .calling
  | .getLogById _ => .calling
  | .getAllLogEntries _ => .listing none none
  | .verifyIntegrity => .verifying
  | .exportAsJson _ => .exporting
  | .checkHealth => .probing now

/-- The event with which an exchange starts its call. -/
def startEvent (n : ℕ) : Admission → Option Event
  | .createLogEntry dto => some (.createLogEntry n dto)
  | .getLogById id => some (.getLogById n id)
  | _ => none

/-- The stage of a list request once one of its queries has returned. -/
def listStage (request : Request) (rows : Option (List Row)) (total : Option ℕ) : ExchangeStage :=
  match request.route, rows, total with
  | .getLogs query, some rows, some total => .answered (listResponse query rows total)
  | _, rows, total => .listing rows total

/-- Would the event resume a call that has ended with an exception of its query? -/
def hasThrown (app : App) : Event → Bool
  | .findById n => (app.exchanges n).any fun exchange => exchange.stage.isAnswered
  | _ => false

variable (H : Digest) (apiKey : JsString)

/-- The state after an event, if the event is possible. -/
def step (app : App) : AppEvent → Option App
  | .receive n request limited =>
    match app.exchanges n with
    | some _ => none
    | none =>
      let admission := request.admission apiKey limited
      let exchange := ⟨request, limited, firstStage app.world.now admission⟩
      match startEvent n admission with
      | none => some (app.setStage n exchange exchange.stage)
      | some e => (app.world.step H e).map fun world =>
          setStage { app with world } n exchange exchange.stage
  | .world e =>
    if (World.started? e).isSome ∨ app.hasThrown e then none
    else (app.world.step H e).map fun world => { app with world }
  | .respond n =>
    match app.exchanges n, (app.world.calls n).bind Call.response? with
    | some ⟨request, limited, .calling⟩, some response =>
      some (app.setStage n ⟨request, limited, .calling⟩ (.answered response))
    | _, _ => none
  | .listed n rows =>
    match app.exchanges n with
    | some ⟨request, limited, .listing none total⟩ =>
      some (app.setStage n ⟨request, limited, .listing none total⟩
        (listStage request (some rows) total))
    | _ => none
  | .counted n =>
    match app.exchanges n with
    | some ⟨request, limited, .listing rows none⟩ =>
      some (app.setStage n ⟨request, limited, .listing rows none⟩
        (listStage request rows (some app.world.database.count)))
    | _ => none
  | .verified n rows =>
    match app.exchanges n with
    | some ⟨request, limited, .verifying⟩ =>
      some (app.setStage n ⟨request, limited, .verifying⟩
        (.answered (Response.success (verifyIntegrity H rows).toJson)))
    | _ => none
  | .exported n rows =>
    match app.exchanges n with
    | some ⟨request, limited, .exporting⟩ =>
      some (app.setStage n ⟨request, limited, .exporting⟩ (.answered (exportResponse rows)))
    | _ => none
  | .queryFailed n =>
    match app.exchanges n with
    | some ⟨request, limited, .listing rows total⟩ =>
      some (app.setStage n ⟨request, limited, .listing rows total⟩
        (.answered Response.globalErrorHandler))
    | some ⟨request, limited, .verifying⟩ =>
      some (app.setStage n ⟨request, limited, .verifying⟩ (.answered Response.globalErrorHandler))
    | some ⟨request, limited, .exporting⟩ =>
      some (app.setStage n ⟨request, limited, .exporting⟩ (.answered Response.globalErrorHandler))
    -- `findById` throws, and `getLogById` with it.
    | some ⟨request, limited, .calling⟩ =>
      match app.world.calls n with
      | some (.read _ .findingRow) =>
        some (app.setStage n ⟨request, limited, .calling⟩ (.answered Response.globalErrorHandler))
      | _ => none
    | _ => none
  | .probed n reachable =>
    match app.exchanges n with
    | some ⟨request, limited, .probing timestamp⟩ =>
      some (app.setStage n ⟨request, limited, .probing timestamp⟩
        (.answered (healthResponse timestamp reachable)))
    | _ => none

/-- What a step does, event by event. -/
inductive Step (app : App) : AppEvent → App → Prop
  | /-- A request that starts no call. -/
    received {n : ℕ} {request : Request} {limited : Bool} (hnew : app.exchanges n = none)
      (hnone : startEvent n (request.admission apiKey limited) = none) :
      Step app (.receive n request limited)
        (app.setStage n
          ⟨request, limited, firstStage app.world.now (request.admission apiKey limited)⟩
          (firstStage app.world.now (request.admission apiKey limited)))
  | /-- A request that starts a call. -/
    started {n : ℕ} {request : Request} {limited : Bool} {e : Event} {world : World}
      (hnew : app.exchanges n = none)
      (hstart : startEvent n (request.admission apiKey limited) = some e)
      (hworld : app.world.step H e = some world) :
      Step app (.receive n request limited)
        (setStage { app with world } n
          ⟨request, limited, firstStage app.world.now (request.admission apiKey limited)⟩
          (firstStage app.world.now (request.admission apiKey limited)))
  | world {e : Event} {world : World} (hstarted : World.started? e = none)
      (hthrown : app.hasThrown e = false) (hworld : app.world.step H e = some world) :
      Step app (.world e) { app with world }
  | respond {n : ℕ} {request : Request} {limited : Bool} {call : Call} {response : Response}
      (hexchange : app.exchanges n = some ⟨request, limited, .calling⟩)
      (hcall : app.world.calls n = some call) (hresponse : call.response? = some response) :
      Step app (.respond n)
        (app.setStage n ⟨request, limited, .calling⟩ (.answered response))
  | listed {n : ℕ} {request : Request} {limited : Bool} {rows : List Row} {total : Option ℕ}
      (hexchange : app.exchanges n = some ⟨request, limited, .listing none total⟩) :
      Step app (.listed n rows) (app.setStage n ⟨request, limited, .listing none total⟩
        (listStage request (some rows) total))
  | counted {n : ℕ} {request : Request} {limited : Bool} {rows : Option (List Row)}
      (hexchange : app.exchanges n = some ⟨request, limited, .listing rows none⟩) :
      Step app (.counted n) (app.setStage n ⟨request, limited, .listing rows none⟩
        (listStage request rows (some app.world.database.count)))
  | verified {n : ℕ} {request : Request} {limited : Bool} {rows : List Row}
      (hexchange : app.exchanges n = some ⟨request, limited, .verifying⟩) :
      Step app (.verified n rows) (app.setStage n ⟨request, limited, .verifying⟩
        (.answered (Response.success (verifyIntegrity H rows).toJson)))
  | exported {n : ℕ} {request : Request} {limited : Bool} {rows : List Row}
      (hexchange : app.exchanges n = some ⟨request, limited, .exporting⟩) :
      Step app (.exported n rows) (app.setStage n ⟨request, limited, .exporting⟩
        (.answered (exportResponse rows)))
  | queryFailed {n : ℕ} {request : Request} {limited : Bool} {stage : ExchangeStage}
      (hexchange : app.exchanges n = some ⟨request, limited, stage⟩)
      (hquery : stage.isQuery = true) :
      Step app (.queryFailed n) (app.setStage n ⟨request, limited, stage⟩
        (.answered Response.globalErrorHandler))
  | readFailed {n : ℕ} {request : Request} {limited : Bool} {id : JsString}
      (hexchange : app.exchanges n = some ⟨request, limited, .calling⟩)
      (hcall : app.world.calls n = some (.read id .findingRow)) :
      Step app (.queryFailed n) (app.setStage n ⟨request, limited, .calling⟩
        (.answered Response.globalErrorHandler))
  | probed {n : ℕ} {request : Request} {limited : Bool} {timestamp : JsDate} {reachable : Bool}
      (hexchange : app.exchanges n = some ⟨request, limited, .probing timestamp⟩) :
      Step app (.probed n reachable) (app.setStage n ⟨request, limited, .probing timestamp⟩
        (.answered (healthResponse timestamp reachable)))

variable {H apiKey}

/-- The step function does what `Step` says. -/
theorem Step.of_step {app t : App} {e : AppEvent} (hstep : app.step H apiKey e = some t) :
    Step H apiKey app e t := by
  cases e with
  | receive n request limited =>
    simp only [step] at hstep
    split at hstep
    case h_1 => cases hstep
    case h_2 hnew =>
      split at hstep
      case h_1 hnone =>
        cases hstep
        exact .received hnew hnone
      case h_2 e hstart =>
        obtain ⟨world, hworld, rfl⟩ := Option.map_eq_some_iff.mp hstep
        exact .started hnew hstart hworld
  | world e =>
    simp only [step, Option.ite_none_left_eq_some] at hstep
    obtain ⟨hquiet, hmap⟩ := hstep
    obtain ⟨hstarted, hthrown⟩ := not_or.mp hquiet
    obtain ⟨world, hworld, rfl⟩ := Option.map_eq_some_iff.mp hmap
    exact .world (by simpa using hstarted) (by simpa using hthrown) hworld
  | respond n =>
    simp only [step] at hstep
    split at hstep <;> cases hstep
    case h_1 hexchange hbind =>
      obtain ⟨call, hcall, hresponse⟩ := Option.bind_eq_some_iff.mp hbind
      exact .respond hexchange hcall hresponse
  | listed n rows =>
    simp only [step] at hstep
    split at hstep <;> cases hstep
    exact .listed ‹_›
  | counted n =>
    simp only [step] at hstep
    split at hstep <;> cases hstep
    exact .counted ‹_›
  | verified n rows =>
    simp only [step] at hstep
    split at hstep <;> cases hstep
    exact .verified ‹_›
  | exported n rows =>
    simp only [step] at hstep
    split at hstep <;> cases hstep
    exact .exported ‹_›
  | queryFailed n =>
    simp only [step] at hstep
    split at hstep
    case h_4 hexchange =>
      split at hstep <;> cases hstep
      exact .readFailed hexchange ‹_›
    case h_5 => cases hstep
    all_goals
      cases hstep
      exact .queryFailed ‹_› rfl
  | probed n reachable =>
    simp only [step] at hstep
    split at hstep <;> cases hstep
    exact .probed ‹_›

/-- What `Step` says, the step function does. -/
theorem Step.step_eq {app t : App} {e : AppEvent} (hstep : Step H apiKey app e t) :
    app.step H apiKey e = some t := by
  cases hstep with
  | received hnew hnone => simp only [step, hnew, hnone]
  | started hnew hstart hworld => simp only [step, hnew, hstart, hworld, Option.map_some]
  | world hstarted hthrown hworld => simp [step, hstarted, hthrown, hworld]
  | respond hexchange hcall hresponse =>
    simp only [step, hexchange, hcall, Option.bind_some, hresponse]
  | readFailed hexchange hcall => simp only [step, hexchange, hcall]
  | listed hexchange | counted hexchange | verified hexchange | exported hexchange
  | probed hexchange => simp only [step, hexchange]
  | @queryFailed n request limited stage hexchange hquery =>
    cases stage with
    | listing | verifying | exporting => simp only [step, hexchange]
    | calling | probing | answered => cases hquery

end App

end TamperEvidentLog.Service
