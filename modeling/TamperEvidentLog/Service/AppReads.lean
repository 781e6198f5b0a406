/-
# What clients see of each other

Requests are served side by side, a read may be answered from the cache and a
verification takes the table as it finds it. Still a client that has been told of
an entry can rely on it: whoever asks for it afterwards gets that entry, and
whoever verifies afterwards gets a count that includes it.

Answers are compared as the text that is sent, because an entry from the cache has
been through `JSON.stringify` and `JSON.parse` once more.
-/

import TamperEvidentLog.Service.AppSafety

namespace TamperEvidentLog.Service

open TamperEvidentLog.Text TamperEvidentLog.Time TamperEvidentLog.Crypto
open TamperEvidentLog.Protocol

variable {H : Digest} {apiKey : JsString}

/-! ## What is found from a moment on -/

namespace World

/-- An entry of the log is found. -/
theorem Intact.answer_of_mem {w : World} (hw : w.Intact H) {entry : Row} (hentry : entry ∈ w.log) :
    AuditLog.answer H w.log entry.id =
      .found entry.asEntry (verificationStatus H entry.asEntry) := by
  have hids : (w.log.map LogEntry.id).Nodup := by
    rw [ids_log]
    exact (List.nodup_append.mp (List.map_append ▸ hw.keyed.1)).1
  have hfind : (w.log.find? fun row => row.id = entry.id) = some entry := by
    cases hfound : w.log.find? fun row => row.id = entry.id with
    | none =>
      have habsent := List.find?_eq_none.mp hfound entry hentry
      exact absurd (decide_eq_true rfl) habsent
    | some row =>
      have hid : row.id = entry.id := by simpa using List.find?_some hfound
      rw [List.inj_on_of_nodup_map hids (List.mem_of_find?_eq_some hfound) hentry hid]
  rw [AuditLog.answer, hfind]

/-- A read that is decided after a moment finds what was in the log then. -/
theorem Intact.found_of_run {s w : World} {events : List Event}
    (hrun : Run (step H) NoTampering s events w) (hs : s.Intact H) {c : ℕ} {entry : Row}
    (hentry : entry ∈ s.log) (hbefore : s.verdict H c = none) :
    w.Intact H ∧ ∀ given, w.verdict H c = some (entry.id, given) →
      given.Agrees (.found entry.asEntry (verificationStatus H entry.asEntry)) := by
  induction hrun with
  | nil => exact ⟨hs, by simp [hbefore]⟩
  | @snoc events u t e prior hallowed hstep ih =>
    obtain ⟨hu, hgiven⟩ := ih
    refine ⟨hu.of_step hallowed hstep, fun given hverdict => ?_⟩
    rcases verdict_of_step hu.faithful.owned hstep hverdict with hold | hdecides
    · exact hgiven given hold
    · have hmem := (log_prefix_of_run prior).subset hentry
      rw [← hu.answer_of_mem hmem, answer_log]
      exact hu.faithful.agrees hdecides

end World

/-! ## Answers that stay -/

/-- What is sent of a response. -/
def Response.sent (response : Response) : ℕ × JsString :=
  (response.statusCode, response.body.stringify)

/-- Of the data of a response its text is sent. -/
theorem Response.sent_success {data data' : Json} (htext : data.stringify = data'.stringify) :
    (Response.success data).sent = (Response.success data').sent := by
  refine congrArg (Prod.mk HttpStatus.ok) (Json.stringify_object_congr ?_)
  simp only [mapValues, List.map_cons, List.map_nil, htext]

/-- Entries with one text are sent in one text. -/
theorem sent_foundResponse {entry entry' : Entry} (status : Bool)
    (htext : entry.toJson.stringify = entry'.toJson.stringify) :
    (foundResponse entry status).sent = (foundResponse entry' status).sent := by
  refine Response.sent_success (Json.stringify_object_congr ?_)
  rw [JsonValue.stringify, JsonValue.stringify] at htext
  simp only [mapValues, List.map_cons, List.map_nil, htext]

namespace App

/-- An exchange that has been answered stays as it is. -/
theorem exchange_of_step {app t : App} {e : AppEvent} (hstep : app.step H apiKey e = some t)
    {n : ℕ} {exchange : Exchange} (hexchange : app.exchanges n = some exchange)
    (hanswered : exchange.stage.isAnswered = true) : t.exchanges n = some exchange := by
  have hother {w : World} {n' : ℕ} {exchange' : Exchange} {stage : ExchangeStage}
      (hne : app.exchanges n' ≠ some exchange) :
      (setStage { app with world := w } n' exchange' stage).exchanges n = some exchange := by
    rw [exchanges_setStage_of_ne]
    · exact hexchange
    · rintro rfl
      exact hne hexchange
  have hpending {n' : ℕ} {exchange' : Exchange} (hexchange' : app.exchanges n' = some exchange')
      (hstage : exchange'.stage.isAnswered = false) : app.exchanges n' ≠ some exchange := by
    rintro hsame
    cases hexchange'.symm.trans hsame
    rw [hstage] at hanswered
    cases hanswered
  cases Step.of_step hstep with
  | received hnew | started hnew => exact hother (by simp [hnew])
  | world => exact hexchange
  | respond hpend | listed hpend | counted hpend | verified hpend | exported hpend
  | readFailed hpend | probed hpend => exact hother (hpending hpend rfl)
  | @queryFailed n' request limited stage hpend hquery =>
    refine hother (hpending hpend ?_)
    cases stage with
    | answered => cases hquery
    | _ => rfl

/-- A step leaves a request as it arrived. -/
theorem admission_of_step {app t : App} {e : AppEvent} (hstep : app.step H apiKey e = some t)
    {n : ℕ} {exchange : Exchange} (hexchange : app.exchanges n = some exchange) :
    ∃ exchange', t.exchanges n = some exchange' ∧
      exchange'.admission apiKey = exchange.admission apiKey := by
  have hset {w : World} {n' : ℕ} {exchange' : Exchange} {stage : ExchangeStage}
      (hsame : n' = n → exchange'.admission apiKey = exchange.admission apiKey) :
      ∃ exchange'', (setStage { app with world := w } n' exchange' stage).exchanges n =
          some exchange'' ∧ exchange''.admission apiKey = exchange.admission apiKey := by
    by_cases hn : n = n'
    · subst hn
      exact ⟨_, exchanges_setStage_self .., hsame rfl⟩
    · exact ⟨exchange, by rw [exchanges_setStage_of_ne _ _ _ hn, hexchange], rfl⟩
  have hkept {n' : ℕ} {exchange' : Exchange} (hexchange' : app.exchanges n' = some exchange')
      (hn : n' = n) : exchange'.admission apiKey = exchange.admission apiKey := by
    subst hn
    cases hexchange.symm.trans hexchange'
    rfl
  have hfresh {n' : ℕ} (hnew : app.exchanges n' = none) (hn : n' = n) : False := by
    subst hn
    rw [hexchange] at hnew
    cases hnew
  cases Step.of_step hstep with
  | received hnew | started hnew => exact hset fun hn => (hfresh hnew hn).elim
  | world => exact ⟨exchange, hexchange, rfl⟩
  | respond hpend | listed hpend | counted hpend | verified hpend | exported hpend
  | readFailed hpend | probed hpend => exact hset (hkept hpend)
  | queryFailed hpend => exact hset (hkept hpend)

/-- A request is what it was when it arrived. -/
theorem admission_of_run {allowed : App → AppEvent → Prop} {s app : App} {n : ℕ}
    {request : Request} {limited : Bool} {later : List AppEvent}
    (hrun : Run (step H apiKey) allowed s (.receive n request limited :: later) app)
    {exchange : Exchange} (hexchange : app.exchanges n = some exchange) :
    exchange.admission apiKey = request.admission apiKey limited := by
  obtain ⟨t, _, hstep, hlater⟩ := hrun.cons_inv
  let arrived (u : App) : Prop := ∃ exchange', u.exchanges n = some exchange' ∧
    exchange'.admission apiKey = request.admission apiKey limited
  have hfirst : arrived t := by
    cases Step.of_step hstep with
    | received | started => exact ⟨_, exchanges_setStage_self .., rfl⟩
  have hinvariant : arrived app := by
    refine hlater.invariant hfirst fun u e v _ hstep hu => ?_
    obtain ⟨exchange', hexchange', hadmission⟩ := hu
    obtain ⟨exchange'', hexchange'', hsame⟩ := admission_of_step hstep hexchange'
    exact ⟨exchange'', hexchange'', hsame.trans hadmission⟩
  obtain ⟨exchange', hexchange', hadmission⟩ := hinvariant
  cases hexchange.symm.trans hexchange'
  exact hadmission

/-- A request that arrives is the first under its number. -/
theorem exchanges_eq_none_of_run {allowed : App → AppEvent → Prop} {s app : App} {n : ℕ}
    {request : Request} {limited : Bool} {later : List AppEvent}
    (hrun : Run (step H apiKey) allowed s (.receive n request limited :: later) app) :
    s.exchanges n = none := by
  obtain ⟨t, _, hstep, _⟩ := hrun.cons_inv
  cases Step.of_step hstep with
  | received hnew | started hnew => exact hnew

/-! ## Reading what was written -/

/-- The response that a call of `getLogById` has come to says what it found. -/
theorem verdict_of_response {w : World} {n : ℕ} {call : Call} {id : JsString}
    {response : Response} (hcall : w.calls n = some call)
    (hadmission : call.admission = .getLogById id) (hresponse : call.response? = some response) :
    ∃ given, w.verdict H n = some (id, given) ∧
      ∀ entry status, given = .found entry status → response = foundResponse entry status := by
  cases call with
  | create => cases hadmission
  | read id stage =>
    cases hadmission
    cases stage with
    | answered given =>
      refine ⟨given, by rw [World.verdict, hcall]; rfl, ?_⟩
      rintro entry status rfl
      exact (Option.some.inj hresponse).symm
    | _ => cases hresponse

/-- An exchange that waits for its call goes on waiting, its query throws, or it is
answered with what the call came to. -/
theorem calling_of_step {app t : App} {e : AppEvent} (hstep : app.step H apiKey e = some t)
    {n : ℕ} {exchange : Exchange} (hexchange : app.exchanges n = some exchange)
    (hcalling : exchange.stage = .calling) :
    t.exchanges n = some exchange ∨
      (e = .queryFailed n ∧
        t.exchanges n = some { exchange with stage := .answered Response.globalErrorHandler }) ∨
      ∃ call response, t.world.calls n = some call ∧ call.response? = some response ∧
        t.exchanges n = some { exchange with stage := .answered response } := by
  have hother {w : World} {n' : ℕ} {exchange' : Exchange} {stage : ExchangeStage} (hn : n' ≠ n) :
      (setStage { app with world := w } n' exchange' stage).exchanges n = some exchange := by
    rw [exchanges_setStage_of_ne _ _ _ hn.symm, hexchange]
  have hne {n' : ℕ} {exchange' : Exchange} (hexchange' : app.exchanges n' = some exchange')
      (hstage' : exchange'.stage ≠ .calling) : n' ≠ n := by
    rintro rfl
    cases hexchange'.symm.trans hexchange
    exact hstage' hcalling
  cases Step.of_step hstep with
  | received hnew | started hnew =>
    refine .inl (hother ?_)
    rintro rfl
    rw [hexchange] at hnew
    cases hnew
  | world => exact .inl hexchange
  | listed hpend | counted hpend | verified hpend | exported hpend | probed hpend =>
    exact .inl (hother (hne hpend (by simp)))
  | queryFailed hpend hquery =>
    refine .inl (hother (hne hpend ?_))
    rintro rfl
    cases hquery
  | @respond n' request limited call response hpend hcall hresponse =>
    by_cases hn : n' = n
    · subst hn
      cases hpend.symm.trans hexchange
      exact .inr (.inr ⟨call, response, hcall, hresponse, exchanges_setStage_self ..⟩)
    · exact .inl (hother hn)
  | @readFailed n' request limited id hpend =>
    by_cases hn : n' = n
    · subst hn
      cases hpend.symm.trans hexchange
      exact .inr (.inl ⟨rfl, exchanges_setStage_self ..⟩)
    · exact .inl (hother hn)

/-- What a call has come to stays so. -/
theorem response_of_step {app t : App} {e : AppEvent} (happ : app.Coupled H apiKey)
    (hstep : app.step H apiKey e = some t) {n : ℕ} {call : Call} {response : Response}
    (hcall : app.world.calls n = some call) (hresponse : call.response? = some response) :
    t.world.calls n = some call := by
  have hworld := world_of_step hstep
  cases himage : toWorld apiKey e with
  | none =>
    rw [himage, Option.elim_none] at hworld
    rw [hworld, hcall]
  | some e' =>
    rw [himage, Option.elim_some] at hworld
    rcases World.call_of_step happ.owned hworld n with hsame | ⟨call', hresumes, _⟩
    · rw [hsame, hcall]
    · rw [hresumes.response?_eq_none hcall] at hresponse
      cases hresponse

/-- A request that starts a call is answered with what the call comes to, unless a
query of it has thrown. -/
theorem responded_of_run {allowed : App → AppEvent → Prop} {s app : App} {n : ℕ}
    {request : Request} {limited : Bool} {later : List AppEvent}
    (hrun : Run (step H apiKey) allowed s (.receive n request limited :: later) app)
    (hs : s.Coupled H apiKey)
    (hcalls : firstStage s.world.now (request.admission apiKey limited) = .calling)
    {exchange : Exchange} {response : Response} (hexchange : app.exchanges n = some exchange)
    (hanswered : exchange.stage = .answered response) :
    (.queryFailed n ∈ later ∧ response = Response.globalErrorHandler) ∨
      ∃ call, app.world.calls n = some call ∧ call.response? = some response := by
  let settles (u : App) : Prop := u.Coupled H apiKey ∧ ∃ exchange', u.exchanges n = some exchange' ∧
    (exchange'.stage = .calling ∨ ∃ response', exchange'.stage = .answered response' ∧
      ((.queryFailed n ∈ later ∧ response' = Response.globalErrorHandler) ∨
        ∃ call, u.world.calls n = some call ∧ call.response? = some response'))
  obtain ⟨t, _, hstep, hlater⟩ := hrun.cons_inv
  have hfirst : settles t := by
    refine ⟨hs.of_step hstep, ?_⟩
    cases Step.of_step hstep with
    | received | started => exact ⟨_, exchanges_setStage_self .., .inl hcalls⟩
  have hlast : settles app := by
    refine hlater.restrict.invariant hfirst fun u e v hboth hstep hu => ?_
    obtain ⟨hcoupled, exchange', hexchange', hcalling | ⟨response', hstage', hgiven⟩⟩ := hu
    · refine ⟨hcoupled.of_step hstep, ?_⟩
      rcases calling_of_step hstep hexchange' hcalling with
        hsame | ⟨rfl, hthrown⟩ | ⟨call, r, hcall, hresponse, hr⟩
      · exact ⟨exchange', hsame, .inl hcalling⟩
      · exact ⟨_, hthrown, .inr ⟨_, rfl, .inl ⟨hboth.1, rfl⟩⟩⟩
      · exact ⟨_, hr, .inr ⟨r, rfl, .inr ⟨call, hcall, hresponse⟩⟩⟩
    · refine ⟨hcoupled.of_step hstep, exchange',
        exchange_of_step hstep hexchange' (by rw [hstage']; rfl), .inr ⟨response', hstage', ?_⟩⟩
      refine hgiven.imp_right fun ⟨call, hcall, hresponse⟩ => ?_
      exact ⟨call, response_of_step hcoupled hstep hcall hresponse, hresponse⟩
  obtain ⟨_, exchange', hexchange', hend⟩ := hlast
  cases hexchange.symm.trans hexchange'
  rcases hend with hcalling | ⟨response', hstage', hgiven⟩
  · cases hanswered.symm.trans hcalling
  · cases hanswered.symm.trans hstage'
    exact hgiven

/-- A `201` is that of a `POST /api/log` whose entry has been appended. -/
theorem Coupled.exists_posted {allowed : World → Event → Prop} {now : JsDate}
    {events : List Event} {app : App} (happ : app.Coupled H apiKey)
    (hrun : Run (World.step H) allowed (World.start now) events app.world) {n : ℕ}
    {exchange : Exchange} {response : Response} (hexchange : app.exchanges n = some exchange)
    (hanswered : exchange.stage = .answered response)
    (hcreated : response.statusCode = HttpStatus.created) :
    ∃ row dto createdAt, app.world.operation H n = some (.append dto createdAt row.readBack) ∧
      Posted apiKey exchange row := by
  have hfits := (happ.paired n).fits exchange hexchange
  rw [hanswered] at hfits
  obtain ⟨call, hcall, hresponse⟩ :=
    hfits.exists_created (fun hdoor => Request.statusCode_ne_created hdoor) hcreated
  obtain ⟨dto, createdAt, entry, hop⟩ := World.append_of_created hcall hresponse hcreated
    fun id error hread => World.failed_of_run hrun hread
  obtain ⟨row, _, _, rfl, hrow⟩ := World.row_of_append hrun hop
  obtain ⟨exchange', hexchange', hposted⟩ := happ.posted hop hrow
  cases hexchange.symm.trans hexchange'
  exact ⟨row, dto, createdAt, hop, hposted⟩

/-- **What was written is read.** While nobody tampers: once a `POST /api/log` has
been answered with `201`, every `GET /api/log/:id` for its entry that arrives later
is answered with that entry, as the column returns it, and its verdict, be it from
the cache or the table; only if its query throws it is answered with `500`. -/
theorem reads_own_writes {now : JsDate} {before after : List AppEvent} {s app : App} {n n' : ℕ}
    {request : Request} {limited : Bool} {posted got : Exchange} {response response' : Response}
    (hbefore : Run (step H apiKey) (OnCalls apiKey NoTampering) (start now) before s)
    (hposted : s.exchanges n = some posted) (hanswered : posted.stage = .answered response)
    (hcreated : response.statusCode = HttpStatus.created)
    (hafter : Run (step H apiKey) (OnCalls apiKey NoTampering) s
      (.receive n' request limited :: after) app)
    (hgot : app.exchanges n' = some got) (hanswered' : got.stage = .answered response') :
    ∃ row : Row, Posted apiKey posted row ∧
      (request.admission apiKey limited = .getLogById row.id →
        (.queryFailed n' ∈ after ∧ response' = Response.globalErrorHandler) ∨
          response'.sent = (foundResponse row.readBack.asEntry
            (verificationStatus H row.readBack.asEntry)).sent) := by
  have hs := coupled_of_run hbefore
  have happ := coupled_of_run (hbefore.append hafter)
  have hworld : Run (World.step H) NoTampering (World.start now)
      (before.filterMap (toWorld apiKey)) s.world :=
    world_of_run hbefore fun _ _ hallowed => hallowed
  have hlater := world_of_run hafter fun _ _ hallowed => hallowed
  obtain ⟨row, dto, createdAt, hop, hrow⟩ := hs.exists_posted hworld hposted hanswered hcreated
  refine ⟨row, hrow, fun hadmitted => ?_⟩
  -- The later request has no call yet.
  have hnone : s.world.verdict H n' = none := by
    rw [World.verdict]
    cases hcalled : s.world.calls n' with
    | none => rfl
    | some call =>
      obtain ⟨exchange, hexchange, _⟩ := (hs.paired n').called call hcalled
      rw [exchanges_eq_none_of_run hafter] at hexchange
      cases hexchange
  rcases responded_of_run hafter hs (by rw [hadmitted]; rfl) hgot hanswered' with
    hfailed | ⟨call, hcall, hresponse⟩
  · exact .inl hfailed
  · obtain ⟨got', hgot', hadmission⟩ := (happ.paired n').called call hcall
    rw [admission_of_run hafter hgot', hadmitted] at hadmission
    obtain ⟨given, hverdict, hagree⟩ := verdict_of_response hcall hadmission.symm hresponse
    have hagrees := ((World.intact_of_run hworld).found_of_run hlater
      (World.appendsLogged_of_run hworld _ _ _ _ hop) hnone).2 given hverdict
    cases given with
    | found entry' status =>
      obtain ⟨htext, rfl⟩ := hagrees
      rw [hagree entry' _ rfl]
      exact .inr (sent_foundResponse _ htext)
    | failed => exact hagrees.elim

/-- The identifier in the response to a `POST /api/log`. -/
def createdId? (app : App) (n : ℕ) : Option JsString :=
  match (app.exchanges n).map Exchange.stage with
  | some (.answered response) =>
    match (response.body.property (js "data")).bind fun data => data.property (js "id") with
    | some (.string id) => some id
    | _ => none
  | _ => none

theorem createdId?_eq {app : App} {n : ℕ} {exchange : Exchange} {row : Row}
    (hexchange : app.exchanges n = some exchange)
    (hstage : exchange.stage = .answered (Response.created row.readBack.asEntry.toJson.json)) :
    app.createdId? n = some row.id := by
  rw [createdId?, hexchange, Option.map_some, hstage]
  rfl

/-- A read of the entry `1` that misses the cache. -/
def getEvents : List AppEvent :=
  [.receive 2 ⟨some (js "key"), some JsonValue.null, .getLogById (js " 1 ")⟩ false] ++
    [Event.getReply 2 true, Event.findById 2, Event.setReply 2 false].map AppEvent.world ++
    [.respond 2]

theorem reads_own_writes_of_one :
    ∃ s app, ∃ row : Row, ∃ posted got response,
      Run (step sha256 (js "key")) (OnCalls (js "key") NoTampering) (start JsDate.epoch)
        postEvents s ∧
      Run (step sha256 (js "key")) (OnCalls (js "key") NoTampering) s getEvents app ∧
      Posted (js "key") posted row ∧ app.exchanges 2 = some got ∧
      got.stage = .answered response ∧
      response.sent = (foundResponse row.readBack.asEntry
        (verificationStatus sha256 row.readBack.asEntry)).sent := by
  have hexecute : (execute (step sha256 (js "key")) (OnCalls (js "key") NoTampering)
      (start JsDate.epoch) postEvents).any (fun s => decide (s.statusCode? 1 = some 201 ∧
        s.createdId? 1 = some (js "1")) &&
        (execute (step sha256 (js "key")) (OnCalls (js "key") NoTampering) s getEvents).any
          fun app => decide (app.statusCode? 2 = some 200)) = true := by
    decide +kernel
  obtain ⟨s, hbefore, hcheck⟩ := Run.exists_of_execute hexecute
  obtain ⟨hposted, hlater⟩ := (Bool.and_eq_true _ _).mp hcheck
  obtain ⟨hcreated, hid⟩ := of_decide_eq_true hposted
  obtain ⟨app, hafter, hgot⟩ := Run.exists_of_execute hlater
  obtain ⟨posted, response, hexchange, hanswered, hstatus⟩ := exists_answered hcreated
  obtain ⟨got, response', hexchange', hanswered', hstatus'⟩ :=
    exists_answered (of_decide_eq_true hgot)
  obtain ⟨row, hrow, hreads⟩ :=
    reads_own_writes hbefore hexchange hanswered hstatus hafter hexchange' hanswered'
  rw [hrow.answered response hanswered] at hanswered
  have hentry : row.id = js "1" :=
    Option.some.inj ((createdId?_eq hexchange hanswered).symm.trans hid)
  refine ⟨s, app, row, posted, got, response', hbefore, hafter, hrow, hexchange', hanswered', ?_⟩
  rcases hreads (by rw [hentry]; rfl) with ⟨_, hfailed⟩ | hsent
  · rw [hfailed] at hstatus'
    cases hstatus'
  · exact hsent

/-! ## Answers from one query -/

/-- The event answers exchange `n` from what its query returns. -/
inductive Answers (H : Digest) (n : ℕ) : ExchangeStage → AppEvent → Response → Prop
  | verified {rows : List Row} : Answers H n .verifying (.verified n rows)
      (Response.success (verifyIntegrity H rows).toJson)
  | exported {rows : List Row} : Answers H n .exporting (.exported n rows) (exportResponse rows)

/-- An exchange that waits for its query goes on waiting, its query throws, or it is
answered from it. -/
theorem pending_of_step {app t : App} {e : AppEvent} (hstep : app.step H apiKey e = some t)
    {n : ℕ} {exchange : Exchange} (hexchange : app.exchanges n = some exchange)
    (hpending : exchange.stage.IsPending) :
    t.exchanges n = some exchange ∨
      (e = .queryFailed n ∧
        t.exchanges n = some { exchange with stage := .answered Response.globalErrorHandler }) ∨
      ∃ response, Answers H n exchange.stage e response ∧
        t.exchanges n = some { exchange with stage := .answered response } := by
  have hother {w : World} {n' : ℕ} {exchange' : Exchange} {stage : ExchangeStage} (hn : n' ≠ n) :
      (setStage { app with world := w } n' exchange' stage).exchanges n = some exchange := by
    rw [exchanges_setStage_of_ne _ _ _ hn.symm, hexchange]
  have hne {n' : ℕ} {exchange' : Exchange} (hexchange' : app.exchanges n' = some exchange')
      (hstage' : ¬ exchange'.stage.IsPending) : n' ≠ n := by
    rintro rfl
    cases hexchange'.symm.trans hexchange
    exact hstage' hpending
  cases Step.of_step hstep with
  | received hnew | started hnew =>
    refine .inl (hother ?_)
    rintro rfl
    rw [hexchange] at hnew
    cases hnew
  | world => exact .inl hexchange
  | respond hpend | listed hpend | counted hpend | readFailed hpend | probed hpend =>
    exact .inl (hother (hne hpend (by simp [ExchangeStage.IsPending])))
  | @verified n' request limited rows hpend =>
    by_cases hn : n' = n
    · subst hn
      cases hpend.symm.trans hexchange
      exact .inr (.inr ⟨_, .verified, exchanges_setStage_self ..⟩)
    · exact .inl (hother hn)
  | @exported n' request limited rows hpend =>
    by_cases hn : n' = n
    · subst hn
      cases hpend.symm.trans hexchange
      exact .inr (.inr ⟨_, .exported, exchanges_setStage_self ..⟩)
    · exact .inl (hother hn)
  | @queryFailed n' request limited stage hpend =>
    by_cases hn : n' = n
    · subst hn
      cases hpend.symm.trans hexchange
      exact .inr (.inl ⟨rfl, exchanges_setStage_self ..⟩)
    · exact .inl (hother hn)

/-- **One query, one moment.** What holds of every answer at the moment of its query
and keeps holding is true of the answer in the end, unless the query has thrown. -/
theorem answer_of_run {allowed : App → AppEvent → Prop} {good : App → Response → Prop}
    {s app : App} {n : ℕ} {request : Request} {limited : Bool} {later : List AppEvent}
    {stage : ExchangeStage}
    (hrun : Run (step H apiKey) allowed s (.receive n request limited :: later) app)
    (hstage : firstStage s.world.now (request.admission apiKey limited) = stage)
    (hpending : stage.IsPending)
    (hanswers : ∀ u e t exchange response, allowed u e → u.step H apiKey e = some t →
      u.exchanges n = some exchange → exchange.admission apiKey = request.admission apiKey limited →
      Answers H n stage e response → good t response)
    (hkept : ∀ u e t response, allowed u e → u.step H apiKey e = some t → good u response →
      good t response)
    {exchange : Exchange} {response : Response} (hexchange : app.exchanges n = some exchange)
    (hanswered : exchange.stage = .answered response) :
    (.queryFailed n ∈ later ∧ response = Response.globalErrorHandler) ∨ good app response := by
  let settles (u : App) : Prop := ∃ exchange', u.exchanges n = some exchange' ∧
    exchange'.admission apiKey = request.admission apiKey limited ∧
    (exchange'.stage = stage ∨ ∃ response', exchange'.stage = .answered response' ∧
      ((.queryFailed n ∈ later ∧ response' = Response.globalErrorHandler) ∨ good u response'))
  obtain ⟨t, hallowed, hstep, hlater⟩ := hrun.cons_inv
  have hfirst : settles t := by
    cases Step.of_step hstep with
    | received | started => exact ⟨_, exchanges_setStage_self .., rfl, .inl hstage⟩
  have hlast : settles app := by
    refine hlater.restrict.invariant hfirst fun u e v hboth hstep hu => ?_
    obtain ⟨hmem, hallowed⟩ := hboth
    obtain ⟨exchange', hexchange', hadmission, rfl | ⟨response', hstage', hgood⟩⟩ := hu
    · rcases pending_of_step hstep hexchange' hpending with
        hsame | ⟨rfl, hthrown⟩ | ⟨r, hanswer, hr⟩
      · exact ⟨exchange', hsame, hadmission, .inl rfl⟩
      · exact ⟨_, hthrown, hadmission, .inr ⟨_, rfl, .inl ⟨hmem, rfl⟩⟩⟩
      · exact ⟨_, hr, hadmission, .inr ⟨r, rfl, .inr
          (hanswers u e v exchange' r hallowed hstep hexchange' hadmission hanswer)⟩⟩
    · refine ⟨exchange', exchange_of_step hstep hexchange' (by rw [hstage']; rfl), hadmission,
        .inr ⟨response', hstage', ?_⟩⟩
      exact hgood.imp_right (hkept u e v response' hallowed hstep)
  obtain ⟨exchange', hexchange', _, hend⟩ := hlast
  cases hexchange.symm.trans hexchange'
  rcases hend with rfl | ⟨response', hstage', hgood⟩
  · rw [hanswered] at hpending
    simp [ExchangeStage.IsPending] at hpending
  · cases hanswered.symm.trans hstage'
    exact hgood

/-! ## Verifying what was written -/

/-- What the queries that answer an exchange return is what is in the table. -/
def ReadsTable (apiKey : JsString) (rollsOver : Bool) (app : App) : AppEvent → Prop
  | .verified _ rows => app.world.database.FindAllOrdered rows
  | .exported n rows => ∀ exchange filter, app.exchanges n = some exchange →
      exchange.admission apiKey = .exportAsJson filter →
      ExportAsJson rollsOver app.world.database filter (some rows)
  | _ => True

/-- The surroundings are as assumed, entries are committed in the order of their
time stamps and the queries read the table. -/
def InOrder (apiKey : JsString) (rollsOver : Bool) (app : App) (e : AppEvent) : Prop :=
  OnCalls apiKey (fun w e => PlainUse w e ∧ CommitsInOrder w e) app e ∧
    app.ReadsTable apiKey rollsOver e

/-- A step in such surroundings. -/
theorem orderly_of_step {rollsOver : Bool} {app t : App} {e : AppEvent}
    (happ : app.world.Orderly H) (hallowed : InOrder apiKey rollsOver app e)
    (hstep : app.step H apiKey e = some t) : t.world.Orderly H ∧ app.world.log <+: t.world.log := by
  have hworld := world_of_step hstep
  cases himage : toWorld apiKey e with
  | none =>
    rw [himage, Option.elim_none] at hworld
    rw [hworld]
    exact ⟨happ, List.prefix_refl _⟩
  | some e' =>
    rw [himage, Option.elim_some] at hworld
    obtain ⟨hplain, horder⟩ := hallowed.1 e' himage
    exact ⟨happ.of_step hplain horder hworld,
      World.log_prefix_of_step (World.not_isTamper_of_plainUse hplain) hworld⟩

/-- Every event of a run in such surroundings finds the system in order. -/
theorem orderly_run {rollsOver : Bool} {s app : App} {events : List AppEvent}
    (hrun : Run (step H apiKey) (InOrder apiKey rollsOver) s events app)
    (hs : s.world.Orderly H) :
    Run (step H apiKey) (fun u e => (u.world.Orderly H ∧ s.world.log <+: u.world.log) ∧
      InOrder apiKey rollsOver u e) s events app := by
  refine hrun.strengthen ⟨hs, List.prefix_refl _⟩ fun u e v hallowed hstep hu => ?_
  obtain ⟨hv, hgrows⟩ := orderly_of_step hu.1 hallowed hstep
  exact ⟨hv, hu.2.trans hgrows⟩

/-- The system after such a run. -/
theorem orderly_of_run {rollsOver : Bool} {now : JsDate} {events : List AppEvent} {app : App}
    (hrun : Run (step H apiKey) (InOrder apiKey rollsOver) (start now) events app) :
    app.world.Orderly H :=
  hrun.invariant (World.orderly_start now) fun _ _ _ hallowed hstep hu =>
    (orderly_of_step hu hallowed hstep).1

theorem length_log (w : World) : w.log.length = w.database.entries.length := List.length_map _

/-- **Verification counts what was written.** In surroundings as assumed and with
entries committed in the order of their time stamps: a `GET /api/verify` is
answered with success, and the entries that it counts are those of a moment
between the arrival of the request and the answer; only if its query throws it is
answered with `500`. -/
theorem verification_counts_writes {rollsOver : Bool} {now : JsDate}
    {before after : List AppEvent} {s app : App} {n : ℕ} {request : Request} {limited : Bool}
    {exchange : Exchange} {response : Response}
    (hbefore : Run (step H apiKey) (InOrder apiKey rollsOver) (start now) before s)
    (hafter : Run (step H apiKey) (InOrder apiKey rollsOver) s
      (.receive n request limited :: after) app)
    (hadmitted : request.admission apiKey limited = .verifyIntegrity)
    (hexchange : app.exchanges n = some exchange)
    (hanswered : exchange.stage = .answered response) :
    (.queryFailed n ∈ after ∧ response = Response.globalErrorHandler) ∨
      ∃ k, s.world.log.length ≤ k ∧ k ≤ app.world.log.length ∧
        response = Response.success (VerificationResult.success k).toJson := by
  let good (u : App) (r : Response) : Prop := ∃ k, s.world.log.length ≤ k ∧
    k ≤ u.world.log.length ∧ r = Response.success (VerificationResult.success k).toJson
  have hanswers (u : App) (e : AppEvent) (t : App) (r : Response)
      (hallowed : (u.world.Orderly H ∧ s.world.log <+: u.world.log) ∧
        InOrder apiKey rollsOver u e)
      (hstep : u.step H apiKey e = some t) (hanswer : Answers H n .verifying e r) : good t r := by
    obtain ⟨_, hgrows⟩ := orderly_of_step hallowed.1.1 hallowed.2 hstep
    cases hanswer with
    | verified =>
      have horderly := hallowed.1.1
      refine ⟨u.world.log.length, hallowed.1.2.length_le, hgrows.length_le, ?_⟩
      rw [length_log, horderly.ordered.verifyIntegrity_eq horderly.consistent hallowed.2.2]
  refine answer_of_run (orderly_run hafter (orderly_of_run hbefore)) (by rw [hadmitted]; rfl)
    (.inl rfl) (fun u e t _ r hallowed hstep _ _ => hanswers u e t r hallowed hstep)
    (fun u e t r hallowed hstep hgood => ?_) hexchange hanswered
  obtain ⟨_, hgrows⟩ := orderly_of_step hallowed.1.1 hallowed.2 hstep
  obtain ⟨k, hfirst, hlast, hr⟩ := hgood
  exact ⟨k, hfirst, hlast.trans hgrows.length_le, hr⟩

/-- The rows of the table in the order of their commits answer the query. -/
theorem findAllOrdered_log {w : World} (hw : w.database.Ordered) :
    w.database.FindAllOrdered w.log :=
  ⟨List.Perm.refl _, List.pairwise_map.mpr (hw.ascending.imp fun hlt => hlt.le)⟩

/-- A request that calls no service may always arrive. -/
theorem inOrder_receive {rollsOver : Bool} {app : App} {n : ℕ} {request : Request} {limited : Bool}
    (hquery : startEvent n (request.admission apiKey limited) = none) :
    InOrder apiKey rollsOver app (.receive n request limited) := by
  refine ⟨fun e' he' => ?_, trivial⟩
  rw [toWorld, hquery] at he'
  cases he'

theorem exists_posted_inOrder :
    ∃ s, Run (step sha256 (js "key")) (InOrder (js "key") false) (start JsDate.epoch) postEvents s ∧
      s.world.log.length = 1 ∧ s.statusCode? 1 = some 201 ∧ s.exchanges 2 = none := by
  have hexecute : (execute (step sha256 (js "key"))
      (OnCalls (js "key") fun w e => PlainUse w e ∧ CommitsInOrder w e) (start JsDate.epoch)
      postEvents).any (fun s => decide (s.world.log.length = 1 ∧ s.statusCode? 1 = some 201 ∧
        (s.exchanges 2).isNone = true)) = true := by
    decide +kernel
  obtain ⟨s, hrun, hcheck⟩ := Run.exists_of_execute hexecute
  obtain ⟨hlength, hcreated, hnew⟩ := of_decide_eq_true hcheck
  have hreads : ∀ e ∈ postEvents, ∀ u : App, u.ReadsTable (js "key") false e := by
    simp [postEvents, World.appendEvents, ReadsTable]
  exact ⟨s, hrun.restrict.mono fun u e hallowed => ⟨hallowed.2, hreads e hallowed.1 u⟩, hlength,
    hcreated, Option.isNone_iff_eq_none.mp hnew⟩

/-- An entry is posted and then the log is verified. -/
theorem verification_counts_writes_of_one :
    ∃ s app events exchange,
      Run (step sha256 (js "key")) (InOrder (js "key") false) (start JsDate.epoch) postEvents s ∧
      Run (step sha256 (js "key")) (InOrder (js "key") false) s events app ∧
      app.world.log.length = 1 ∧ app.exchanges 2 = some exchange ∧
      exchange.stage = .answered (Response.success (VerificationResult.success 1).toJson) := by
  let request : Request := ⟨some (js "key"), some JsonValue.null, .verifyLog⟩
  have hadmitted : request.admission (js "key") false = .verifyIntegrity := rfl
  have hquery : startEvent 2 (request.admission (js "key") false) = none := rfl
  obtain ⟨s, hbefore, hlength, _, hnew⟩ := exists_posted_inOrder
  have hs : s.world.Orderly sha256 := orderly_of_run hbefore
  have hreceive : Step sha256 (js "key") s (.receive 2 request false)
      (s.setStage 2 ⟨request, false, .verifying⟩ .verifying) := .received hnew hquery
  have hverified : Step sha256 (js "key") (s.setStage 2 ⟨request, false, .verifying⟩ .verifying)
      (.verified 2 s.world.log) _ := .verified (exchanges_setStage_self ..)
  have hreads : InOrder (js "key") false (s.setStage 2 ⟨request, false, .verifying⟩ .verifying)
      (.verified 2 s.world.log) :=
    ⟨by simp [OnCalls, toWorld], findAllOrdered_log hs.ordered⟩
  have hafter :=
    (Run.single (inOrder_receive hquery) hreceive.step_eq).snoc hreads hverified.step_eq
  refine ⟨s, _, _, _, hbefore, hafter, hlength, exchanges_setStage_self .., ?_⟩
  rcases verification_counts_writes hbefore hafter hadmitted (exchanges_setStage_self ..) rfl with
    ⟨hfailed, _⟩ | ⟨k, hlow, hhigh, hcount⟩
  · simp at hfailed
  · obtain rfl : k = 1 := Nat.le_antisymm (hhigh.trans hlength.le) (hlength.ge.trans hlow)
    exact congrArg ExchangeStage.answered hcount

end App

end TamperEvidentLog.Service
