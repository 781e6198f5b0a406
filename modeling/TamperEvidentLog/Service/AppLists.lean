/-
# What a list request gets

`GET /api/logs` asks the database for the rows of a page and for the number of all
rows, side by side and without a transaction around the two. Entries may be
committed while it waits, so the page and the total may belong to different
moments. And the page comes as two texts, from which the number of rows to skip is
computed in floating point.

Where that number is exact, every response is still made of the log alone: the page
that was asked for as it stood at one moment of the exchange, and the length of the
log at another.
-/

import TamperEvidentLog.Service.AppReads

namespace TamperEvidentLog.Service

open TamperEvidentLog.Text TamperEvidentLog.Time TamperEvidentLog.Crypto
open TamperEvidentLog.Protocol

variable {H : Digest} {apiKey : JsString} {query : LogQuery} {low n : ℕ}
  {threw : Prop}

/-- The page that a query asks for, of the log when it had so many entries. -/
def LogQuery.pageOf (query : LogQuery) (log : List Row) (shown : ℕ) : List Row :=
  window query.requested.1 query.requested.2 (log.take shown)

/-! ## The stages of a list request -/

/-- How a list request stands that arrived when the log had `low` entries; whether a
query of it may have thrown is `threw`. -/
inductive Lists (query : LogQuery) (low : ℕ) (threw : Prop) (log : List Row) :
    ExchangeStage → Prop
  | /-- What its queries have returned was so at a moment since then. -/
    listing {rows : Option (List Row)} {total : Option ℕ}
      (hrows : ∀ page ∈ rows, ∃ shown, low ≤ shown ∧ shown ≤ log.length ∧
        page = query.pageOf log shown)
      (htotal : ∀ counted ∈ total, low ≤ counted ∧ counted ≤ log.length) :
      Lists query low threw log (.listing rows total)
  | /-- A query has thrown. -/
    failed (hthrew : threw) : Lists query low threw log (.answered Response.globalErrorHandler)
  | /-- It has been answered from both. -/
    answered {shown counted : ℕ} (hshown : low ≤ shown ∧ shown ≤ log.length)
      (hcounted : low ≤ counted ∧ counted ≤ log.length) :
      Lists query low threw log (.answered (listResponse query (query.pageOf log shown) counted))

/-- An earlier page is a page of the longer log too. -/
theorem LogQuery.pageOf_of_isPrefix {log log' : List Row} (hgrown : log <+: log') {shown : ℕ}
    (hshown : shown ≤ log.length) : query.pageOf log' shown = query.pageOf log shown := by
  obtain ⟨rest, rfl⟩ := hgrown
  rw [pageOf, pageOf, List.take_append_of_le_length hshown]

theorem Lists.mono {log log' : List Row} {stage : ExchangeStage}
    (hstage : Lists query low threw log stage) (hgrown : log <+: log') :
    Lists query low threw log' stage := by
  have hlength := hgrown.length_le
  cases hstage with
  | listing hrows htotal =>
    refine .listing (fun page hpage => ?_) fun counted hcounted => ?_
    · obtain ⟨shown, hlow, hhigh, rfl⟩ := hrows page hpage
      exact ⟨shown, hlow, hhigh.trans hlength, (LogQuery.pageOf_of_isPrefix hgrown hhigh).symm⟩
    · exact ⟨(htotal counted hcounted).1, (htotal counted hcounted).2.trans hlength⟩
  | failed hthrew => exact .failed hthrew
  | answered hshown hcounted =>
    rw [← LogQuery.pageOf_of_isPrefix hgrown hshown.2]
    exact .answered ⟨hshown.1, hshown.2.trans hlength⟩ ⟨hcounted.1, hcounted.2.trans hlength⟩

/-- One of the two queries has returned. -/
theorem Lists.listStage {log : List Row} {request : Request} {rows : Option (List Row)}
    {total : Option ℕ} (hroute : request.route = .getLogs query)
    (hstage : Lists query low threw log (.listing rows total)) :
    Lists query low threw log (App.listStage request rows total) := by
  cases hstage with
  | listing hrows htotal =>
    cases rows with
    | none =>
      simp only [App.listStage, hroute]
      exact .listing hrows htotal
    | some page =>
      cases total with
      | none =>
        simp only [App.listStage, hroute]
        exact .listing hrows htotal
      | some counted =>
        obtain ⟨shown, hlow, hhigh, rfl⟩ := hrows page rfl
        simp only [App.listStage, hroute]
        exact .answered ⟨hlow, hhigh⟩ (htotal counted rfl)

namespace App

/-! ## The two queries -/

/-- What `findAll` returns is in the table, behind as many rows as the query comes
to. -/
def ReadsPage (apiKey : JsString) (app : App) : AppEvent → Prop
  | .listed n rows => ∀ (exchange : Exchange) (query : LogQuery) (skip : ℕ),
      app.exchanges n = some exchange → exchange.admission apiKey = .getAllLogEntries query →
      query.skip.finiteValue = some (skip : ℤ) →
      ∃ all, app.world.database.FindAllOrdered all ∧
        rows = (all.drop skip).take query.requested.2
  | _ => True

/-- The surroundings of `InOrder`, with pages read from the table. -/
def PagesInOrder (apiKey : JsString) (rollsOver : Bool) (app : App) (e : AppEvent) : Prop :=
  InOrder apiKey rollsOver app e ∧ app.ReadsPage apiKey e

/-- A page is a page of the log at this moment. -/
theorem page_of_listed {app : App} {rows : List Row} (hworld : app.world.Orderly H)
    (hreads : app.ReadsPage apiKey (.listed n rows)) {exchange : Exchange}
    (hexchange : app.exchanges n = some exchange)
    (hadmission : exchange.admission apiKey = .getAllLogEntries query)
    (hreach : (query.requested.1 - 1) * query.requested.2 < 2 ^ 53) :
    rows = query.pageOf app.world.log app.world.log.length := by
  obtain ⟨all, hall, hrows⟩ :=
    hreads exchange query _ hexchange hadmission (LogQuery.exact_of_lt hreach).2
  rw [hrows, hworld.ordered.eq_of_findAllOrdered hall, LogQuery.pageOf, List.take_length]
  rfl

/-- **The step.** -/
theorem lists_of_step {rollsOver : Bool} {app t : App} {e : AppEvent}
    (hworld : app.world.Orderly H) (hlow : low ≤ app.world.log.length)
    (hreach : (query.requested.1 - 1) * query.requested.2 < 2 ^ 53)
    (hallowed : PagesInOrder apiKey rollsOver app e) (hstep : app.step H apiKey e = some t)
    (hthrew : e = .queryFailed n → threw)
    {exchange : Exchange} (hexchange : app.exchanges n = some exchange)
    (hadmission : exchange.admission apiKey = .getAllLogEntries query)
    (hstage : Lists query low threw app.world.log exchange.stage) :
    ∃ exchange', t.exchanges n = some exchange' ∧
      exchange'.admission apiKey = .getAllLogEntries query ∧
      Lists query low threw t.world.log exchange'.stage := by
  have hgrows := (orderly_of_step hworld hallowed.1 hstep).2
  have hroute : exchange.request.route = .getLogs query := Request.route_of_admission hadmission
  have hkept (hsame : t.exchanges n = some exchange) : ∃ exchange', t.exchanges n = some exchange' ∧
      exchange'.admission apiKey = .getAllLogEntries query ∧
      Lists query low threw t.world.log exchange'.stage :=
    ⟨exchange, hsame, hadmission, hstage.mono hgrows⟩
  have hother {w : World} {n' : ℕ} {exchange' : Exchange} {stage : ExchangeStage} (hn : n' ≠ n) :
      (setStage { app with world := w } n' exchange' stage).exchanges n = some exchange := by
    rw [exchanges_setStage_of_ne _ _ _ hn.symm, hexchange]
  -- An event of exchange `n'` that moves it from one stage to another.
  have hmoves {n' : ℕ} {exchange' : Exchange} {stage : ExchangeStage}
      (hpend : app.exchanges n' = some exchange') (ht : t = app.setStage n' exchange' stage)
      (hnew : n' = n → exchange' = exchange → Lists query low threw app.world.log stage) :
      ∃ exchange'', t.exchanges n = some exchange'' ∧
        exchange''.admission apiKey = .getAllLogEntries query ∧
        Lists query low threw t.world.log exchange''.stage := by
    by_cases hn : n' = n
    · subst hn
      obtain rfl := Option.some.inj (hpend.symm.trans hexchange)
      have hlists := hnew rfl rfl
      rw [ht]
      exact ⟨_, exchanges_setStage_self .., hadmission, hlists⟩
    · exact hkept (ht ▸ hother hn)
  have hnone (hnew : app.exchanges n = none) : False := by
    rw [hexchange] at hnew
    cases hnew
  cases Step.of_step hstep with
  | received hnew | started hnew =>
    refine hkept (hother ?_)
    rintro rfl
    exact hnone hnew
  | world => exact hkept hexchange
  | respond hpend | verified hpend | exported hpend | readFailed hpend | probed hpend =>
    refine hmoves hpend rfl ?_
    rintro rfl rfl
    cases hstage
  | @listed n' request limited rows total hpend =>
    refine hmoves hpend rfl ?_
    rintro rfl rfl
    have hpage := page_of_listed hworld hallowed.2 hexchange hadmission hreach
    refine Lists.listStage hroute ?_
    cases hstage with
    | listing _ htotal =>
      refine .listing (fun page hmem => ⟨app.world.log.length, hlow, le_rfl, ?_⟩) htotal
      cases hmem
      exact hpage
  | @counted n' request limited rows hpend =>
    refine hmoves hpend rfl ?_
    rintro rfl rfl
    refine Lists.listStage hroute ?_
    cases hstage with
    | listing hrows _ =>
      refine .listing hrows fun counted hmem => ?_
      cases hmem
      rw [Database.count, ← length_log]
      exact ⟨hlow, le_rfl⟩
  | queryFailed hpend =>
    refine hmoves hpend rfl ?_
    rintro rfl rfl
    exact .failed (hthrew rfl)

/-- **A list is made of the log.** In surroundings as assumed and with entries
committed in the order of their time stamps, a `GET /api/logs` with fewer than
`2 ^ 53` rows in front of its page is answered with the page that the log had at
one moment between the arrival of the request and the answer and with the number
of entries that it had at another; only if a query throws it is answered with
`500`. -/
theorem list_shows_moments {rollsOver : Bool} {now : JsDate} {before after : List AppEvent}
    {s app : App} {request : Request} {limited : Bool} {exchange : Exchange} {response : Response}
    (hbefore : Run (step H apiKey) (PagesInOrder apiKey rollsOver) (start now) before s)
    (hafter : Run (step H apiKey) (PagesInOrder apiKey rollsOver) s
      (.receive n request limited :: after) app)
    (hadmitted : request.admission apiKey limited = .getAllLogEntries query)
    (hreach : (query.requested.1 - 1) * query.requested.2 < 2 ^ 53)
    (hexchange : app.exchanges n = some exchange)
    (hanswered : exchange.stage = .answered response) :
    (.queryFailed n ∈ after ∧ response = Response.globalErrorHandler) ∨ ∃ shown counted,
      (s.world.log.length ≤ shown ∧ shown ≤ app.world.log.length) ∧
      (s.world.log.length ≤ counted ∧ counted ≤ app.world.log.length) ∧
      response = listResponse query (query.pageOf app.world.log shown) counted := by
  let inv (u : App) : Prop := (u.world.Orderly H ∧ s.world.log.length ≤ u.world.log.length) ∧
    ∃ exchange', u.exchanges n = some exchange' ∧
      exchange'.admission apiKey = .getAllLogEntries query ∧
      Lists query s.world.log.length (.queryFailed n ∈ after) u.world.log exchange'.stage
  obtain ⟨t, hallowed, hstep, hlater⟩ := hafter.cons_inv
  have hs : s.world.Orderly H := orderly_of_run (hbefore.mono fun _ _ hboth => hboth.1)
  have hfirst : inv t := by
    obtain ⟨ht, hgrows⟩ := orderly_of_step hs hallowed.1 hstep
    refine ⟨⟨ht, hgrows.length_le⟩, ?_⟩
    cases Step.of_step hstep with
    | received | started =>
      refine ⟨_, exchanges_setStage_self .., hadmitted, ?_⟩
      rw [hadmitted]
      exact .listing (by simp) (by simp)
  have hlast : inv app := by
    refine hlater.restrict.invariant hfirst fun u e v hboth hstep hu => ?_
    obtain ⟨hmem, hallowed⟩ := hboth
    obtain ⟨⟨hworld, hlow⟩, exchange', hexchange', hadmission, hstage⟩ := hu
    obtain ⟨hv, hgrows⟩ := orderly_of_step hworld hallowed.1 hstep
    exact ⟨⟨hv, hlow.trans hgrows.length_le⟩,
      lists_of_step hworld hlow hreach hallowed hstep (fun he => he ▸ hmem) hexchange' hadmission
        hstage⟩
  obtain ⟨_, exchange', hexchange', _, hstage⟩ := hlast
  obtain rfl := Option.some.inj (hexchange'.symm.trans hexchange)
  rw [hanswered] at hstage
  cases hstage with
  | failed hthrew => exact .inl ⟨hthrew, rfl⟩
  | answered hshown hcounted => exact .inr ⟨_, _, hshown, hcounted, rfl⟩

/-- The first page, as the query means it, is in the table. -/
theorem readsPage_log {app : App} (hworld : app.world.database.Ordered) {exchange : Exchange}
    (hexchange : app.exchanges n = some exchange)
    (hadmission : exchange.admission apiKey = .getAllLogEntries query)
    (hreach : (query.requested.1 - 1) * query.requested.2 < 2 ^ 53) :
    app.ReadsPage apiKey (.listed n (query.pageOf app.world.log app.world.log.length)) := by
  intro exchange' query' skip hexchange' hadmission' hskip
  obtain rfl := Option.some.inj (hexchange'.symm.trans hexchange)
  cases hadmission'.symm.trans hadmission
  rw [(LogQuery.exact_of_lt hreach).2, Option.some_inj, Nat.cast_inj] at hskip
  refine ⟨app.world.log, findAllOrdered_log hworld, ?_⟩
  rw [← hskip, LogQuery.pageOf, List.take_length]
  rfl

/-- An entry is posted and then the first page is listed, its rows after their
number. -/
theorem list_shows_moments_of_one :
    ∃ s app events query exchange,
      Run (step sha256 (js "key")) (PagesInOrder (js "key") false) (start JsDate.epoch)
        postEvents s ∧
      Run (step sha256 (js "key")) (PagesInOrder (js "key") false) s events app ∧
      app.world.log.length = 1 ∧ app.exchanges 2 = some exchange ∧
      exchange.stage = .answered (listResponse query (query.pageOf app.world.log 1) 1) := by
  let query : LogQuery := ⟨.text (js "1"), .absent⟩
  let request : Request := ⟨some (js "key"), some JsonValue.null, .getLogs query⟩
  have hadmitted : request.admission (js "key") false = .getAllLogEntries query := rfl
  have hquery : startEvent 2 (request.admission (js "key") false) = none := rfl
  have hreach : (query.requested.1 - 1) * query.requested.2 < 2 ^ 53 := by decide +kernel
  obtain ⟨s, hposted, hlength, _, hnew⟩ := exists_posted_inOrder
  have hpages : ∀ e ∈ postEvents, ∀ u : App, u.ReadsPage (js "key") e := by
    simp [postEvents, World.appendEvents, ReadsPage]
  have hbefore := hposted.restrict.mono fun u e hallowed =>
    (⟨hallowed.2, hpages e hallowed.1 u⟩ : PagesInOrder (js "key") false u e)
  have hs : s.world.Orderly sha256 := orderly_of_run hposted
  let arrived := s.setStage 2 ⟨request, false, .listing none none⟩ (.listing none none)
  let counted := arrived.setStage 2 ⟨request, false, .listing none none⟩
    (listStage request none (some s.world.database.count))
  have hreceive : Step sha256 (js "key") s (.receive 2 request false) arrived :=
    .received hnew hquery
  have hcounted : Step sha256 (js "key") arrived (.counted 2) counted :=
    .counted (exchanges_setStage_self ..)
  have hlisted : Step sha256 (js "key") counted
      (.listed 2 (query.pageOf s.world.log s.world.log.length)) _ :=
    .listed (exchanges_setStage_self ..)
  have harrives : PagesInOrder (js "key") false s (.receive 2 request false) :=
    ⟨inOrder_receive hquery, trivial⟩
  have hcounts : PagesInOrder (js "key") false arrived (.counted 2) :=
    ⟨⟨by simp [OnCalls, toWorld], trivial⟩, trivial⟩
  have hpage : counted.ReadsPage (js "key")
      (.listed 2 (query.pageOf s.world.log s.world.log.length)) :=
    readsPage_log hs.ordered (exchanges_setStage_self ..) hadmitted hreach
  have hreads : PagesInOrder (js "key") false counted
      (.listed 2 (query.pageOf s.world.log s.world.log.length)) :=
    ⟨⟨by simp [OnCalls, toWorld], trivial⟩, hpage⟩
  have hafter := ((Run.single harrives hreceive.step_eq).snoc hcounts hcounted.step_eq).snoc hreads
    hlisted.step_eq
  refine ⟨s, _, _, query, _, hbefore, hafter, hlength, exchanges_setStage_self .., ?_⟩
  rcases list_shows_moments hbefore hafter hadmitted hreach (exchanges_setStage_self ..) rfl with
    ⟨hfailed, _⟩ | ⟨shown, total, ⟨hlow, hhigh⟩, ⟨hlow', hhigh'⟩, hresponse⟩
  · simp at hfailed
  · obtain rfl : shown = 1 := Nat.le_antisymm (hhigh.trans hlength.le) (hlength.ge.trans hlow)
    obtain rfl : total = 1 := Nat.le_antisymm (hhigh'.trans hlength.le) (hlength.ge.trans hlow')
    exact congrArg ExchangeStage.answered hresponse

end App

end TamperEvidentLog.Service
