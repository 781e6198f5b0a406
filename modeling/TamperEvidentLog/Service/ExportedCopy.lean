/-
# The copy that a client takes away

`GET /api/export` and `GET /api/logs` send entries as JSON. A client that parses
the text has records whose dates are texts and whose payloads have been arranged
anew, and nothing of the database. This copy is as good as the rows for
verification: walking it finds the same chain or the same fault at the same entry.

So an export that was asked for after an entry had been confirmed is evidence of
that entry which no later change of the table can touch.
-/

import TamperEvidentLog.Service.AppReads
import TamperEvidentLog.Service.Payload

namespace TamperEvidentLog.Service

open TamperEvidentLog.Text TamperEvidentLog.Time TamperEvidentLog.Crypto
open TamperEvidentLog.Protocol

variable {H : Digest} {apiKey : JsString}

/-! ## Records that are checked alike -/

/-- Two records with the same links and the same hashes for every hash before
them. -/
structure CheckedAlike (H : Digest) (first second : Entry) : Prop where
  /-- The identifier, which a fault names. -/
  id : first.id = second.id
  /-- The hash of the record before it. -/
  previousHash : first.previousHash = second.previousHash
  /-- Its own hash. -/
  currentHash : first.currentHash = second.currentHash
  /-- The recomputed hash. -/
  hash : ∀ previousHash, generateHash H (first.hashData previousHash) =
    generateHash H (second.hashData previousHash)

/-- What a client parses is checked like the row. -/
theorem checkedAlike_decoded (row : Row) : CheckedAlike H row.asEntry.decoded row.asEntry where
  id := rfl
  previousHash := rfl
  currentHash := rfl
  hash := fun _ => congrArg (fun text => H.hex (utf8 text)) (hashInput_decoded row _)

/-- One check, behind records that are checked alike. -/
theorem CheckedAlike.checkEntry_eq {first second : Entry} (halike : CheckedAlike H first second)
    {prior prior' : Option Entry}
    (hprior : prior.map LogEntry.currentHash = prior'.map LogEntry.currentHash) :
    checkEntry H prior first = checkEntry H prior' second := by
  have hcheck (previousHash : JsString) :
      checkHash H previousHash first = checkHash H previousHash second := by
    rw [checkHash, checkHash, halike.hash, halike.id, halike.currentHash]
  cases prior with
  | none =>
    cases prior' with
    | none => rw [checkEntry, checkEntry, hcheck, halike.previousHash, halike.id]
    | some => cases hprior
  | some prior =>
    cases prior' with
    | none => cases hprior
    | some prior' =>
      have hhash : prior.currentHash = prior'.currentHash := Option.some.inj hprior
      rw [checkEntry, checkEntry, hcheck, halike.previousHash, halike.id, hhash]

/-- The loop over records that are checked alike. -/
theorem firstFault_eq_of_forall₂ {first second : List Entry}
    (halike : List.Forall₂ (CheckedAlike H) first second) {prior prior' : Option Entry}
    (hprior : prior.map LogEntry.currentHash = prior'.map LogEntry.currentHash) :
    firstFault H prior first = firstFault H prior' second := by
  induction halike generalizing prior prior' with
  | nil => rfl
  | @cons entry entry' first second hhead _ ih =>
    have hnext : (some entry).map LogEntry.currentHash = (some entry').map LogEntry.currentHash :=
      congrArg some hhead.currentHash
    rw [firstFault, firstFault, hhead.checkEntry_eq hprior, ih hnext]

/-- Lists of records that are checked alike verify alike. -/
theorem verifyEntireChain_eq_of_forall₂ {first second : List Entry}
    (halike : List.Forall₂ (CheckedAlike H) first second) :
    verifyEntireChain H first = verifyEntireChain H second := by
  rw [verifyEntireChain, verifyEntireChain, firstFault_eq_of_forall₂ halike rfl,
    halike.length_eq]

/-! ## The copy in a text -/

/-- The records in a response, as `JSON.parse` of its text gives them. -/
def entriesIn (text : JsString) : Option (List Entry) :=
  (((JsonValue.parse text).bind fun v => v.property (js "data")).bind JsonValue.items).bind
    fun items => items.mapM LogEntry.ofJson

/-- The text of a list of rows is parsed row by row. -/
theorem mapM_ofJson (rows : List Row) :
    (rows.map fun row => row.asEntry.toJson.ordered).mapM LogEntry.ofJson =
      some (rows.map fun row => row.asEntry.decoded) := by
  induction rows with
  | nil => rfl
  | cons row rows ih =>
    rw [List.map_cons, List.map_cons, List.mapM_cons, LogEntry.ofJson_ordered_toJson, ih]
    rfl

/-- A response whose data are rows. -/
theorem entriesIn_stringify (response : JsonValue) {rows : List Row}
    (hdata : response.json.property (js "data") =
      some (.array (rows.map fun row => row.asEntry.toJson.json))) :
    entriesIn response.stringify = some (rows.map fun row => row.asEntry.decoded) := by
  have hproperty : response.ordered.json.property (js "data") =
      some (.array ((rows.map fun row => row.asEntry.toJson.ordered).map JsonValue.json)) := by
    have hordered := Json.property_ordered response.uniqueKeys_json (js "data")
    rw [hdata, Option.map_some, Json.ordered_array, List.map_map] at hordered
    rw [List.map_map]
    exact hordered
  obtain ⟨value, hvalue, hjson⟩ : ∃ value : JsonValue,
      response.ordered.property (js "data") = some value ∧ value.json =
        .array ((rows.map fun row => row.asEntry.toJson.ordered).map JsonValue.json) :=
    ⟨⟨_, Json.uniqueKeys_of_property response.ordered.uniqueKeys_json hproperty⟩,
      JsonValue.property_eq_some hproperty, rfl⟩
  rw [entriesIn, JsonValue.parse_stringify, Option.bind_some, hvalue, Option.bind_some,
    JsonValue.items_eq_some hjson, Option.bind_some, mapM_ofJson]

/-- What a client parses verifies like the rows. -/
theorem verifyEntireChain_decoded (rows : List Row) :
    verifyEntireChain H (rows.map fun row => row.asEntry.decoded) = verifyIntegrity H rows := by
  refine verifyEntireChain_eq_of_forall₂ ?_
  rw [List.forall₂_map_left_iff, List.forall₂_map_right_iff, List.forall₂_same]
  exact fun row _ => checkedAlike_decoded row

theorem uniqueKeys_exportResponse (rows : List Row) :
    (exportResponse rows).body.uniqueKeys = true := by
  refine uniqueKeys_success (Json.uniqueKeys_array.mpr fun j hj => ?_)
  obtain ⟨row, _, rfl⟩ := List.mem_map.mp hj
  exact row.asEntry.toJson.uniqueKeys_json

theorem entriesIn_exportResponse (rows : List Row) :
    entriesIn (exportResponse rows).body.stringify =
      some (rows.map fun row => row.asEntry.decoded) :=
  entriesIn_stringify ⟨_, uniqueKeys_exportResponse rows⟩ rfl

/-- **An export is as good as its rows.** Whatever the rows are, in whatever state of
the table they were read and whatever filter selected them: a client that parses the
text of the export and walks the records comes to the result that the service
comes to on the rows, the fault and its place included. -/
theorem export_verifies_like_rows (rows : List Row) :
    ∃ entries, entriesIn (exportResponse rows).body.stringify = some entries ∧
      entries.length = rows.length ∧ verifyEntireChain H entries = verifyIntegrity H rows :=
  ⟨_, entriesIn_exportResponse rows, List.length_map _, verifyEntireChain_decoded rows⟩

/-! ## Exports of a running service -/

/-- Without a filter the export is the whole table. -/
theorem exportAsJson_iff_findAllOrdered {rollsOver : Bool} {db : Database} {rows : List Row} :
    ExportAsJson rollsOver db ⟨none, none, none⟩ (some rows) ↔ db.FindAllOrdered rows := by
  have hall : db.entries.filter (ExportFilter.toWhere rollsOver ⟨none, none, none⟩).selects =
      db.entries := List.filter_eq_self.mpr fun _ _ => rfl
  rw [ExportAsJson, Database.FindFiltered, hall]
  exact and_iff_right rfl

namespace App

/-- **An export is evidence.** In surroundings as assumed and with entries committed
in the order of their time stamps: once a `POST /api/log` has been answered with
`201`, every export without a filter that is asked for later holds, as a client
parses it, a log that verifies, that is a first part of the log as it goes on and
that has the posted entry in it; only if its query throws it is answered with
`500`. -/
theorem export_is_evidence {rollsOver : Bool} {now : JsDate} {before after : List AppEvent}
    {s app : App} {n n' : ℕ} {request : Request} {limited : Bool} {posted exported : Exchange}
    {response response' : Response}
    (hbefore : Run (step H apiKey) (InOrder apiKey rollsOver) (start now) before s)
    (hposted : s.exchanges n = some posted) (hanswered : posted.stage = .answered response)
    (hcreated : response.statusCode = HttpStatus.created)
    (hafter : Run (step H apiKey) (InOrder apiKey rollsOver) s
      (.receive n' request limited :: after) app)
    (hadmitted : request.admission apiKey limited = .exportAsJson ⟨none, none, none⟩)
    (hexported : app.exchanges n' = some exported)
    (hanswered' : exported.stage = .answered response') :
    (.queryFailed n' ∈ after ∧ response' = Response.globalErrorHandler) ∨
      ∃ rows row, entriesIn response'.body.stringify =
          some (rows.map fun row => row.asEntry.decoded) ∧
        verifyEntireChain H (rows.map fun row => row.asEntry.decoded) = .success rows.length ∧
        rows <+: app.world.log ∧ Posted apiKey posted row ∧ row.readBack ∈ rows := by
  let good (u : App) (r : Response) : Prop := ∃ rows, s.world.log <+: rows ∧ rows <+: u.world.log ∧
    r = exportResponse rows ∧ verifyIntegrity H rows = .success rows.length
  have hgood : (.queryFailed n' ∈ after ∧ response' = Response.globalErrorHandler) ∨
      good app response' := by
    refine answer_of_run (orderly_run hafter (orderly_of_run hbefore)) (by rw [hadmitted]; rfl)
      (.inr rfl) (fun u e t exchange r hallowed hstep hexchange hadmission hanswer => ?_)
      (fun u e t r hallowed hstep hgood => ?_) hexported hanswered'
    · obtain ⟨⟨horderly, hsince⟩, hallowed⟩ := hallowed
      obtain ⟨_, hgrows⟩ := orderly_of_step horderly hallowed hstep
      cases hanswer with
      | @exported rows =>
        have hrows := exportAsJson_iff_findAllOrdered.mp
          (hallowed.2 exchange _ hexchange (hadmission.trans hadmitted))
        have hverified := horderly.ordered.verifyIntegrity_eq horderly.consistent hrows
        obtain rfl : rows = u.world.log := horderly.ordered.eq_of_findAllOrdered hrows
        exact ⟨u.world.log, hsince, hgrows, rfl, hverified.trans (by rw [length_log])⟩
    · obtain ⟨_, hgrows⟩ := orderly_of_step hallowed.1.1 hallowed.2 hstep
      obtain ⟨rows, hsince, hpart, hr, hverified⟩ := hgood
      exact ⟨rows, hsince, hpart.trans hgrows, hr, hverified⟩
  refine hgood.imp_right fun hgood => ?_
  obtain ⟨rows, hsince, hpart, rfl, hverified⟩ := hgood
  have hworld : Run (World.step H) NoTampering (World.start now)
      (before.filterMap (toWorld apiKey)) s.world :=
    world_of_run hbefore fun _ _ hallowed e' he' =>
      World.not_isTamper_of_plainUse (hallowed.1 e' he').1
  obtain ⟨row, _, _, hop, hrow⟩ :=
    (coupled_of_run hbefore).exists_posted hworld hposted hanswered hcreated
  exact ⟨rows, row, entriesIn_exportResponse rows,
    (verifyEntireChain_decoded rows).trans hverified, hpart, hrow,
    hsince.subset (World.appendsLogged_of_run hworld _ _ _ _ hop)⟩

/-- An entry is posted and then the log is exported. -/
theorem export_is_evidence_of_one :
    ∃ s app events posted exported response,
      Run (step sha256 (js "key")) (InOrder (js "key") false) (start JsDate.epoch) postEvents s ∧
      Run (step sha256 (js "key")) (InOrder (js "key") false) s events app ∧
      s.exchanges 1 = some posted ∧ app.exchanges 2 = some exported ∧
      exported.stage = .answered response ∧
      ∃ rows row, entriesIn response.body.stringify =
          some (rows.map fun row => row.asEntry.decoded) ∧
        verifyEntireChain sha256 (rows.map fun row => row.asEntry.decoded) =
          .success rows.length ∧
        rows <+: app.world.log ∧ Posted (js "key") posted row ∧ row.readBack ∈ rows := by
  let request : Request := ⟨some (js "key"), some JsonValue.null, .exportLogs (.object [])⟩
  have hadmitted : request.admission (js "key") false = .exportAsJson ⟨none, none, none⟩ := rfl
  have hquery : startEvent 2 (request.admission (js "key") false) = none := rfl
  obtain ⟨s, hbefore, _, hcreated, hnew⟩ := exists_posted_inOrder
  obtain ⟨posted, response, hposted, hanswered, hstatus⟩ := exists_answered hcreated
  have hs : s.world.Orderly sha256 := orderly_of_run hbefore
  have hreceive : Step sha256 (js "key") s (.receive 2 request false)
      (s.setStage 2 ⟨request, false, .exporting⟩ .exporting) := .received hnew hquery
  have hexported : Step sha256 (js "key") (s.setStage 2 ⟨request, false, .exporting⟩ .exporting)
      (.exported 2 s.world.log) _ := .exported (exchanges_setStage_self ..)
  have hreads : InOrder (js "key") false (s.setStage 2 ⟨request, false, .exporting⟩ .exporting)
      (.exported 2 s.world.log) := by
    refine ⟨by simp [OnCalls, toWorld], fun exchange filter hexchange hfilter => ?_⟩
    rw [exchanges_setStage_self] at hexchange
    cases hexchange
    cases hadmitted.symm.trans hfilter
    exact exportAsJson_iff_findAllOrdered.mpr (findAllOrdered_log hs.ordered)
  have hafter :=
    (Run.single (inOrder_receive hquery) hreceive.step_eq).snoc hreads hexported.step_eq
  refine ⟨s, _, _, posted, _, _, hbefore, hafter, hposted, exchanges_setStage_self .., rfl, ?_⟩
  have hevidence := export_is_evidence hbefore hposted hanswered hstatus hafter hadmitted
    (exchanges_setStage_self ..) rfl
  exact hevidence.resolve_left fun hfailed => by simp at hfailed

end App

end TamperEvidentLog.Service
