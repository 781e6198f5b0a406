/-
# Answers from the cache

`getLogById` answers from a JSON text under the entry's key if Redis has one, and
otherwise from the row, whose text it then stores. What comes back from a text is
the entry with its date as a string and its payload in enumeration order; the
hash of that copy is computed from the same bytes, so its verdict is the row's.

A call decides at one read: the cache hit, or `findById` after a miss. While rows
do not change, every cached text encodes the row that is there, and the answer is
the one PostgreSQL would give at that moment. When rows are changed behind the
service's back, a cached text still encodes a row that was there once.
-/

import TamperEvidentLog.Service.ChainIntegrity

namespace TamperEvidentLog.Service

open TamperEvidentLog.Text TamperEvidentLog.Time TamperEvidentLog.Crypto
open TamperEvidentLog.Protocol

variable {H : Digest}

/-! ## The copy in the cache -/

/-- The copy of a row is hashed from the same text. -/
theorem hashInput_decoded (row : Row) (previousHash : JsString) :
    hashInput (row.asEntry.decoded.hashData previousHash) =
      hashInput (row.asEntry.hashData previousHash) := by
  have htruthy : (Timestamp.text row.createdAt.toISOString).isTruthy = true := by
    simpa [Timestamp.isTruthy] using row.createdAt.toISOString_ne_nil
  have hts : stampText (row.asEntry.decoded.hashData previousHash).ts =
      row.createdAt.toISOString := by
    change stampText (if (Timestamp.text row.createdAt.toISOString).isTruthy = true then
      some (.text row.createdAt.toISOString) else none) = _
    rw [if_pos htruthy]
    rfl
  have hpayload : payloadText (row.asEntry.decoded.hashData previousHash).payload =
      payloadText (row.asEntry.hashData previousHash).payload := by
    rw [payloadText_eq_stringify, payloadText_eq_stringify]
    exact row.payload.stringify_ordered
  rw [hashInput, hashInput, hpayload, hts]
  rfl

/-- The copy verifies exactly when the row does. -/
theorem verificationStatus_decoded (row : Row) :
    verificationStatus H row.asEntry.decoded = verificationStatus H row.asEntry := by
  have hhash : generateHash H
      (row.asEntry.decoded.hashData row.asEntry.decoded.resolvedPreviousHash) =
      generateHash H (row.asEntry.hashData row.asEntry.resolvedPreviousHash) :=
    congrArg (fun text => H.hex (utf8 text)) (hashInput_decoded row _)
  exact congrArg (row.currentHash == ·) hhash

/-! ## Deciding reads -/

/-- What PostgreSQL alone would answer. -/
def postgresAnswer (H : Digest) (db : Database) (id : JsString) : Answer :=
  match db.findById id with
  | none => .failed logEntryNotFound
  | some row => .found row.asEntry (verificationStatus H row.asEntry)

theorem findById_of_postgresAnswer {db : Database} {id : JsString} {entry : Entry} {status : Bool}
    (hanswer : postgresAnswer H db id = .found entry status) :
    ∃ row, db.findById id = some row ∧ entry = row.asEntry ∧
      status = verificationStatus H row.asEntry := by
  rw [postgresAnswer] at hanswer
  split at hanswer
  case h_1 => cases hanswer
  case h_2 row hrow =>
    obtain ⟨rfl, rfl⟩ := Answer.found.inj hanswer
    exact ⟨row, hrow, rfl, rfl⟩

/-- Does the answer say that the entry verified? -/
def Answer.isVerified : Answer → Bool
  | found _ status => status
  | failed _ => false

theorem Answer.isVerified_iff {answer : Answer} :
    answer.isVerified = true ↔ ∃ entry, answer = .found entry true := by
  cases answer with
  | found entry status => simp [isVerified]
  | failed error => simp [isVerified]

/-- The same response: the same entry as JSON with the same verdict, or the same
error. -/
def Answer.Agrees : Answer → Answer → Prop
  | found entry status, found entry' status' =>
    entry.toJson.stringify = entry'.toJson.stringify ∧ status = status'
  | failed error, failed error' => error = error'
  | _, _ => False

theorem Answer.agrees_refl (answer : Answer) : answer.Agrees answer := by
  cases answer with
  | found => exact ⟨rfl, rfl⟩
  | failed => exact Eq.refl _

namespace World

/-- A hit answers with the entry that the cached text holds. -/
theorem cacheHit_cases {w : World} {id : JsString} {resolved : Bool} {stage : ReadStage}
    (hstage : w.cacheHit H id resolved = some stage) :
    stage = .findingRow ∨ resolved = true ∧ ∃ text entry, w.redis (logKey id) = some text ∧
      LogEntry.decode text = some entry ∧
      stage = .answered (.found entry (verificationStatus H entry)) := by
  rw [cacheHit] at hstage
  split at hstage
  case h_1 =>
    cases hstage
    exact .inl rfl
  case h_2 text htext =>
    split at htext
    case isFalse => cases htext
    case isTrue hresolved =>
      split at hstage
      case h_1 =>
        cases hstage
        exact .inl rfl
      case h_2 v hparse =>
        obtain ⟨entry, hentry, rfl⟩ := Option.map_eq_some_iff.mp hstage
        refine .inr ⟨hresolved, text, entry, htext, ?_, rfl⟩
        rw [LogEntry.decode, hparse]
        exact hentry

end World

/-- What a call asked for and answered, if it has. -/
def Call.answer? : Call → Option (JsString × Answer)
  | read id (.answered answer) => some (id, answer)
  | _ => none

/-- The answer that a call has settled on, with the identifier it asked for. -/
def Call.verdict (H : Digest) : Call → Option (JsString × Answer)
  | read id (.settingCache row) => some (id, .found row.asEntry (verificationStatus H row.asEntry))
  | read id (.answered answer) => some (id, answer)
  | _ => none

namespace World

/-- The query settles the answer, also when the row is still to be cached. -/
theorem verdict_rowFound (w : World) (id : JsString) :
    (Call.read id (w.rowFound id)).verdict H = some (id, postgresAnswer H w.database id) := by
  unfold rowFound postgresAnswer
  cases w.database.findById id <;> rfl

/-- What call `c` asked for and answered, if it has. -/
def answer? (w : World) (c : ℕ) : Option (JsString × Answer) := (w.calls c).bind Call.answer?

theorem answer?_eq_some_iff {w : World} {c : ℕ} {id : JsString} {answer : Answer} :
    w.answer? c = some (id, answer) ↔ w.calls c = some (.read id (.answered answer)) := by
  rw [answer?, Option.bind_eq_some_iff]
  constructor
  · rintro ⟨call, hcall, hanswer⟩
    rw [hcall]
    unfold Call.answer? at hanswer
    split at hanswer <;> cases hanswer
    rfl
  · exact fun hcall => ⟨_, hcall, rfl⟩

/-- The answer that call `c` has settled on. -/
def verdict (H : Digest) (w : World) (c : ℕ) : Option (JsString × Answer) :=
  (w.calls c).bind (Call.verdict H)

/-- The read at which call `c` settles on its answer: a hit in the cache, or the
query after a miss. -/
inductive Decides (H : Digest) (w : World) (c : ℕ) (id : JsString) (answer : Answer) : Event → Prop
  | hit {text : JsString} {entry : Entry} (hcall : w.calls c = some (.read id .gettingCache))
      (htext : w.redis (logKey id) = some text) (hentry : LogEntry.decode text = some entry)
      (hanswer : answer = .found entry (verificationStatus H entry)) :
      Decides H w c id answer (.getReply c true)
  | query (hcall : w.calls c = some (.read id .findingRow))
      (hanswer : answer = postgresAnswer H w.database id) : Decides H w c id answer (.findById c)

/-- A verdict is old or was just reached by a deciding read. -/
theorem verdict_of_step {w t : World} {e : Event} (hw : w.Owned) (hstep : w.step H e = some t)
    {c : ℕ} {id : JsString} {answer : Answer} (hverdict : t.verdict H c = some (id, answer)) :
    w.verdict H c = some (id, answer) ∨ w.Decides H c id answer e := by
  rcases call_of_step hw hstep c with hsame | ⟨call, hresumes, hcall⟩
  · rw [verdict, hsame] at hverdict
    exact .inl hverdict
  · rw [verdict, hcall, Option.bind_some] at hverdict
    cases hresumes with
    | getReply hgetting _ hstage =>
      rcases cacheHit_cases hstage with rfl | ⟨rfl, text, entry, htext, hentry, rfl⟩
      · cases hverdict
      · cases hverdict
        exact .inr (.hit hgetting htext hentry rfl)
    | findById hfinding =>
      rw [verdict_rowFound, Option.some.injEq, Prod.mk.injEq] at hverdict
      obtain ⟨rfl, rfl⟩ := hverdict
      exact .inr (.query hfinding rfl)
    | setReply hsetting =>
      rw [verdict, hsetting]
      exact .inl hverdict
    | _ => cases hverdict

/-- The moment a call with a verdict reached it. -/
theorem exists_decides {allowed : World → Event → Prop} {now : JsDate} {events : List Event}
    {w : World} (hrun : Run (step H) allowed (start now) events w) {c : ℕ} {id : JsString}
    {answer : Answer} (hverdict : w.verdict H c = some (id, answer)) :
    ∃ before e after s s', events = before ++ e :: after ∧
      Run (step H) allowed (start now) before s ∧ s.step H e = some s' ∧
      Run (step H) allowed s' after w ∧ s.Decides H c id answer e := by
  let settled (s : World) : Prop := s.verdict H c = some (id, answer)
  have hstart : ¬ settled (start now) := by
    simp [settled, verdict, start]
  have hend : settled w := hverdict
  obtain ⟨before, after, e, s, s', hevents, hbefore, _, hstep, hafter, hno, hyes⟩ :=
    hrun.exists_change hstart hend
  exact ⟨before, e, after, s, s', hevents, hbefore, hstep, hafter,
    (verdict_of_step (owned_of_run hbefore) hstep hyes).resolve_left hno⟩

/-! ## What a cached text encodes -/

/-- A text under an entry's key is old or the row of a call that stores it. -/
theorem redis_of_step {w t : World} {e : Event} (hstep : w.step H e = some t) {id text : JsString}
    (htext : t.redis (logKey id) = some text) :
    w.redis (logKey id) = some text ∨
      ∃ c row, w.calls c = some (.read id (.settingCache row)) ∧ text = row.asEntry.encode := by
  have hstore {stored : Bool} {key value : JsString}
      (h : (w.store stored key value).redis (logKey id) = some text) :
      w.redis (logKey id) = some text ∨ logKey id = key ∧ text = value := by
    unfold store at h
    split at h
    case isTrue =>
      change Function.update w.redis key (some value) (logKey id) = some text at h
      rw [Function.update_apply] at h
      split at h
      case isTrue hkey => exact .inr ⟨hkey, (Option.some.inj h).symm⟩
      case isFalse => exact .inl h
    case isFalse => exact .inl h
  cases Step.of_step hstep with
  | setLatestReply =>
    rcases hstore htext with hold | ⟨hkey, _⟩
    · exact .inl hold
    · exact absurd hkey (logKey_ne_latestLogKey id)
  | setReply hcall =>
    rcases hstore htext with hold | ⟨hkey, hvalue⟩
    · exact .inl hold
    · rw [← logKey_injective hkey] at hcall
      exact .inr ⟨_, _, hcall, hvalue⟩
  | expire =>
    apply Or.inl
    change Function.update w.redis _ none (logKey id) = some text at htext
    rw [Function.update_apply] at htext
    split at htext
    · cases htext
    · exact htext
  | enqueueReply =>
    rw [redis_setCall, redis_enqueue] at htext
    exact .inl htext
  | _ => exact .inl htext

/-- A call that stores a row did so before or has just found the row. -/
theorem settingCache_of_step {w t : World} {e : Event} (hw : w.Owned)
    (hstep : w.step H e = some t) {c : ℕ} {id : JsString} {row : Row}
    (hcall : t.calls c = some (.read id (.settingCache row))) :
    w.calls c = some (.read id (.settingCache row)) ∨
      e = .findById c ∧ w.calls c = some (.read id .findingRow) ∧
        w.database.findById id = some row := by
  rcases call_of_step hw hstep c with hsame | ⟨call, hresumes, hcall'⟩
  · exact .inl (hsame ▸ hcall)
  · obtain rfl := Option.some.inj (hcall.symm.trans hcall')
    generalize hnew : Call.read id (.settingCache row) = call at hresumes
    cases hresumes with
    | getReply _ _ hstage =>
      rcases cacheHit_cases hstage with rfl | ⟨_, _, _, _, _, rfl⟩ <;> cases hnew
    | findById hfinding =>
      rw [rowFound] at hnew
      split at hnew
      case h_1 => cases hnew
      case h_2 row' hrow =>
        cases hnew
        exact .inr ⟨rfl, hfinding, hrow⟩
    | _ => cases hnew

/-- Cached texts encode the rows that are there, and calls hold the rows that
are there. -/
structure Faithful (w : World) : Prop where
  /-- The transaction in progress is the one a call waits for. -/
  owned : w.Owned
  /-- In the cache. -/
  cached : ∀ id text, w.redis (logKey id) = some text →
    ∃ row, w.database.findById id = some row ∧ text = row.asEntry.encode
  /-- In the calls. -/
  calls : ∀ c id row, w.calls c = some (.read id (.settingCache row)) →
    w.database.findById id = some row

theorem faithful_start (now : JsDate) : (start now).Faithful :=
  ⟨owned_start now, by simp [start], by simp [start]⟩

/-- A row that is there stays there. -/
theorem findById_of_step {w t : World} {e : Event} (hstep : w.step H e = some t)
    (hallowed : NoTampering w e) {id : JsString} {row : Row}
    (hrow : w.database.findById id = some row) : t.database.findById id = some row := by
  rcases entries_of_step hstep with hsame | ⟨_, _, _, _, created, _, hentries⟩ | ⟨_, rfl, _⟩
  · rw [Database.findById, hsame]
    exact hrow
  · obtain ⟨stored, hstored, hread⟩ := Option.map_eq_some_iff.mp hrow
    rw [Database.findById, hentries, List.find?_append, hstored]
    exact congrArg some hread
  · cases hallowed

theorem Faithful.of_step {w t : World} {e : Event} (hw : w.Faithful)
    (hallowed : NoTampering w e) (hstep : w.step H e = some t) : t.Faithful where
  owned := hw.owned.of_step hstep
  cached := by
    intro id text htext
    rcases redis_of_step hstep htext with hold | ⟨c, row, hcall, hencode⟩
    · obtain ⟨row, hrow, hencode⟩ := hw.cached id text hold
      exact ⟨row, findById_of_step hstep hallowed hrow, hencode⟩
    · exact ⟨row, findById_of_step hstep hallowed (hw.calls c id row hcall), hencode⟩
  calls := by
    intro c id row hcall
    rcases settingCache_of_step hw.owned hstep hcall with hold | ⟨_, _, hrow⟩
    · exact findById_of_step hstep hallowed (hw.calls c id row hold)
    · exact findById_of_step hstep hallowed hrow

/-- At a deciding read of a faithful state the call settles on the answer that
PostgreSQL would give. -/
theorem Faithful.agrees {w : World} (hw : w.Faithful) {c : ℕ} {id : JsString} {answer : Answer}
    {e : Event} (hdecides : w.Decides H c id answer e) :
    answer.Agrees (postgresAnswer H w.database id) := by
  cases hdecides with
  | hit _ htext hentry hanswer =>
    obtain ⟨row, hrow, rfl⟩ := hw.cached id _ htext
    rw [LogEntry.decode_encode, Option.some.injEq] at hentry
    subst hentry
    rw [hanswer, postgresAnswer, hrow]
    exact ⟨row.asEntry.stringify_toJson_decoded, verificationStatus_decoded row⟩
  | query _ hanswer =>
    rw [hanswer]
    exact Answer.agrees_refl _

/-- The events of a call that has started and misses the cache. -/
def readEvents (c : ℕ) (id : JsString) : List Event :=
  [.getLogById c id, .getReply c true, .findById c, .setReply c true]

/-- A verdict is final. -/
theorem verdict_mono {w t : World} {e : Event} (hw : w.Owned) (hstep : w.step H e = some t)
    {c : ℕ} {v : JsString × Answer} (hverdict : w.verdict H c = some v) :
    t.verdict H c = some v := by
  rcases call_of_step hw hstep c with hsame | ⟨call, hresumes, hcall⟩
  · rw [verdict, hsame]
    exact hverdict
  · rw [verdict, hcall, Option.bind_some]
    cases hresumes with
    | setReply hold =>
      rw [verdict, hold] at hverdict
      exact hverdict
    | createLogEntry hold | lockChainHead hold | headMissing hold | cancel hold =>
      rw [verdict, hold] at hverdict
      cases hverdict
    | commit hold | rollback hold | setLatestReply hold | enqueueReply hold =>
      rw [verdict, hold] at hverdict
      cases hverdict
    | enqueueThrow hold | getLogById hold | getReply hold | findById hold =>
      rw [verdict, hold] at hverdict
      cases hverdict

/-- A verdict stays for the rest of the run. -/
theorem verdict_of_run {allowed : World → Event → Prop} {w t : World} {events : List Event}
    (hrun : Run (step H) allowed w events t) (hw : w.Owned) {c : ℕ} {v : JsString × Answer}
    (hverdict : w.verdict H c = some v) : t.verdict H c = some v := by
  have hboth : t.Owned ∧ t.verdict H c = some v := by
    induction hrun with
    | nil => exact ⟨hw, hverdict⟩
    | snoc _ _ hstep ih => exact ⟨ih.1.of_step hstep, verdict_mono ih.1 hstep ih.2⟩
  exact hboth.2

section History

variable {allowed : World → Event → Prop} {now : JsDate} {events : List Event} {w : World}

/-- Call `c` of `getLogById(id)` found `row` in PostgreSQL. -/
def Found (H : Digest) (allowed : World → Event → Prop) (now : JsDate) (events : List Event)
    (c : ℕ) (id : JsString) (row : Row) : Prop :=
  Run.Occurred (step H) allowed (start now) events fun s e =>
    e = .findById c ∧ s.calls c = some (.read id .findingRow) ∧ s.database.findById id = some row

/-- Whatever happens to the table, a cached text encodes a row that some call
found, and a call is about to store only what it found. -/
theorem found_of_stored (hrun : Run (step H) allowed (start now) events w) :
    (∀ id text, w.redis (logKey id) = some text →
      ∃ c row, Found H allowed now events c id row ∧ text = row.asEntry.encode) ∧
      ∀ c id row, w.calls c = some (.read id (.settingCache row)) →
        Found H allowed now events c id row := by
  induction hrun with
  | nil => exact ⟨by simp [start], by simp [start]⟩
  | snoc prior hallowed hstep ih =>
    obtain ⟨hcached, hcalls⟩ := ih
    constructor
    · intro id text htext
      rcases redis_of_step hstep htext with hold | ⟨c, row, hcall, hencode⟩
      · obtain ⟨c, row, hfound, hencode⟩ := hcached id text hold
        exact ⟨c, row, hfound.append _, hencode⟩
      · exact ⟨c, row, (hcalls c id row hcall).append _, hencode⟩
    · intro c id row hcall
      rcases settingCache_of_step (owned_of_run prior) hstep hcall with
        hold | ⟨rfl, hfinding, hrow⟩
      · exact (hcalls c id row hold).append _
      · exact Run.occurred_now prior ⟨rfl, hfinding, hrow⟩

/-- A call that queried the database answers with what the query returned. -/
theorem found_of_query {c : ℕ} {id : JsString} {entry : Entry} {status : Bool}
    (hrun : Run (step H) allowed (start now) events w)
    (hcall : w.calls c = some (.read id (.answered (.found entry status))))
    (hquery : .findById c ∈ events) :
    ∃ row, Found H allowed now events c id row ∧
      entry = row.asEntry ∧ status = verificationStatus H row.asEntry := by
  obtain ⟨before, after, rfl⟩ := List.append_of_mem hquery
  obtain ⟨s, hbefore, hrest⟩ := hrun.split
  obtain ⟨s', _, hstep, hafter⟩ := hrest.cons_inv
  have hs' : s'.Owned := (owned_of_run hbefore).of_step hstep
  cases Step.of_step hstep with
  | @findById _ id' hfinding =>
    have hverdict : w.verdict H c = some (id, .found entry status) := by
      rw [verdict, hcall]
      rfl
    have hsettled : (s.setCall c (.read id' (s.rowFound id'))).verdict H c =
        some (id', postgresAnswer H s.database id') := by
      rw [verdict, calls_setCall_self, Option.bind_some, verdict_rowFound]
    rw [verdict_of_run hafter hs' hsettled, Option.some.injEq, Prod.mk.injEq] at hverdict
    obtain ⟨rfl, hanswer⟩ := hverdict
    obtain ⟨row, hrow, hentry, hstatus⟩ := findById_of_postgresAnswer hanswer
    exact ⟨row, ⟨before, after, _, s, rfl, hbefore, rfl, hfinding, hrow⟩, hentry, hstatus⟩

/-- A call that did not query the database answers from a text in the cache, which
is that of a row that an earlier call found. -/
theorem found_of_hit {c : ℕ} {id : JsString} {entry : Entry} {status : Bool}
    (hrun : Run (step H) allowed (start now) events w)
    (hcall : w.calls c = some (.read id (.answered (.found entry status))))
    (hquery : .findById c ∉ events) :
    ∃ before after s c' row, events = before ++ .getReply c true :: after ∧
      Run (step H) allowed (start now) before s ∧ s.calls c = some (.read id .gettingCache) ∧
      s.redis (logKey id) = some row.asEntry.encode ∧ Found H allowed now before c' id row ∧
      entry = row.asEntry.decoded ∧ status = verificationStatus H row.asEntry := by
  have hverdict : w.verdict H c = some (id, .found entry status) := by
    rw [verdict, hcall]
    rfl
  obtain ⟨before, e, after, s, s', rfl, hbefore, hstep, hafter, hdecides⟩ :=
    exists_decides hrun hverdict
  cases hdecides with
  | hit hgetting htext hentry hanswer =>
    obtain ⟨rfl, rfl⟩ := Answer.found.inj hanswer
    obtain ⟨c', row, hfound, rfl⟩ := (found_of_stored hbefore).1 id _ htext
    rw [LogEntry.decode_encode, Option.some.injEq] at hentry
    subst hentry
    exact ⟨before, after, s, c', row, rfl, hbefore, hgetting, htext, hfound, rfl,
      verificationStatus_decoded row⟩
  | query => exact absurd (List.mem_append_right _ List.mem_cons_self) hquery

/-- **A positive verdict is about a row that a call found.** If a call that
queried PostgreSQL answers that an entry verifies, the query found that entry, and
it verified. If a call that did not query PostgreSQL answers so, it met a text in
the cache that an earlier call for the same identifier had made of that entry when
it found it there, where it verified. -/
theorem verified_when_found {c : ℕ} {id : JsString} {entry : Entry}
    (hrun : Run (step H) allowed (start now) events w)
    (hcall : w.calls c = some (.read id (.answered (.found entry true)))) :
    (.findById c ∈ events → ∃ row, Found H allowed now events c id row ∧
      entry = row.asEntry ∧ verificationStatus H row.asEntry = true) ∧
    (.findById c ∉ events → ∃ before after s c' row,
      events = before ++ .getReply c true :: after ∧
      Run (step H) allowed (start now) before s ∧ s.calls c = some (.read id .gettingCache) ∧
      s.redis (logKey id) = some row.asEntry.encode ∧ Found H allowed now before c' id row ∧
      entry.toJson.stringify = row.asEntry.toJson.stringify ∧
      verificationStatus H row.asEntry = true) := by
  constructor
  · intro hquery
    obtain ⟨row, hfound, hentry, hstatus⟩ := found_of_query hrun hcall hquery
    exact ⟨row, hfound, hentry, hstatus.symm⟩
  · intro hquery
    obtain ⟨before, after, s, c', row, hevents, hbefore, hgetting, htext, hfound, rfl, hstatus⟩ :=
      found_of_hit hrun hcall hquery
    exact ⟨before, after, s, c', row, hevents, hbefore, hgetting, htext, hfound,
      row.asEntry.stringify_toJson_decoded, hstatus.symm⟩

end History

/-- An entry is created and read, its row is deleted, and it is read again while
its text is still in the cache. -/
def staleEvents : List Event :=
  [.createLogEntry 0 ⟨js "alice", js "login", .null⟩] ++ appendEvents 0 (js "1") ++
    readEvents 1 (js "1") ++
    [.tamper (.delete (js "1")), .getLogById 2 (js "1"), .getReply 2 true]

theorem exists_staleAnswer :
    ∃ (w : World) (entry : Entry),
      Run (step sha256) (fun _ _ => True) (start JsDate.epoch) staleEvents w ∧
      w.calls 2 = some (.read (js "1") (.answered (.found entry true))) := by
  have hexecute : (execute (step sha256) (fun _ _ => True) (start JsDate.epoch) staleEvents).any
      (fun w => (w.answer? 2).any fun answer =>
        decide (answer.1 = js "1" ∧ answer.2.isVerified = true)) = true := by
    decide +kernel
  obtain ⟨w, hrun, hcheck⟩ := Run.exists_of_execute hexecute
  obtain ⟨⟨id, answer⟩, hanswer, hdecide⟩ := (Option.any_eq_true _ _).mp hcheck
  obtain ⟨rfl, hverified⟩ := of_decide_eq_true hdecide
  obtain ⟨entry, rfl⟩ := Answer.isVerified_iff.mp hverified
  exact ⟨w, entry, hrun, answer?_eq_some_iff.mp hanswer⟩

/-- The call that answers for the deleted row met the text that the first read had
stored. -/
theorem verified_when_found_stale :
    ∃ w before after s c' entry, ∃ row : Row,
      staleEvents = before ++ .getReply 2 true :: after ∧
      Run (step sha256) (fun _ _ => True) (start JsDate.epoch) before s ∧
      s.redis (logKey (js "1")) = some row.asEntry.encode ∧
      Found sha256 (fun _ _ => True) JsDate.epoch before c' (js "1") row ∧
      Run (step sha256) (fun _ _ => True) (start JsDate.epoch) staleEvents w ∧
      w.calls 2 = some (.read (js "1") (.answered (.found entry true))) ∧
      entry.toJson.stringify = row.asEntry.toJson.stringify ∧
      verificationStatus sha256 row.asEntry = true := by
  obtain ⟨w, entry, hrun, hcall⟩ := exists_staleAnswer
  have hquery : Event.findById 2 ∉ staleEvents := by
    simp [staleEvents, appendEvents, readEvents]
  obtain ⟨before, after, s, c', row, hevents, hbefore, _, htext, hfound, hentry, hverified⟩ :=
    (verified_when_found hrun hcall).2 hquery
  exact ⟨w, before, after, s, c', entry, row, hevents, hbefore, htext, hfound, hrun, hcall,
    hentry, hverified⟩

/-- A call answers that an entry verifies although its row was not in PostgreSQL
at any moment of the call. -/
theorem verified_while_absent :
    ∃ (w : World) (entry : Entry),
      Run (step sha256) (fun _ _ => True) (start JsDate.epoch) staleEvents w ∧
      w.calls 2 = some (.read (js "1") (.answered (.found entry true))) ∧
      ∀ before after s, staleEvents = before ++ after →
        Run (step sha256) (fun _ _ => True) (start JsDate.epoch) before s →
        s.calls 2 ≠ none → s.database.findById (js "1") = none := by
  obtain ⟨w, entry, hrun, hcall⟩ := exists_staleAnswer
  refine ⟨w, entry, hrun, hcall, ?_⟩
  intro before after s hevents hbefore hstarted
  have hmoments : staleEvents.inits.all (fun before =>
      (execute (step sha256) (fun _ _ => True) (start JsDate.epoch) before).all fun s =>
        (s.calls 2).isNone || (s.database.findById (js "1")).isNone) = true := by
    decide +kernel
  have hmem : before ∈ staleEvents.inits := by
    rw [List.mem_inits, hevents]
    exact List.prefix_append ..
  have hmoment := List.all_eq_true.mp hmoments before hmem
  rw [execute_eq_some_iff.mpr hbefore, Option.all_some, Bool.or_eq_true, Option.isNone_iff_eq_none,
    Option.isNone_iff_eq_none] at hmoment
  exact hmoment.resolve_left hstarted

end World

end TamperEvidentLog.Service
