/-
# The cached summary of the latest entry

`createLogEntry` writes the summary of its entry under `latest_log` after its
transaction has committed and the lock is free, so the order of these writes is
not the order of the commits. A write of an older entry that arrives behind the
one of the newest entry stays until the next entry or until the key expires.

In a run without such a write the cache follows the log: whenever no call is in
flight, `latest_log` and `chain_head` both name the last committed entry.
-/

import TamperEvidentLog.Service.CreateOutcome

namespace TamperEvidentLog.Service

open TamperEvidentLog.Text TamperEvidentLog.Time TamperEvidentLog.Crypto
open TamperEvidentLog.Protocol

variable {H : Digest}

/-- The `id` and the `currentHash` that a cached text names. -/
def readSummary (text : JsString) : Option (JsString × JsString) := do
  let v ← JsonValue.parse text
  let .string id ← v.json.property (js "id") | none
  let .string currentHash ← v.json.property (js "currentHash") | none
  return (id, currentHash)

/-- What is cached of an entry names it. -/
theorem readSummary_latestSummary (entry : Row) :
    readSummary (latestSummary entry).stringify = some (entry.id, entry.currentHash) := by
  have hproperty (key : JsString) : (latestSummary entry).ordered.json.property key =
      ((latestSummary entry).json.property key).map Json.ordered :=
    Json.property_ordered (latestSummary entry).uniqueKeys_json key
  have hid : (latestSummary entry).json.property (js "id") = some (.string entry.id) := rfl
  have hhash : (latestSummary entry).json.property (js "currentHash") =
      some (.string entry.currentHash) := rfl
  rw [readSummary, JsonValue.parse_stringify]
  simp only [Option.bind_eq_bind, Option.bind_some, hproperty, hid, hhash]
  rfl

/-- The payload, which storage reorders, is not part of the summary. -/
theorem latestSummary_readBack (row : Row) : latestSummary row.readBack = latestSummary row := rfl

namespace Call

/-- Has `createLogEntry` returned an entry? -/
def hasReturned : Call → Bool
  | create _ _ (.returned _) => true
  | _ => false

theorem exists_of_hasReturned {call : Call} (hreturned : call.hasReturned = true) :
    ∃ dto createdAt entry, call = .create dto createdAt (.returned entry) := by
  cases call with
  | read => exact absurd hreturned Bool.false_ne_true
  | create dto createdAt stage =>
    cases stage with
    | returned entry => exact ⟨dto, createdAt, entry, rfl⟩
    | _ => exact absurd hreturned Bool.false_ne_true

end Call

namespace World

/-- The entry that `latest_log` names. -/
def latestLog (w : World) : Option (JsString × JsString) :=
  (w.redis latestLogKey).bind readSummary

/-- Does Redis store what `createLogEntry` sends and keep it, and does nobody
change the table? -/
def keepsLatest : Event → Bool
  | .setLatestReply _ stored => stored
  | .expire key => key ≠ latestLogKey
  | .tamper _ => false
  | _ => true

/-- Every write of `latest_log` succeeds and none expires. -/
def KeepsLatest (_ : World) (e : Event) : Prop := keepsLatest e = true

instance (w : World) (e : Event) : Decidable (w.KeepsLatest e) :=
  inferInstanceAs (Decidable (_ = _))

/-- The call that committed this row waits for its write of `latest_log`. -/
def Announces (w : World) (row : Row) : Prop :=
  ∃ c dto createdAt, w.calls c = some (.create dto createdAt (.settingLatest row.readBack))

/-- No write of `latest_log` arrives behind the one of the newest entry. -/
def SetsInOrder (w : World) : Event → Prop
  | .setLatestReply _ _ => ∃ last ∈ w.database.entries.getLast?, w.Announces last
  | _ => True

/-- What a step does to the text under `latest_log`. -/
theorem redis_latestLogKey_of_step {w t : World} {e : Event} (hkeeps : w.KeepsLatest e)
    (hstep : w.step H e = some t) :
    t.redis latestLogKey = w.redis latestLogKey ∨
      ∃ c dto createdAt entry, e = .setLatestReply c true ∧
        w.calls c = some (.create dto createdAt (.settingLatest entry)) ∧
        t.redis latestLogKey = some (latestSummary entry).stringify := by
  cases Step.of_step hstep with
  | @setLatestReply c stored dto createdAt entry hcall =>
    have hstored : stored = true := hkeeps
    subst hstored
    refine .inr ⟨c, dto, createdAt, entry, rfl, hcall, ?_⟩
    rw [redis_setCall, redis_store_self]
  | setReply =>
    apply Or.inl
    rw [redis_setCall, redis_store_of_ne w _ (logKey_ne_latestLogKey _).symm]
  | @expire key =>
    have hne : key ≠ latestLogKey := by simpa [KeepsLatest, keepsLatest] using hkeeps
    exact .inl (Function.update_of_ne hne.symm _ _)
  | enqueueReply => exact .inl (by simp)
  | _ => exact .inl rfl

/-- A call goes on waiting for its write until that returns. -/
theorem announces_of_step {w t : World} {e : Event} (hw : w.Owned)
    (hstep : w.step H e = some t) {c : ℕ} {dto : CreateLogDto} {createdAt : JsDate} {entry : Row}
    (hcall : w.calls c = some (.create dto createdAt (.settingLatest entry))) :
    t.calls c = some (.create dto createdAt (.settingLatest entry)) ∨
      ∃ stored, e = .setLatestReply c stored := by
  rcases call_of_step hw hstep c with hsame | ⟨call, hresumes, _⟩
  · exact .inl (hsame.trans hcall)
  · cases hresumes with
    | setLatestReply => exact .inr ⟨_, rfl⟩
    | createLogEntry hother | lockChainHead hother | headMissing hother | cancel hother
    | commit hother | rollback hother | enqueueReply hother | enqueueThrow hother
    | getLogById hother | getReply hother | findById hother | setReply hother =>
      rw [hcall] at hother
      cases hother

/-- What such a run keeps true. -/
structure Announced (w : World) : Prop where
  /-- Every call is the only one that waits for its transaction. -/
  owned : w.Owned
  /-- The last entry is cached or its call is about to cache it. -/
  latest : ∀ last ∈ w.database.entries.getLast?,
    w.redis latestLogKey = some (latestSummary last).stringify ∨ w.Announces last
  /-- A call that has committed has left an entry. -/
  nonempty : ∀ c dto createdAt stage, w.calls c = some (.create dto createdAt stage) →
    stage.entry?.isSome = true → w.database.entries ≠ []

theorem announced_start (now : JsDate) : (start now).Announced where
  owned := owned_start now
  latest := by simp [start, Database.initial]
  nonempty := by simp [start]

/-- The table grows by commits. -/
theorem entries_of_step_of_keepsLatest {w t : World} {e : Event} (hkeeps : w.KeepsLatest e)
    (hstep : w.step H e = some t) :
    t.database.entries = w.database.entries ∨
      ∃ c dto createdAt created, t.database.entries = w.database.entries ++ [created] ∧
        t.calls c = some (.create dto createdAt (.settingLatest created.readBack)) := by
  rcases entries_of_step hstep with hsame | ⟨rfl, c, dto, createdAt, created, htx, hentries⟩ |
    ⟨edit, rfl, _⟩
  · exact .inl hsame
  · cases Step.of_step hstep with
    | commit htx' hdb =>
      rw [htx] at htx'
      cases htx'
      exact .inr ⟨c, dto, createdAt, created, hentries, calls_setCall_self ..⟩
  · exact absurd hkeeps Bool.false_ne_true

/-- The last entry stays cached or about to be cached. -/
theorem Announced.latest_of_step {w t : World} {e : Event} (hw : w.Announced)
    (hkeeps : w.KeepsLatest e) (hsets : w.SetsInOrder e) (hstep : w.step H e = some t) :
    ∀ last ∈ t.database.entries.getLast?,
      t.redis latestLogKey = some (latestSummary last).stringify ∨ t.Announces last := by
  intro last hlast
  rcases entries_of_step_of_keepsLatest hkeeps hstep with
    hsame | ⟨c, dto, createdAt, created, hentries, hcall⟩
  · rw [hsame] at hlast
    -- The write of the last entry, if it is still to come, comes now or stays to come.
    have hannounces (hpending : w.Announces last) :
        t.redis latestLogKey = some (latestSummary last).stringify ∨ t.Announces last := by
      obtain ⟨c, dto, createdAt, hcall⟩ := hpending
      rcases announces_of_step hw.owned hstep hcall with hstays | ⟨stored, rfl⟩
      · exact .inr ⟨c, dto, createdAt, hstays⟩
      · cases Step.of_step hstep with
        | setLatestReply hcall' =>
          rw [hcall] at hcall'
          cases hcall'
          have hstored : stored = true := hkeeps
          rw [redis_setCall, hstored, redis_store_self, latestSummary_readBack]
          exact .inl rfl
    rcases hw.latest last hlast with hcached | hpending
    · rcases redis_latestLogKey_of_step hkeeps hstep with
        hredis | ⟨c, dto, createdAt, entry, rfl, _⟩
      · exact .inl (hredis.trans hcached)
      · obtain ⟨last', hlast', hpending⟩ := hsets
        rw [Option.mem_unique hlast' hlast] at hpending
        exact hannounces hpending
    · exact hannounces hpending
  · rw [hentries, List.getLast?_concat] at hlast
    cases hlast
    exact .inr ⟨c, dto, createdAt, hcall⟩

/-- A committed entry is not taken back. -/
theorem Announced.nonempty_of_step {w t : World} {e : Event} (hw : w.Announced)
    (hkeeps : w.KeepsLatest e) (hstep : w.step H e = some t) {c : ℕ} {dto : CreateLogDto}
    {createdAt : JsDate} {stage : CreateStage}
    (hcall : t.calls c = some (.create dto createdAt stage)) (hentry : stage.entry?.isSome = true) :
    t.database.entries ≠ [] := by
  rcases entries_of_step_of_keepsLatest hkeeps hstep with hsame | ⟨_, _, _, _, hentries, _⟩
  · rw [hsame]
    rcases call_of_step hw.owned hstep c with hsame' | ⟨call, hresumes, hcall'⟩
    · exact hw.nonempty c dto createdAt stage (hsame'.symm.trans hcall) hentry
    · rw [hcall] at hcall'
      cases hcall'
      cases hresumes with
      | commit _ htx =>
        cases Step.of_step hstep with
        | commit htx' hdb =>
          cases Database.Step.of_step hdb with
          | commit => simp at hsame
      | setLatestReply hprior => exact hw.nonempty c _ _ _ hprior rfl
      | enqueueReply hprior => exact hw.nonempty c _ _ _ hprior rfl
      | enqueueThrow hprior => exact hw.nonempty c _ _ _ hprior rfl
      | createLogEntry | lockChainHead | headMissing | cancel | rollback => cases hentry
  · rw [hentries]
    exact List.append_ne_nil_of_right_ne_nil _ (List.cons_ne_nil _ _)

theorem Announced.of_step {w t : World} {e : Event} (hw : w.Announced) (hkeeps : w.KeepsLatest e)
    (hsets : w.SetsInOrder e) (hstep : w.step H e = some t) : t.Announced where
  owned := hw.owned.of_step hstep
  latest := hw.latest_of_step hkeeps hsets hstep
  nonempty := fun _ _ _ _ hcall hentry => hw.nonempty_of_step hkeeps hstep hcall hentry

theorem not_isTamper_of_keepsLatest {w : World} {e : Event} (hkeeps : w.KeepsLatest e) :
    e.isTamper = false := by
  cases e with
  | tamper => exact absurd hkeeps Bool.false_ne_true
  | _ => rfl

/-- What it means that `latest_log` ends at the newest entry. -/
def LatestLogCurrent (w : World) : Prop :=
  (∃ c dto createdAt entry, w.calls c = some (.create dto createdAt (.returned entry))) →
    (∀ c dto createdAt stage, w.calls c = some (.create dto createdAt stage) →
      (Call.create dto createdAt stage).isFinished = true) →
    ∃ last ∈ w.database.entries.getLast?,
      w.latestLog = some (last.id, last.currentHash) ∧
      w.database.chainHead = some ⟨last.currentHash, some last.id⟩

/-- **The cache follows the log** in a run without writes that arrive behind the
one of the newest entry. -/
theorem latestLog_current {now : JsDate} {events : List Event} {w : World}
    (hrun : Run (step H) (fun w e => w.KeepsLatest e ∧ w.SetsInOrder e) (start now) events w) :
    w.LatestLogCurrent := by
  rintro ⟨c, dto, createdAt, entry, hcall⟩ hfinished
  have hw : w.Announced := hrun.invariant (announced_start now)
    fun _ _ _ hallowed hstep hs => hs.of_step hallowed.1 hallowed.2 hstep
  have hconsistent : w.database.Consistent H := consistent_of_run
    (hrun.mono fun _ _ hallowed => not_isTamper_of_keepsLatest hallowed.1)
  have hne := hw.nonempty c dto createdAt _ hcall rfl
  obtain ⟨last, hlast⟩ := Option.ne_none_iff_exists'.mp (mt List.getLast?_eq_none_iff.mp hne)
  refine ⟨last, hlast, ?_, ?_⟩
  · rcases hw.latest last hlast with hcached | ⟨c', dto', createdAt', hpending⟩
    · rw [latestLog, hcached, Option.bind_some, readSummary_latestSummary]
    · exact absurd (hfinished c' dto' createdAt' _ hpending) Bool.false_ne_true
  · rw [hconsistent.head, Database.tip_eq_getLast?, hlast]
    rfl

/-! ## Two writers -/

/-- The call that an event starts. -/
def started? : Event → Option ℕ
  | .createLogEntry c _ | .getLogById c _ => some c
  | _ => none

/-- There are no calls but those that were started. -/
theorem calls_eq_none_of_run {allowed : World → Event → Prop} {now : JsDate}
    {events : List Event} {w : World} (hrun : Run (step H) allowed (start now) events w) {c : ℕ}
    (hstarted : some c ∉ events.map started?) : w.calls c = none := by
  induction hrun with
  | nil => rfl
  | snoc prior _ hstep ih =>
    rw [List.map_append, List.mem_append, not_or] at hstarted
    have hnone := ih hstarted.1
    rcases call_of_step (owned_of_run prior) hstep c with hsame | ⟨call, hresumes, _⟩
    · exact hsame.trans hnone
    · cases hresumes with
      | createLogEntry | getLogById => exact absurd (List.mem_singleton.mpr rfl) hstarted.2
      | lockChainHead hother | headMissing hother | cancel hother | commit hother
      | rollback hother | setLatestReply hother | enqueueReply hother | enqueueThrow hother
      | getReply hother | findById hother | setReply hother =>
        rw [hnone] at hother
        cases hother

/-- When all calls that were started have finished, no call is in flight. -/
theorem isFinished_of_run {allowed : World → Event → Prop} {now : JsDate} {events : List Event}
    {w : World} (hrun : Run (step H) allowed (start now) events w)
    (hfinished : ∀ c ∈ events.filterMap started?, (w.calls c).all Call.isFinished = true)
    {c : ℕ} {call : Call} (hcall : w.calls c = some call) : call.isFinished = true := by
  by_cases hstarted : some c ∈ events.map started?
  · obtain ⟨e, he, hstarts⟩ := List.mem_map.mp hstarted
    have hall := hfinished c (List.mem_filterMap.mpr ⟨e, he, hstarts⟩)
    rwa [hcall] at hall
  · rw [calls_eq_none_of_run hrun hstarted] at hcall
    cases hcall

/-- Two entries are committed, and their summaries are written in the other
order. -/
def crossedEvents : List Event :=
  [.createLogEntry 0 ⟨js "alice", js "login", .null⟩] ++ appendEvents 0 (js "1") ++
    [.createLogEntry 1 ⟨js "bob", js "login", .null⟩] ++ appendEvents 1 (js "2") ++
    [.setLatestReply 1 true, .setLatestReply 0 true, .enqueueReply 0 true, .enqueueReply 1 true]

/-- With no call in flight, `latest_log` names the first of two entries. -/
theorem not_latestLogCurrent_crossed :
    ∃ w : World, Run (step sha256) KeepsLatest (start JsDate.epoch) crossedEvents w ∧
      ¬ w.LatestLogCurrent := by
  have hexecute : (execute (step sha256) KeepsLatest (start JsDate.epoch) crossedEvents).any
      (fun w => decide ((∀ c ∈ crossedEvents.filterMap started?,
          (w.calls c).all Call.isFinished = true) ∧ (w.calls 0).any Call.hasReturned = true ∧
        w.latestLog.map Prod.fst ≠ w.database.entries.getLast?.map LogEntry.id)) = true := by
    decide +kernel
  obtain ⟨w, hrun, hcheck⟩ := Run.exists_of_execute hexecute
  obtain ⟨hfinished, hreturns, hother⟩ := of_decide_eq_true hcheck
  obtain ⟨call, hcall, hreturned⟩ := (Option.any_eq_true _ _).mp hreturns
  obtain ⟨dto, createdAt, entry, rfl⟩ := Call.exists_of_hasReturned hreturned
  refine ⟨w, hrun, fun hcurrent => ?_⟩
  obtain ⟨last, hlast, hnamed, _⟩ := hcurrent ⟨0, dto, createdAt, entry, hcall⟩
    fun _ _ _ _ hcall' => isFinished_of_run hrun hfinished hcall'
  apply hother
  rw [hnamed, hlast]
  rfl

/-- Is this no write of `latest_log`, or does the newest entry still have to be named
there? -/
def setsWhileBehind (w : World) : Event → Bool
  | .setLatestReply _ _ => w.database.entries.getLast?.any fun last =>
      decide (w.latestLog ≠ some (last.id, last.currentHash))
  | _ => true

/-- Writes of `latest_log` return only while the newest entry is not named there. -/
def SetsWhileBehind (w : World) (e : Event) : Prop := w.setsWhileBehind e = true

instance (w : World) (e : Event) : Decidable (w.SetsWhileBehind e) :=
  inferInstanceAs (Decidable (_ = _))

/-- As long as the newest entry is not named its call is about to name it. -/
theorem Announced.setsInOrder {w : World} (hw : w.Announced) {e : Event}
    (hbehind : w.SetsWhileBehind e) : w.SetsInOrder e := by
  cases e with
  | setLatestReply =>
    obtain ⟨last, hlast, hother⟩ := (Option.any_eq_true _ _).mp hbehind
    refine ⟨last, hlast, (hw.latest last hlast).resolve_left fun hcached => ?_⟩
    refine of_decide_eq_true hother ?_
    rw [latestLog, hcached, Option.bind_some, readSummary_latestSummary]
  | _ => trivial

/-- So such writes arrive in order. -/
theorem setsInOrder_of_run {now : JsDate} {events : List Event} {w : World}
    (hrun : Run (step H) (fun w e => w.KeepsLatest e ∧ w.SetsWhileBehind e) (start now) events w) :
    Run (step H) (fun w e => w.KeepsLatest e ∧ w.SetsInOrder e) (start now) events w := by
  induction hrun with
  | nil => exact Run.nil
  | snoc _ hallowed hstep ih =>
    have hw : Announced _ := ih.invariant (announced_start now)
      fun _ _ _ hallowed hstep hs => hs.of_step hallowed.1 hallowed.2 hstep
    exact ih.snoc ⟨hallowed.1, hw.setsInOrder hallowed.2⟩ hstep

/-- Two calls overlap, and their summaries are written in the order of their
commits. -/
def orderedEvents : List Event :=
  [.createLogEntry 0 ⟨js "alice", js "login", .null⟩,
      .createLogEntry 1 ⟨js "bob", js "login", .null⟩] ++
    appendEvents 1 (js "1") ++ appendEvents 0 (js "2") ++
    [.setLatestReply 1 true, .setLatestReply 0 true, .enqueueReply 0 true, .enqueueReply 1 true]

/-- With no call in flight, `latest_log` names the second of two entries. -/
theorem latestLog_current_ordered :
    ∃ (w : World) (last : Row),
      Run (step sha256) (fun w e => w.KeepsLatest e ∧ w.SetsInOrder e) (start JsDate.epoch)
        orderedEvents w ∧
      w.database.entries.length = 2 ∧ last ∈ w.database.entries.getLast? ∧
      w.latestLog = some (last.id, last.currentHash) ∧
      w.database.chainHead = some ⟨last.currentHash, some last.id⟩ := by
  have hexecute : (execute (step sha256) (fun w e => w.KeepsLatest e ∧ w.SetsWhileBehind e)
      (start JsDate.epoch) orderedEvents).any (fun w => decide (w.database.entries.length = 2 ∧
        (∀ c ∈ orderedEvents.filterMap started?, (w.calls c).all Call.isFinished = true) ∧
        (w.calls 0).any Call.hasReturned = true)) = true := by
    decide +kernel
  obtain ⟨w, hrun, hcheck⟩ := Run.exists_of_execute hexecute
  obtain ⟨htwo, hfinished, hreturns⟩ := of_decide_eq_true hcheck
  obtain ⟨call, hcall, hreturned⟩ := (Option.any_eq_true _ _).mp hreturns
  obtain ⟨dto, createdAt, entry, rfl⟩ := Call.exists_of_hasReturned hreturned
  have hordered := setsInOrder_of_run hrun
  obtain ⟨last, hlast, hnamed, hhead⟩ := latestLog_current hordered
    ⟨0, dto, createdAt, entry, hcall⟩ fun _ _ _ _ hcall' => isFinished_of_run hrun hfinished hcall'
  exact ⟨w, last, hordered, htwo, hlast, hnamed, hhead⟩

end World

end TamperEvidentLog.Service
