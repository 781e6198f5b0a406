/-
# When Redis is away

The client queues what it cannot send and retries for ever, so a command issued
while Redis is away neither resolves nor rejects before Redis is back, and the
`catch` blocks around it have nothing to catch. A call that awaits such a command
stands still: a read never reaches the database, and a call that has committed
its entry never returns it.

So no call is blocked exactly as long as no call awaits Redis while it is away.
A run keeps to that if Redis goes away only between the commands, and no step
that sends one is taken until it is back.
-/

import TamperEvidentLog.Service.ChainIntegrity

namespace TamperEvidentLog.Service

open TamperEvidentLog.Text TamperEvidentLog.Time TamperEvidentLog.Crypto
open TamperEvidentLog.Protocol

variable {H : Digest}

namespace Call

/-- Has the call returned or thrown? -/
def isFinished : Call → Bool
  | create _ _ (.returned _) | create _ _ .rejected | read _ (.answered _) => true
  | _ => false

/-- Does the call wait for a reply of Redis? -/
def awaitsRedis : Call → Bool
  | create _ _ (.settingLatest _) | create _ _ (.enqueueing _) => true
  | read _ .gettingCache | read _ (.settingCache _) => true
  | _ => false

theorem isFinished_of_awaitsRedis {call : Call} (hawaits : call.awaitsRedis = true) :
    call.isFinished = false := by
  cases call with
  | create _ _ stage => cases stage <;> first | rfl | cases hawaits
  | read _ stage => cases stage <;> first | rfl | cases hawaits

end Call

/-- Does PostgreSQL refuse the entry of the transaction in progress, because of a
column or the unique index on `currentHash`? -/
def Database.insertFails (db : Database) : Bool :=
  match db.transaction with
  | some ⟨_, dto, _, .hashed hashes⟩ =>
    decide (¬ dto.Storable ∨ hashes.2 ∈ db.entries.map LogEntry.currentHash)
  | _ => false

namespace World

/-- Can this happen while Redis stays away and PostgreSQL keeps answering? No
transaction fails but one whose entry PostgreSQL refuses. The queue can be
built. -/
def happensInOutage (w : World) : Event → Bool
  | .redisBack | .cancel _ | .enqueueThrow _ => false
  | .rollback => w.database.insertFails
  | _ => true

/-- Redis stays away, PostgreSQL keeps answering. -/
def Outage (w : World) (e : Event) : Prop := w.happensInOutage e = true

instance (w : World) (e : Event) : Decidable (w.Outage e) := inferInstanceAs (Decidable (_ = _))

/-- No call is blocked: each can go on without Redis coming back. -/
structure Unblocked (H : Digest) (w : World) : Prop where
  /-- An unfinished call can take a further step. -/
  progress : ∀ c call, w.calls c = some call → call.isFinished = false →
    ∃ events t, Run (step H) Outage w events t ∧ t.calls c ≠ some call
  /-- `getLogById` can go on to read the database. -/
  reads : ∀ c id, w.calls c = some (.read id .gettingCache) →
    ∃ events t, Run (step H) Outage w events t ∧ t.calls c = some (.read id .findingRow)
  /-- A call that has committed its entry can go on to return it. -/
  returns : ∀ c dto createdAt entry,
    w.calls c = some (.create dto createdAt (.settingLatest entry)) ∨
      w.calls c = some (.create dto createdAt (.enqueueing entry)) →
    ∃ events t, Run (step H) Outage w events t ∧
      t.calls c = some (.create dto createdAt (.returned entry))

/-- No call waits for Redis while it is away. -/
def Clear (w : World) : Prop :=
  w.redisUp = false → w.AllCalls fun call => call.awaitsRedis = false

/-! ## Calls that stand still -/

/-- A call that awaits Redis is resumed by a reply of Redis only. -/
theorem redisUp_of_resumes {w : World} {e : Event} {c : ℕ} {call call' : Call}
    (houtage : w.Outage e) (hresumes : w.Resumes H c e call') (hcall : w.calls c = some call)
    (hawaits : call.awaitsRedis = true) : w.redisUp = true := by
  cases hresumes with
  | setLatestReply _ hup | enqueueReply _ hup | getReply _ hup | setReply _ hup => exact hup
  | cancel => cases houtage
  | enqueueThrow => cases houtage
  | createLogEntry hold | getLogById hold =>
    rw [hold] at hcall
    cases hcall
  | lockChainHead hold | headMissing hold | commit hold | rollback hold | findById hold =>
    rw [hold] at hcall
    cases hcall
    cases hawaits

/-- A call that awaits Redis while it is away does not move. -/
theorem standStill_of_step {w t : World} {e : Event} (hw : w.Owned) (houtage : w.Outage e)
    (hstep : w.step H e = some t) (hdown : w.redisUp = false) {c : ℕ} {call : Call}
    (hcall : w.calls c = some call) (hawaits : call.awaitsRedis = true) :
    t.redisUp = false ∧ t.calls c = some call := by
  constructor
  · rcases redisUp_of_step hstep with hsame | ⟨_, hdown'⟩ | ⟨rfl, _⟩
    · rw [hsame, hdown]
    · exact hdown'
    · cases houtage
  · rcases call_of_step hw hstep c with hsame | ⟨call', hresumes, _⟩
    · rw [hsame, hcall]
    · rw [redisUp_of_resumes houtage hresumes hcall hawaits] at hdown
      cases hdown

/-- A call that awaits Redis stands still until it is back. -/
theorem standStill_of_run {w t : World} {events : List Event}
    (hrun : Run (step H) Outage w events t) (hw : w.Owned) (hdown : w.redisUp = false) {c : ℕ}
    {call : Call} (hcall : w.calls c = some call) (hawaits : call.awaitsRedis = true) :
    t.calls c = some call := by
  let still (s : World) : Prop := s.Owned ∧ s.redisUp = false ∧ s.calls c = some call
  have hstart : still w := ⟨hw, hdown, hcall⟩
  have hend : still t := hrun.invariant hstart
    fun _ _ _ houtage hstep ⟨hs, hdown, hcall⟩ =>
      ⟨hs.of_step hstep, standStill_of_step hs houtage hstep hdown hcall hawaits⟩
  exact hend.2.2

/-- A call that awaits Redis while it is away is blocked. -/
theorem Unblocked.clear {w : World} (hunblocked : w.Unblocked H) (hw : w.Owned) : w.Clear := by
  intro hdown c call hcall
  by_contra hne
  have hawaits : call.awaitsRedis = true := by simpa using hne
  obtain ⟨events, t, hrun, hmoved⟩ :=
    hunblocked.progress c call hcall (Call.isFinished_of_awaitsRedis hawaits)
  exact hmoved (standStill_of_run hrun hw hdown hcall hawaits)

/-! ## Calls that go on -/

/-- The transaction of a call can end, and the call goes on. -/
def Releases (H : Digest) (w : World) (c : ℕ) (dto : CreateLogDto) (createdAt : JsDate) : Prop :=
  ∃ events t stage, Run (step H) Outage w events t ∧ t.database.transaction = none ∧
    stage ≠ .transacting ∧
    t.calls = Function.update w.calls c (some (.create dto createdAt stage))

section Releases

variable {w : World} {c : ℕ} {dto : CreateLogDto} {createdAt : JsDate}

theorem Releases.of_step {e : Event} {db : Database} (houtage : w.Outage e)
    (hstep : Step H w e { w with database := db })
    (hreleases : Releases H { w with database := db } c dto createdAt) :
    w.Releases H c dto createdAt := by
  obtain ⟨events, t, stage, hrun, hrest⟩ := hreleases
  exact ⟨e :: events, t, stage, (Run.single houtage hstep.step_eq).append hrun, hrest⟩

/-- From the last stage it commits. -/
theorem releases_of_headUpdated {created : Row}
    (htx : w.database.transaction = some ⟨c, dto, createdAt, .headUpdated created⟩) :
    w.Releases H c dto createdAt := by
  have hcommit := Step.commit htx (Database.Step.step_eq (H := H) (.commit htx))
  have houtage : w.Outage .commit := rfl
  exact ⟨[.commit], _, _, Run.single houtage hcommit.step_eq, rfl, by simp, rfl⟩

theorem releases_of_inserted {created : Row}
    (htx : w.database.transaction = some ⟨c, dto, createdAt, .inserted created⟩) :
    w.Releases H c dto createdAt := by
  have hupdate := Step.updateChainHead (Database.Step.step_eq (H := H) (.updateChainHead htx))
  exact Releases.of_step (e := .updateChainHead) rfl hupdate (releases_of_headUpdated rfl)

/-- It inserts its entry under a fresh identifier, or rolls back because the entry is
refused. -/
theorem releases_of_hashed {hashes : JsString × JsString}
    (htx : w.database.transaction = some ⟨c, dto, createdAt, .hashed hashes⟩) :
    w.Releases H c dto createdAt := by
  by_cases hrefused : ¬ dto.Storable ∨ hashes.2 ∈ w.database.entries.map LogEntry.currentHash
  · have hrollback := Step.rollback htx (Database.Step.step_eq (H := H) (.rollback htx))
    have houtage : w.Outage .rollback := by
      simpa [Outage, happensInOutage, Database.insertFails, htx] using hrefused
    exact ⟨[.rollback], _, _, Run.single houtage hrollback.step_eq, rfl, by simp, rfl⟩
  · obtain ⟨hstorable, hhash⟩ := not_or.mp hrefused
    obtain ⟨id, hid⟩ := Infinite.exists_notMem_finset (w.database.entries.map LogEntry.id).toFinset
    rw [List.mem_toFinset] at hid
    have hinsert := Step.insertEntry
      (Database.Step.step_eq (H := H) (.insertEntry htx (not_not.mp hstorable) hid hhash))
    exact Releases.of_step (e := .insertEntry id) rfl hinsert (releases_of_inserted rfl)

theorem releases_of_locked {latestHash : JsString}
    (htx : w.database.transaction = some ⟨c, dto, createdAt, .locked latestHash⟩) :
    w.Releases H c dto createdAt := by
  have hcompute := Step.computeHashes (Database.Step.step_eq (H := H) (.computeHashes htx))
  exact Releases.of_step (e := .computeHashes) rfl hcompute (releases_of_hashed rfl)

/-- Whatever its stage, the transaction in progress can end. -/
theorem releases_of_transaction {tx : Transaction} (htx : w.database.transaction = some tx) :
    w.Releases H tx.caller tx.dto tx.createdAt := by
  obtain ⟨c, dto, createdAt, stage⟩ := tx
  cases stage with
  | locked => exact releases_of_locked htx
  | hashed => exact releases_of_hashed htx
  | inserted => exact releases_of_inserted htx
  | headUpdated => exact releases_of_headUpdated htx

end Releases

/-- A call that waits for the lock can take it once it is free. -/
theorem exists_lock {w : World} {c : ℕ} {dto : CreateLogDto} {createdAt : JsDate}
    (hcall : w.calls c = some (.create dto createdAt .waiting))
    (hfree : w.database.transaction = none) :
    ∃ t stage, w.step H (.lockChainHead c) = some t ∧ stage ≠ .waiting ∧
      t.calls c = some (.create dto createdAt stage) := by
  cases hhead : w.database.chainHead with
  | none =>
    have hreject := Step.headMissing (H := H) hcall hhead
    exact ⟨_, _, hreject.step_eq, by simp, calls_setCall_self ..⟩
  | some head =>
    have hlock := Step.lockChainHead hcall
      (Database.Step.step_eq (H := H) (.lockChainHead hfree hhead))
    exact ⟨_, _, hlock.step_eq, by simp, calls_setCall_self ..⟩

/-- A call that waits for the lock gets it. -/
theorem progress_of_waiting {w : World} {c : ℕ} {dto : CreateLogDto} {createdAt : JsDate}
    (hw : w.Owned) (hcall : w.calls c = some (.create dto createdAt .waiting)) :
    ∃ events t, Run (step H) Outage w events t ∧
      t.calls c ≠ some (.create dto createdAt .waiting) := by
  have hlocked {s : World} (hs : s.calls c = some (.create dto createdAt .waiting))
      (hfree : s.database.transaction = none) : ∃ t, Run (step H) Outage s [.lockChainHead c] t ∧
        t.calls c ≠ some (.create dto createdAt .waiting) := by
    obtain ⟨t, stage, hstep, hstage, ht⟩ := exists_lock (H := H) hs hfree
    have houtage : s.Outage (.lockChainHead c) := rfl
    refine ⟨t, Run.single houtage hstep, ?_⟩
    simpa [ht] using hstage
  cases htx : w.database.transaction with
  | none =>
    obtain ⟨t, hrun, ht⟩ := hlocked hcall htx
    exact ⟨_, t, hrun, ht⟩
  | some tx =>
    obtain ⟨events, s, stage, hrun, hfree, _, hcalls⟩ :=
      releases_of_transaction (H := H) htx
    have hne : c ≠ tx.caller := by
      rintro rfl
      have howner := (hw tx.caller tx.dto tx.createdAt).mpr ⟨tx.stage, htx⟩
      rw [hcall] at howner
      cases howner
    have hs : s.calls c = some (.create dto createdAt .waiting) := by
      rw [hcalls, Function.update_of_ne hne]
      exact hcall
    obtain ⟨t, hrun', ht⟩ := hlocked hs hfree
    exact ⟨_, t, hrun.append hrun', ht⟩

/-- A call that holds the lock goes on. -/
theorem progress_of_transacting {w : World} {c : ℕ} {dto : CreateLogDto} {createdAt : JsDate}
    (hw : w.Owned) (hcall : w.calls c = some (.create dto createdAt .transacting)) :
    ∃ events t, Run (step H) Outage w events t ∧
      t.calls c ≠ some (.create dto createdAt .transacting) := by
  obtain ⟨stage, htx⟩ := (hw c dto createdAt).mp hcall
  have hreleases : w.Releases H c dto createdAt := releases_of_transaction htx
  obtain ⟨events, t, stage', hrun, _, hstage, hcalls⟩ := hreleases
  refine ⟨events, t, hrun, ?_⟩
  rw [hcalls, Function.update_self]
  simpa using hstage

namespace Clear

variable {w : World} {c : ℕ}

/-- A call that awaits Redis finds it there. -/
theorem redisUp (hclear : w.Clear) {call : Call} (hcall : w.calls c = some call)
    (hawaits : call.awaitsRedis = true) : w.redisUp = true := by
  by_contra hdown
  have hnot : call.awaitsRedis = false := hclear (Bool.eq_false_iff.mpr hdown) c call hcall
  rw [hawaits] at hnot
  cases hnot

/-- A step that resumes the call gets it to its next stage. -/
theorem exists_resumed {t : World} (e : Event) (houtage : w.Outage e) (hstep : Step H w e t)
    {call : Call} (hcall : t.calls c = some call) :
    ∃ events t, Run (step H) Outage w events t ∧ t.calls c = some call :=
  ⟨[e], t, Run.single houtage hstep.step_eq, hcall⟩

/-- A read in progress gets to the database. -/
theorem reads (hclear : w.Clear) {id : JsString}
    (hcall : w.calls c = some (.read id .gettingCache)) :
    ∃ events t, Run (step H) Outage w events t ∧ t.calls c = some (.read id .findingRow) := by
  have hup := hclear.redisUp hcall rfl
  exact exists_resumed (.getReply c false) rfl (.getReply hcall hup rfl)
    (calls_setCall_self ..)

/-- A committed entry gets returned. -/
theorem returns (hclear : w.Clear) {dto : CreateLogDto} {createdAt : JsDate} {entry : Row}
    (hcall : w.calls c = some (.create dto createdAt (.settingLatest entry)) ∨
      w.calls c = some (.create dto createdAt (.enqueueing entry))) :
    ∃ events t, Run (step H) Outage w events t ∧
      t.calls c = some (.create dto createdAt (.returned entry)) := by
  have henqueued {s : World} (hs : s.calls c = some (.create dto createdAt (.enqueueing entry)))
      (hup : s.redisUp = true) : ∃ events t, Run (step H) Outage s events t ∧
        t.calls c = some (.create dto createdAt (.returned entry)) :=
    exists_resumed (.enqueueReply c true) rfl (.enqueueReply hs hup) (calls_setCall_self ..)
  rcases hcall with hsetting | henqueueing
  · have hup := hclear.redisUp hsetting rfl
    let s := (w.store true latestLogKey (latestSummary entry).stringify).setCall c
      (.create dto createdAt (.enqueueing entry))
    have houtage : w.Outage (.setLatestReply c true) := rfl
    have hreply : Step H w (.setLatestReply c true) s := .setLatestReply hsetting hup
    have hs : s.redisUp = true := by rw [redisUp_setCall, redisUp_store, hup]
    obtain ⟨events, t, hrun, ht⟩ := henqueued (calls_setCall_self ..) hs
    exact ⟨_, t, (Run.single houtage hreply.step_eq).append hrun, ht⟩
  · exact henqueued henqueueing (hclear.redisUp henqueueing rfl)

/-- Where no call waits for a Redis that is away, none is blocked. -/
theorem unblocked (hclear : w.Clear) (hw : w.Owned) : w.Unblocked H where
  progress := by
    intro c call hcall hunfinished
    have hmoved {call' : Call} (hne : call' ≠ call)
        (hnext : ∃ events t, Run (step H) Outage w events t ∧ t.calls c = some call') :
        ∃ events t, Run (step H) Outage w events t ∧ t.calls c ≠ some call := by
      obtain ⟨events, t, hrun, ht⟩ := hnext
      exact ⟨events, t, hrun, by simpa [ht] using hne⟩
    cases call with
    | create dto createdAt stage =>
      cases stage with
      | waiting => exact progress_of_waiting hw hcall
      | transacting => exact progress_of_transacting hw hcall
      | settingLatest entry => exact hmoved (by simp) (hclear.returns (.inl hcall))
      | enqueueing entry => exact hmoved (by simp) (hclear.returns (.inr hcall))
      | returned | rejected => cases hunfinished
    | read id stage =>
      cases stage with
      | gettingCache => exact hmoved (by simp) (hclear.reads hcall)
      | findingRow =>
        refine hmoved ?_ (exists_resumed (.findById c) rfl (.findById hcall)
          (calls_setCall_self ..))
        rw [rowFound]
        split <;> simp
      | settingCache row =>
        have hup := hclear.redisUp hcall rfl
        exact hmoved (by simp) (exists_resumed (.setReply c true) rfl (.setReply hcall hup)
          (calls_setCall_self ..))
      | answered => cases hunfinished
  reads := fun _ _ hcall => hclear.reads hcall
  returns := fun _ _ _ _ hcall => hclear.returns hcall

end Clear

/-! ## Runs that keep clear -/

/-- Redis goes away only while no call waits for it, and no call sends it a
command before it is back. -/
def SparesRedis (w : World) : Event → Prop
  | .redisDown => w.AllCalls fun call => call.awaitsRedis = false
  | .getLogById _ _ | .commit => w.redisUp = true
  | .findById c => w.redisUp = true ∨
      ∀ id, w.calls c = some (.read id .findingRow) → w.database.findById id = none
  | _ => True

theorem clear_start (now : JsDate) : (start now).Clear := by
  simp [Clear, start]

/-- A step that spares Redis keeps the state clear. -/
theorem Clear.of_step {w t : World} {e : Event} (hclear : w.Clear) (hspares : w.SparesRedis e)
    (hstep : w.step H e = some t) : t.Clear := by
  intro hdown
  cases Step.of_step hstep with
  | tick | computeHashes | insertEntry | updateChainHead | expire | tamper => exact hclear hdown
  | redisDown => exact hspares
  | redisBack => cases hdown
  | createLogEntry | headMissing | cancel | enqueueThrow => exact (hclear hdown).setCall rfl
  | @lockChainHead _ _ _ db | @rollback _ db =>
    exact AllCalls.setCall (w := { w with database := db }) (hclear hdown) rfl
  | getLogById =>
    rw [redisUp_setCall, show w.redisUp = true from hspares] at hdown
    cases hdown
  | commit =>
    rw [redisUp_setCall, show w.redisUp = true from hspares] at hdown
    cases hdown
  | findById hcall =>
    rcases hspares with hup | hnone
    · rw [redisUp_setCall, hup] at hdown
      cases hdown
    · apply (hclear hdown).setCall
      rw [rowFound, hnone _ hcall]
      rfl
  | getReply _ hup | setLatestReply _ hup | setReply _ hup | enqueueReply _ hup =>
    simp [hup] at hdown

/-- Only a step that spares Redis leads to a clear state. -/
theorem sparesRedis_of_clear {w t : World} {e : Event} (hstep : w.step H e = some t)
    (hclear : t.Clear) : w.SparesRedis e := by
  cases Step.of_step hstep with
  | redisDown => exact hclear rfl
  | getLogById => exact hclear.redisUp (calls_setCall_self ..) rfl
  | commit => exact hclear.redisUp (calls_setCall_self ..) rfl
  | @findById c id hcall =>
    cases hrow : w.database.findById id with
    | none =>
      apply Or.inr
      intro id' hcall'
      rw [hcall] at hcall'
      cases hcall'
      exact hrow
    | some row =>
      refine .inl (hclear.redisUp (calls_setCall_self ..) ?_)
      rw [rowFound, hrow]
      rfl
  | _ => trivial

/-- **When an outage blocks nothing.** No call is blocked at any moment of a run
exactly if Redis goes away only while no call waits for it, and no call sends it a
command before it is back. -/
theorem unblocked_iff_sparesRedis {allowed : World → Event → Prop} {now : JsDate}
    {events : List Event} {w : World} (hrun : Run (step H) allowed (start now) events w) :
    (∀ before after s, events = before ++ after → Run (step H) allowed (start now) before s →
      s.Unblocked H) ↔ Run (step H) SparesRedis (start now) events w := by
  constructor
  · intro hunblocked
    induction hrun with
    | nil => exact Run.nil
    | @snoc events s t e prior hallowed hstep ih =>
      have ht : t.Unblocked H :=
        hunblocked _ [] t (List.append_nil _).symm (prior.snoc hallowed hstep)
      have hclear := ht.clear ((owned_of_run prior).of_step hstep)
      refine (ih fun before after u hevents hbefore => ?_).snoc
        (sparesRedis_of_clear hstep hclear) hstep
      exact hunblocked before (after ++ [e]) u (by rw [hevents, List.append_assoc]) hbefore
  · intro hspares before after s hevents hbefore
    subst hevents
    obtain ⟨s', hfirst, _⟩ := hspares.split
    obtain rfl := hbefore.unique hfirst
    have hclear : s.Clear := hfirst.invariant (clear_start now)
      fun _ _ _ hspares hstep hs => hs.of_step hspares hstep
    exact hclear.unblocked (owned_of_run hfirst)

/-- A read of an entry that is nowhere; Redis goes away after the miss. -/
def missEvents : List Event :=
  [.getLogById 0 (js "1"), .getReply 0 true, .redisDown, .findById 0]

/-- Redis goes away after the miss, and the call still throws its error. -/
theorem unblocked_iff_sparesRedis_missed :
    ∃ w, Run (step sha256) SparesRedis (start JsDate.epoch) missEvents w ∧
      ∀ before after s, missEvents = before ++ after →
        Run (step sha256) SparesRedis (start JsDate.epoch) before s → s.Unblocked sha256 := by
  let reading := (start JsDate.epoch).setCall 0 (.read (js "1") .gettingCache)
  let missed := reading.setCall 0 (.read (js "1") .findingRow)
  let away : World := { missed with redisUp := false }
  have hread : (start JsDate.epoch).SparesRedis (.getLogById 0 (js "1")) := rfl
  have hget : reading.SparesRedis (.getReply 0 true) := trivial
  have hdown : missed.SparesRedis .redisDown := by
    intro c call hcall
    by_cases hc : c = 0
    · rw [hc, calls_setCall_self] at hcall
      cases hcall
      rfl
    · rw [calls_setCall_of_ne _ hc, calls_setCall_of_ne _ hc] at hcall
      cases hcall
  have hfinding : away.calls 0 = some (.read (js "1") .findingRow) :=
    calls_setCall_self reading 0 (.read (js "1") .findingRow)
  have hquery : away.SparesRedis (.findById 0) := .inr fun _ _ => rfl
  have hrun := Run.nil.snoc hread (Step.step_eq (H := sha256) (.getLogById rfl))
  have hrun := hrun.snoc hget (Step.step_eq (.getReply (calls_setCall_self ..) rfl rfl))
  have hrun := hrun.snoc hdown (Step.step_eq .redisDown)
  have hrun := hrun.snoc hquery (Step.step_eq (.findById hfinding))
  exact ⟨_, hrun, (unblocked_iff_sparesRedis hrun).mpr hrun⟩

/-- Redis is away when one call commits an entry and another reads it. -/
def outageEvents : List Event :=
  [.redisDown, .createLogEntry 0 ⟨js "alice", js "login", .null⟩] ++ appendEvents 0 (js "1") ++
    [.getLogById 1 (js "1")]

/-- The entry is committed, but the call is not finished and never will be before
Redis is back, and neither will the call that reads it. -/
theorem blocked_while_redisDown :
    ∃ (w : World) (create read : Call),
      Run (step sha256) Outage (start JsDate.epoch) outageEvents w ∧
      w.database.entries.length = 1 ∧
      w.calls 0 = some create ∧ create.isFinished = false ∧
      w.calls 1 = some read ∧ read.isFinished = false ∧
      (∀ events t, Run (step sha256) Outage w events t →
        t.calls 0 = some create ∧ t.calls 1 = some read) ∧
      ¬ w.Unblocked sha256 := by
  have hexecute : (execute (step sha256) Outage (start JsDate.epoch) outageEvents).any
      (fun w => decide (w.redisUp = false ∧ w.database.entries.length = 1 ∧
        (w.calls 0).any Call.awaitsRedis = true ∧ (w.calls 1).any Call.awaitsRedis = true)) =
        true := by
    decide +kernel
  obtain ⟨w, hrun, hcheck⟩ := Run.exists_of_execute hexecute
  obtain ⟨hdown, hlength, hcreates, hreads⟩ := of_decide_eq_true hcheck
  obtain ⟨create, hcreate, hawaits⟩ := (Option.any_eq_true _ _).mp hcreates
  obtain ⟨read, hread, hawaits'⟩ := (Option.any_eq_true _ _).mp hreads
  have hw := owned_of_run hrun
  refine ⟨w, create, read, hrun, hlength, hcreate, Call.isFinished_of_awaitsRedis hawaits,
    hread, Call.isFinished_of_awaitsRedis hawaits', fun events t hlater => ⟨?_, ?_⟩, ?_⟩
  · exact standStill_of_run hlater hw hdown hcreate hawaits
  · exact standStill_of_run hlater hw hdown hread hawaits'
  · intro hunblocked
    have hup := (hunblocked.clear hw).redisUp hread hawaits'
    rw [hdown] at hup
    cases hup

end World

end TamperEvidentLog.Service
