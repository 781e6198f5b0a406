/-
# One call of createLogEntry

What a call does to the stores when nothing else happens to them, from any state
of the database, the cache and the queue, with or without a `chain_head` row,
and whichever of its steps fail. Up to the commit nothing is written that a
rollback would not take back; behind it the call can only return, because
`redisService.set` and `queueService.enqueueVerification` swallow their errors.

So the call rejects exactly when its transaction did not commit, and then there
is no trace of it; otherwise one row was added and `chain_head` names it.
-/

import TamperEvidentLog.Service.Outage

namespace TamperEvidentLog.Service

open TamperEvidentLog.Text TamperEvidentLog.Time TamperEvidentLog.Crypto
open TamperEvidentLog.Protocol

variable {H : Digest}

/-- The entry that a call has committed. -/
def CreateStage.entry? : CreateStage → Option Row
  | settingLatest entry | enqueueing entry | returned entry => some entry
  | _ => none

/-- Is it a call of `createLogEntry`? -/
def Call.isCreate : Call → Bool
  | create _ _ _ => true
  | read _ _ => false

namespace World

/-- Is this a step of the call, or does only the clock or the connection to
Redis change? -/
def isOwnEvent (c : ℕ) (w : World) : Event → Bool
  | .createLogEntry c' _ | .lockChainHead c' | .cancel c' | .setLatestReply c' _ |
      .enqueueReply c' _ | .enqueueThrow c' => c' == c
  | .computeHashes | .insertEntry _ | .updateChainHead | .commit | .rollback =>
    w.database.transaction.any fun tx => tx.caller == c
  | .tick _ | .redisDown | .redisBack => true
  | .getLogById _ _ | .getReply _ _ | .findById _ | .setReply _ _ | .expire _ | .tamper _ => false

/-- Nothing but the call touches the stores. -/
def Alone (c : ℕ) (w : World) (e : Event) : Prop := w.isOwnEvent c e = true

instance (c : ℕ) (w : World) (e : Event) : Decidable (w.Alone c e) :=
  inferInstanceAs (Decidable (_ = _))

/-- The stores hold what they held. -/
structure SameStores (w t : World) : Prop where
  /-- `log_entries` and `chain_head`, as far as they are committed. -/
  entries : t.database.entries = w.database.entries
  /-- The row of `chain_head`. -/
  chainHead : t.database.chainHead = w.database.chainHead
  /-- The cache. -/
  redis : t.redis = w.redis
  /-- The verification queue. -/
  queue : t.queue = w.queue

/-- A later state with the same stores. -/
theorem SameStores.congr {w s t : World} (hstores : SameStores w s)
    (hdatabase : t.database.entries = s.database.entries ∧
      t.database.chainHead = s.database.chainHead)
    (hredis : t.redis = s.redis) (hqueue : t.queue = s.queue) : SameStores w t where
  entries := hdatabase.1.trans hstores.entries
  chainHead := hdatabase.2.trans hstores.chainHead
  redis := hredis.trans hstores.redis
  queue := hqueue.trans hstores.queue

/-- How far a call that is alone got, seen from the state it started in. -/
inductive Attempt (w : World) (c : ℕ) (events : List Event) (t : World) : Prop
  | /-- It has not obtained the lock or has given up. -/
    uncommitted (hstores : SameStores w t)
      (htx : t.database.transaction = w.database.transaction) (hevents : .commit ∉ events)
      (hcall : t.calls c = none ∨ ∃ dto createdAt stage,
        t.calls c = some (.create dto createdAt stage) ∧ (stage = .waiting ∨ stage = .rejected))
  | /-- It holds the lock. -/
    transacting (hstores : SameStores w t) (hfree : w.database.transaction = none)
      (tx : Transaction) (htx : t.database.transaction = some tx) (hcaller : tx.caller = c)
      (hevents : .commit ∉ events)
      (hcall : t.calls c = some (.create tx.dto tx.createdAt .transacting))
  | /-- It has committed. -/
    committed (created : Row)
      (hdatabase : t.database = ⟨w.database.entries ++ [created],
        some ⟨created.currentHash, some created.id⟩, none⟩)
      (hevents : .commit ∈ events) (dto : CreateLogDto) (createdAt : JsDate) (stage : CreateStage)
      (hcall : t.calls c = some (.create dto createdAt stage))
      (hentry : stage.entry? = some created.readBack)

/-- A call that is not there yet has done nothing. -/
theorem attempt_nil {w : World} {c : ℕ} (hcall : w.calls c = none) : w.Attempt c [] w :=
  .uncommitted ⟨rfl, rfl, rfl, rfl⟩ rfl (by simp) (.inl hcall)

section Steps

variable {w s t : World} {c : ℕ} {events : List Event} {e : Event}

/-- What a step that belongs to the call resumes is the call. -/
theorem eq_of_alone {c' : ℕ} (halone : (c' == c) = true) : c' = c := beq_iff_eq.mp halone

/-- The commit is not among the events so far and not the next one either. -/
theorem commit_notMem_append (hevents : Event.commit ∉ events) (he : e ≠ .commit) :
    Event.commit ∉ events ++ [e] := by
  rw [List.mem_append, List.mem_singleton, not_or]
  exact ⟨hevents, he.symm⟩

/-- Before the call has the lock, nobody's transaction is its own. -/
theorem attempt_of_step_of_uncommitted (hothers : ∀ tx ∈ w.database.transaction, tx.caller ≠ c)
    (hstores : SameStores w s) (htx : s.database.transaction = w.database.transaction)
    (hevents : Event.commit ∉ events)
    (hcall : s.calls c = none ∨ ∃ dto createdAt stage,
      s.calls c = some (.create dto createdAt stage) ∧ (stage = .waiting ∨ stage = .rejected))
    (halone : s.Alone c e) (hstep : s.step H e = some t) : w.Attempt c (events ++ [e]) t := by
  have hnotOwn : (s.database.transaction.any fun tx => tx.caller == c) = false := by
    rw [htx, Option.any_eq_false]
    intro tx hmem
    exact beq_eq_false_iff_ne.mpr (hothers tx hmem)
  have howned (howns : (s.database.transaction.any fun tx => tx.caller == c) = true) : False :=
    Bool.false_ne_true (hnotOwn.symm.trans howns)
  cases Step.of_step hstep with
  | tick | redisDown | redisBack =>
    exact .uncommitted (hstores.congr ⟨rfl, rfl⟩ rfl rfl) htx
      (commit_notMem_append hevents Event.noConfusion) hcall
  | createLogEntry hnone =>
    obtain rfl := eq_of_alone halone
    exact .uncommitted (hstores.congr ⟨rfl, rfl⟩ rfl rfl) htx
      (commit_notMem_append hevents Event.noConfusion)
      (.inr ⟨_, _, _, calls_setCall_self .., .inl rfl⟩)
  | headMissing hwaiting hhead =>
    obtain rfl := eq_of_alone halone
    exact .uncommitted (hstores.congr ⟨rfl, rfl⟩ rfl rfl) htx
      (commit_notMem_append hevents Event.noConfusion)
      (.inr ⟨_, _, _, calls_setCall_self .., .inr rfl⟩)
  | cancel hwaiting =>
    obtain rfl := eq_of_alone halone
    exact .uncommitted (hstores.congr ⟨rfl, rfl⟩ rfl rfl) htx
      (commit_notMem_append hevents Event.noConfusion)
      (.inr ⟨_, _, _, calls_setCall_self .., .inr rfl⟩)
  | lockChainHead hwaiting hdb =>
    obtain rfl := eq_of_alone halone
    cases Database.Step.of_step hdb with
    | lockChainHead hfree hhead =>
      exact .transacting (hstores.congr ⟨rfl, rfl⟩ rfl rfl)
        (htx.symm.trans hfree) _ rfl rfl (commit_notMem_append hevents Event.noConfusion)
        (calls_setCall_self ..)
  | computeHashes | insertEntry | updateChainHead | commit | rollback =>
    exact (howned halone).elim
  | setLatestReply hcommitted | enqueueReply hcommitted | enqueueThrow hcommitted =>
    obtain rfl := eq_of_alone halone
    rw [hcommitted] at hcall
    rcases hcall with hnone | ⟨_, _, _, hsame, rfl | rfl⟩
    · cases hnone
    · cases hsame
    · cases hsame
  | getLogById | getReply | findById | setReply | expire | tamper =>
    exact (Bool.false_ne_true halone).elim

/-- While the call has the lock, the stores change by its commit only. -/
theorem attempt_of_step_of_transacting (hstores : SameStores w s)
    (hfree : w.database.transaction = none) {tx : Transaction}
    (htx : s.database.transaction = some tx) (hcaller : tx.caller = c)
    (hevents : Event.commit ∉ events)
    (hcall : s.calls c = some (.create tx.dto tx.createdAt .transacting))
    (halone : s.Alone c e) (hstep : s.step H e = some t) : w.Attempt c (events ++ [e]) t := by
  cases Step.of_step hstep with
  | tick | redisDown | redisBack =>
    exact .transacting (hstores.congr ⟨rfl, rfl⟩ rfl rfl) hfree tx
      htx hcaller (commit_notMem_append hevents Event.noConfusion) hcall
  | computeHashes hdb | insertEntry hdb | updateChainHead hdb =>
    obtain ⟨_, _, htx', _, rfl⟩ := Database.advance_eq_some_iff.mp hdb
    rw [htx] at htx'
    cases htx'
    exact .transacting (hstores.congr ⟨rfl, rfl⟩ rfl rfl) hfree _ rfl hcaller
      (commit_notMem_append hevents Event.noConfusion) hcall
  | commit htx' hdb =>
    rw [htx] at htx'
    cases htx'
    cases Database.Step.of_step hdb with
    | commit htx'' =>
      rw [htx] at htx''
      cases htx''
      subst hcaller
      exact .committed _ (by rw [database_setCall, hstores.entries]) (by simp) _ _ _
        (calls_setCall_self ..) rfl
  | rollback htx' hdb =>
    rw [htx] at htx'
    cases htx'
    cases Database.Step.of_step hdb with
    | rollback =>
      subst hcaller
      exact .uncommitted (hstores.congr ⟨rfl, rfl⟩ rfl rfl)
        hfree.symm (commit_notMem_append hevents Event.noConfusion)
        (.inr ⟨_, _, _, calls_setCall_self .., .inr rfl⟩)
  | createLogEntry hother | lockChainHead hother | headMissing hother | cancel hother
  | setLatestReply hother | enqueueReply hother | enqueueThrow hother =>
    obtain rfl := eq_of_alone halone
    rw [hcall] at hother
    cases hother
  | getLogById | getReply | findById | setReply | expire | tamper =>
    exact (Bool.false_ne_true halone).elim

/-- Behind its commit the call can only return. -/
theorem attempt_of_step_of_committed {created : Row}
    (hdatabase : s.database = ⟨w.database.entries ++ [created],
      some ⟨created.currentHash, some created.id⟩, none⟩)
    (hevents : Event.commit ∈ events) {dto : CreateLogDto} {createdAt : JsDate}
    {stage : CreateStage} (hcall : s.calls c = some (.create dto createdAt stage))
    (hentry : stage.entry? = some created.readBack)
    (halone : s.Alone c e) (hstep : s.step H e = some t) : w.Attempt c (events ++ [e]) t := by
  have hevents' : Event.commit ∈ events ++ [e] := List.mem_append_left _ hevents
  have howned (howns : (s.database.transaction.any fun tx => tx.caller == c) = true) : False := by
    rw [hdatabase] at howns
    exact Bool.false_ne_true howns
  cases Step.of_step hstep with
  | tick | redisDown | redisBack =>
    exact .committed created hdatabase hevents' dto createdAt stage hcall hentry
  | setLatestReply hsetting =>
    obtain rfl := eq_of_alone halone
    rw [hcall] at hsetting
    cases hsetting
    exact .committed created (by rw [database_setCall, database_store, hdatabase]) hevents' _ _ _
      (calls_setCall_self ..) hentry
  | enqueueReply henqueueing =>
    obtain rfl := eq_of_alone halone
    rw [hcall] at henqueueing
    cases henqueueing
    exact .committed created (by rw [database_setCall, database_enqueue, hdatabase]) hevents' _ _ _
      (calls_setCall_self ..) hentry
  | enqueueThrow henqueueing =>
    obtain rfl := eq_of_alone halone
    rw [hcall] at henqueueing
    cases henqueueing
    exact .committed created hdatabase hevents' _ _ _ (calls_setCall_self ..) hentry
  | createLogEntry hnone =>
    obtain rfl := eq_of_alone halone
    rw [hcall] at hnone
    cases hnone
  | lockChainHead hwaiting | headMissing hwaiting | cancel hwaiting =>
    obtain rfl := eq_of_alone halone
    rw [hcall] at hwaiting
    cases hwaiting
    cases hentry
  | computeHashes | insertEntry | updateChainHead | commit | rollback =>
    exact (howned halone).elim
  | getLogById | getReply | findById | setReply | expire | tamper =>
    exact (Bool.false_ne_true halone).elim

theorem Attempt.of_step (hothers : ∀ tx ∈ w.database.transaction, tx.caller ≠ c)
    (hattempt : w.Attempt c events s) (halone : s.Alone c e) (hstep : s.step H e = some t) :
    w.Attempt c (events ++ [e]) t := by
  cases hattempt with
  | uncommitted hstores htx hevents hcall =>
    exact attempt_of_step_of_uncommitted hothers hstores htx hevents hcall halone hstep
  | transacting hstores hfree tx htx hcaller hevents hcall =>
    exact attempt_of_step_of_transacting hstores hfree htx hcaller hevents hcall halone hstep
  | committed created hdatabase hevents dto createdAt stage hcall hentry =>
    exact attempt_of_step_of_committed hdatabase hevents hcall hentry halone hstep

end Steps

/-- A call that is alone, from its start. -/
theorem attempt_of_run {w t : World} {c : ℕ} {events : List Event} (hcall : w.calls c = none)
    (hothers : ∀ tx ∈ w.database.transaction, tx.caller ≠ c)
    (hrun : Run (step H) (Alone c) w events t) : w.Attempt c events t := by
  induction hrun with
  | nil => exact attempt_nil hcall
  | snoc _ halone hstep ih => exact ih.of_step hothers halone hstep

/-- **All or nothing.** A call that has ended has rejected exactly when its
transaction did not commit. If it rejected, everything is as it was; if it
returned, one row was added, `chain_head` names it and it was returned. -/
theorem createLogEntry_all_or_nothing {w t : World} {c : ℕ} {dto : CreateLogDto}
    {createdAt : JsDate} {stage : CreateStage} {events : List Event}
    (hnew : w.calls c = none) (hothers : ∀ tx ∈ w.database.transaction, tx.caller ≠ c)
    (hrun : Run (step H) (Alone c) w events t)
    (hcall : t.calls c = some (.create dto createdAt stage))
    (hfinished : (Call.create dto createdAt stage).isFinished = true) :
    (stage = .rejected ↔ Event.commit ∉ events) ∧
    (stage = .rejected → t.database = w.database ∧ t.redis = w.redis ∧ t.queue = w.queue) ∧
    ∀ entry, stage = .returned entry → ∃ created,
      t.database.entries = w.database.entries ++ [created] ∧
      t.database.chainHead = some ⟨created.currentHash, some created.id⟩ ∧
      entry = created.readBack := by
  cases attempt_of_run hnew hothers hrun with
  | uncommitted hstores htx hevents hstage =>
    rw [hcall] at hstage
    rcases hstage with hnone | ⟨_, _, _, hsame, rfl | rfl⟩
    · cases hnone
    · cases hsame
      cases hfinished
    · cases hsame
      refine ⟨iff_of_true rfl hevents, fun _ => ⟨?_, hstores.redis, hstores.queue⟩, ?_⟩
      · have hentries := hstores.entries
        have hhead := hstores.chainHead
        cases hdb : t.database
        cases hdb' : w.database
        rw [hdb, hdb'] at hentries hhead htx
        rw [Database.mk.injEq]
        exact ⟨hentries, hhead, htx⟩
      · rintro _ ⟨⟩
  | transacting hstores hfree tx htx hcaller hevents htransacting =>
    rw [hcall] at htransacting
    cases htransacting
    cases hfinished
  | committed created hdatabase hevents dto' createdAt' stage' hcommitted hentry =>
    rw [hcall] at hcommitted
    cases hcommitted
    have hnotRejected : stage ≠ .rejected := by
      rintro rfl
      cases hentry
    refine ⟨iff_of_false hnotRejected (not_not.mpr hevents), fun h => absurd h hnotRejected, ?_⟩
    rintro entry rfl
    rw [hdatabase]
    exact ⟨created, rfl, rfl, Option.some.inj hentry⟩

/-- The entry is committed; then Redis rejects the `set` and the queue cannot be
built. -/
def degradedEvents : List Event :=
  [.createLogEntry 0 ⟨js "alice", js "login", .null⟩] ++ appendEvents 0 (js "1") ++
    [.setLatestReply 0 false, .enqueueThrow 0]

theorem createLogEntry_all_or_nothing_degraded :
    ∃ (t : World) (dto : CreateLogDto) (createdAt : JsDate) (created : Row),
      Run (step sha256) (Alone 0) (start JsDate.epoch) degradedEvents t ∧
      t.calls 0 = some (.create dto createdAt (.returned created.readBack)) ∧
      t.database.entries = [created] ∧
      t.database.chainHead = some ⟨created.currentHash, some created.id⟩ := by
  have hexecute : (execute (step sha256) (Alone 0) (start JsDate.epoch) degradedEvents).any
      (fun t => (t.calls 0).any fun call => call.isFinished && call.isCreate) = true := by
    decide +kernel
  obtain ⟨t, hrun, hcheck⟩ := Run.exists_of_execute hexecute
  obtain ⟨call, hcall, hends⟩ := (Option.any_eq_true _ _).mp hcheck
  rw [Bool.and_eq_true] at hends
  cases call with
  | read => exact absurd hends.2 Bool.false_ne_true
  | create dto createdAt stage =>
    have houtcome := createLogEntry_all_or_nothing rfl (by simp [start, Database.initial]) hrun
      hcall hends.1
    have hcommit : Event.commit ∈ degradedEvents := by simp [degradedEvents, appendEvents]
    have hnotRejected : stage ≠ .rejected := fun h => houtcome.1.mp h hcommit
    cases stage with
    | returned entry =>
      obtain ⟨created, hentries, hhead, rfl⟩ := houtcome.2.2 entry rfl
      exact ⟨t, dto, createdAt, created, hrun, hcall, hentries, hhead⟩
    | rejected => exact absurd rfl hnotRejected
    | waiting | transacting | settingLatest | enqueueing => exact absurd hends.1 Bool.false_ne_true

end World

end TamperEvidentLog.Service
