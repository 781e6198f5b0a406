/-
# Every call comes to an end

A call takes a bounded number of steps, whatever happens around it: seven at
most for a `createLogEntry`, three for a `getLogById`. Nothing is retried and
nothing waits for another call to make progress except for the row lock, whose
holder can always go on or roll back. So while Redis answers there is always a
step to take until every call has returned or thrown, and it does not matter in
which order the steps are taken.
-/

import TamperEvidentLog.Service.Cache
import TamperEvidentLog.Service.LatestLog
import TamperEvidentLog.Service.Outage

namespace TamperEvidentLog.Service

open TamperEvidentLog.Text TamperEvidentLog.Time TamperEvidentLog.Crypto
open TamperEvidentLog.Protocol

variable {H : Digest}

/-! ## What is left to do -/

/-- The steps that a call can still take, those inside its transaction left
out. -/
def Call.cost : Call → ℕ
  | create _ _ .waiting => 7
  | create _ _ .transacting => 3
  | create _ _ (.settingLatest _) => 2
  | create _ _ (.enqueueing _) => 1
  | create _ _ (.returned _) => 0
  | create _ _ .rejected => 0
  | read _ .gettingCache => 3
  | read _ .findingRow => 2
  | read _ (.settingCache _) => 1
  | read _ (.answered _) => 0

/-- The steps inside a transaction before it can commit. -/
def TransactionStage.cost : TransactionStage → ℕ
  | locked _ => 3
  | hashed _ => 2
  | inserted _ => 1
  | headUpdated _ => 0

/-- What a new call may spend. -/
def Event.grant : Event → ℕ
  | .createLogEntry _ _ => 7
  | .getLogById _ _ => 3
  | _ => 0

/-- Is the event a step of a call or of its transaction? -/
def Event.isService : Event → Bool
  | .lockChainHead _ | .cancel _ | .computeHashes | .insertEntry _ => true
  | .updateChainHead | .commit | .rollback => true
  | .setLatestReply _ _ | .enqueueReply _ _ | .enqueueThrow _ => true
  | .getReply _ _ | .findById _ | .setReply _ _ => true
  | _ => false

/-- What an event spends. -/
def Event.cost (e : Event) : ℕ := if e.isService then 1 else 0

namespace World

/-- The steps that call `c` can still take. -/
def callCost (w : World) (c : ℕ) : ℕ := (w.calls c).elim 0 Call.cost

/-- The steps that the transaction in progress can still take before its
commit. -/
def transactionCost (w : World) : ℕ := w.database.transaction.elim 0 fun tx => tx.stage.cost

/-- The steps that the calls in `S` can still take. -/
def work (S : Finset ℕ) (w : World) : ℕ := ∑ c ∈ S, w.callCost c + w.transactionCost

/-- All calls so far are in `S`. -/
def Within (S : Finset ℕ) (w : World) : Prop := ∀ c, w.calls c ≠ none → c ∈ S

theorem within_of_step {S : Finset ℕ} {w t : World} {e : Event} (hw : w.Owned)
    (hwithin : w.Within S) (hstarts : ∀ c ∈ started? e, c ∈ S) (hstep : w.step H e = some t) :
    t.Within S := by
  intro c hcall
  rcases call_of_step hw hstep c with hsame | ⟨call, hresumes, _⟩
  · exact hwithin c (hsame ▸ hcall)
  · cases hresumes with
    | createLogEntry | getLogById => exact hstarts c rfl
    | lockChainHead hold | headMissing hold | cancel hold => exact hwithin c (by simp [hold])
    | commit hold | rollback hold | setLatestReply hold => exact hwithin c (by simp [hold])
    | enqueueReply hold | enqueueThrow hold => exact hwithin c (by simp [hold])
    | getReply hold | findById hold | setReply hold => exact hwithin c (by simp [hold])

/-- A call that goes on changes the sum by what it spends. -/
theorem sum_callCost_setCall {S : Finset ℕ} (w : World) {c : ℕ} (hc : c ∈ S) (call : Call) :
    ∑ c' ∈ S, (w.setCall c call).callCost c' + w.callCost c =
      ∑ c' ∈ S, w.callCost c' + call.cost := by
  have hself : (w.setCall c call).callCost c = call.cost := by
    rw [callCost, calls_setCall_self, Option.elim_some]
  have hothers : ∑ c' ∈ S.erase c, (w.setCall c call).callCost c' =
      ∑ c' ∈ S.erase c, w.callCost c' := by
    refine Finset.sum_congr rfl fun c' hc' => ?_
    rw [callCost, callCost, calls_setCall_of_ne w (Finset.ne_of_mem_erase hc')]
  rw [← Finset.add_sum_erase S _ hc, ← Finset.add_sum_erase S w.callCost hc, hself, hothers]
  omega

/-- A call that goes on spends a step. -/
theorem work_resume {S : Finset ℕ} {w s : World} (hwithin : w.Within S)
    (hcalls : s.calls = w.calls) {c : ℕ} {call next : Call} (hcall : w.calls c = some call)
    (hpaid : next.cost + s.transactionCost + 1 ≤ call.cost + w.transactionCost) :
    (s.setCall c next).work S + 1 ≤ w.work S := by
  have hsum := sum_callCost_setCall s (hwithin c (by simp [hcall])) next
  have hsame : s.callCost = w.callCost := by
    funext c'
    rw [callCost, callCost, hcalls]
  have hcost : w.callCost c = call.cost := by
    rw [callCost, hcall, Option.elim_some]
  have htx : (s.setCall c next).transactionCost = s.transactionCost := rfl
  rw [hsame, hcost] at hsum
  rw [work, work, htx]
  omega

/-- A call that goes on outside its transaction spends a step. -/
theorem work_resume_of_lt {S : Finset ℕ} {w s : World} (hwithin : w.Within S)
    (hcalls : s.calls = w.calls) (hdatabase : s.database = w.database) {c : ℕ} {call next : Call}
    (hcall : w.calls c = some call) (hlt : next.cost < call.cost) :
    (s.setCall c next).work S + 1 ≤ w.work S := by
  refine work_resume hwithin hcalls hcall ?_
  have htx : s.transactionCost = w.transactionCost := by
    rw [transactionCost, transactionCost, hdatabase]
  omega

/-- A call that enters or leaves its transaction spends a step. -/
theorem work_transact {S : Finset ℕ} {w : World} {db : Database} (hwithin : w.Within S) {c : ℕ}
    {call next : Call} (hcall : w.calls c = some call)
    (hpaid : next.cost + ({ w with database := db } : World).transactionCost + 1 ≤
      call.cost + w.transactionCost) :
    (setCall { w with database := db } c next).work S + 1 ≤ w.work S :=
  work_resume (s := { w with database := db }) hwithin rfl hcall hpaid

/-- A transaction that goes on spends a step. -/
theorem work_advance {S : Finset ℕ} {w : World} {db : Database}
    (hpaid : ({ w with database := db } : World).transactionCost + 1 ≤ w.transactionCost) :
    ({ w with database := db } : World).work S + 1 ≤ w.work S := by
  have hsame : ({ w with database := db } : World).callCost = w.callCost := rfl
  rw [work, work, hsame]
  omega

/-- A new call brings what it may spend. -/
theorem work_start {S : Finset ℕ} {w : World} {c : ℕ} (hc : c ∈ S) (hcall : w.calls c = none)
    (call : Call) : (w.setCall c call).work S = w.work S + call.cost := by
  have hsum := sum_callCost_setCall w hc call
  have hcost : w.callCost c = 0 := by
    rw [callCost, hcall, Option.elim_none]
  have htx : (w.setCall c call).transactionCost = w.transactionCost := rfl
  rw [work, work, htx]
  omega

/-- What the reply to `get` leaves to do. -/
theorem cost_of_cacheHit {w : World} {id : JsString} {resolved : Bool} {stage : ReadStage}
    (hstage : w.cacheHit H id resolved = some stage) : (Call.read id stage).cost < 3 := by
  rcases cacheHit_cases hstage with rfl | ⟨_, _, _, _, _, rfl⟩ <;> simp [Call.cost]

/-- What the row that was found leaves to do. -/
theorem cost_rowFound (w : World) (id : JsString) : (Call.read id (w.rowFound id)).cost < 2 := by
  rw [rowFound]
  split <;> simp [Call.cost]

theorem transactionCost_of_eq {w : World} {c : ℕ} {dto : CreateLogDto} {createdAt : JsDate}
    {stage : TransactionStage} (htx : w.database.transaction = some ⟨c, dto, createdAt, stage⟩) :
    w.transactionCost = stage.cost := by
  rw [transactionCost, htx, Option.elim_some]

theorem transactionCost_of_none {w : World} (htx : w.database.transaction = none) :
    w.transactionCost = 0 := by
  rw [transactionCost, htx, Option.elim_none]

/-- **The step.** A step of a call is paid for out of what is left to do, and
nothing else adds to it but a new call. -/
theorem work_of_step {S : Finset ℕ} {w t : World} {e : Event} (hw : w.Owned)
    (hwithin : w.Within S) (hstarts : ∀ c ∈ started? e, c ∈ S) (hstep : w.step H e = some t) :
    t.work S + e.cost ≤ w.work S + e.grant := by
  cases Step.of_step hstep with
  | tick | expire | redisDown | redisBack => exact le_rfl
  | tamper hdb =>
    cases Database.Step.of_step hdb with
    | tamper => exact le_rfl
  | createLogEntry hcall | getLogById hcall => exact (work_start (hstarts _ rfl) hcall _).le
  | @lockChainHead c dto createdAt db hcall hdb =>
    cases Database.Step.of_step hdb with
    | lockChainHead hfree hhead =>
      refine work_transact hwithin hcall ?_
      rw [transactionCost_of_none hfree]
      exact le_rfl
  | headMissing hcall | cancel hcall | enqueueThrow hcall =>
    exact work_resume_of_lt hwithin rfl rfl hcall (by simp [Call.cost])
  | computeHashes hdb =>
    cases Database.Step.of_step hdb with
    | computeHashes htx =>
      refine work_advance ?_
      rw [transactionCost_of_eq htx]
      exact le_rfl
  | insertEntry hdb =>
    cases Database.Step.of_step hdb with
    | insertEntry htx =>
      refine work_advance ?_
      rw [transactionCost_of_eq htx]
      exact le_rfl
  | updateChainHead hdb =>
    cases Database.Step.of_step hdb with
    | updateChainHead htx =>
      refine work_advance ?_
      rw [transactionCost_of_eq htx]
      exact le_rfl
  | commit htx hdb =>
    cases Database.Step.of_step hdb with
    | commit =>
      refine work_transact hwithin ((hw _ _ _).mpr ⟨_, htx⟩) ?_
      rw [transactionCost_of_eq htx]
      exact le_rfl
  | @rollback tx db htx hdb =>
    cases Database.Step.of_step hdb with
    | rollback =>
      refine work_transact hwithin ((hw _ _ _).mpr ⟨_, htx⟩) ?_
      rw [transactionCost_of_none rfl]
      exact (by decide : 0 + 0 + 1 ≤ 3).trans (Nat.le_add_right _ _)
  | setLatestReply hcall =>
    exact work_resume_of_lt hwithin (calls_store ..) (database_store ..) hcall
      (by simp [Call.cost])
  | setReply hcall =>
    exact work_resume_of_lt hwithin (calls_store ..) (database_store ..) hcall
      (by simp [Call.cost])
  | enqueueReply hcall =>
    exact work_resume_of_lt hwithin (calls_enqueue ..) (database_enqueue ..) hcall
      (by simp [Call.cost])
  | getReply hcall hup hstage =>
    exact work_resume_of_lt hwithin rfl rfl hcall (cost_of_cacheHit hstage)
  | @findById c id hcall =>
    exact work_resume_of_lt hwithin rfl rfl hcall (cost_rowFound w id)

/-- **The run.** Whatever happens in it, a run takes no more steps of calls than
the calls that were started may take. -/
theorem account_of_run {allowed : World → Event → Prop} {now : JsDate} {events : List Event}
    {w : World} (hrun : Run (step H) allowed (start now) events w) :
    ∃ S, w.Within S ∧
      w.work S + (events.map Event.cost).sum ≤ (events.map Event.grant).sum := by
  let S : Finset ℕ := (events.filterMap started?).toFinset
  let inv (s : World) : Prop := s.Owned ∧ s.Within S
  have hmem {e : Event} (he : e ∈ events) : ∀ c ∈ started? e, c ∈ S := fun c hc =>
    List.mem_toFinset.mpr (List.mem_filterMap.mpr ⟨e, he, hc⟩)
  have hstart : inv (start now) := ⟨owned_start now, fun _ hcall => absurd rfl hcall⟩
  have hpreserved : ∀ s e t, (e ∈ events ∧ allowed s e) → s.step H e = some t → inv s → inv t :=
    fun _ _ _ hallowed hstep hs =>
      ⟨hs.1.of_step hstep, within_of_step hs.1 hs.2 (hmem hallowed.1) hstep⟩
  refine ⟨S, (hrun.restrict.invariant hstart hpreserved).2, ?_⟩
  have haccount := (hrun.restrict.strengthen hstart hpreserved).account
    fun s e t hallowed hstep =>
      work_of_step hallowed.1.1 hallowed.1.2 (hmem hallowed.2.1) hstep
  have hempty : (start now).work S = 0 := by
    simp [work, callCost, transactionCost, start, Database.initial]
  rwa [hempty, Nat.zero_add] at haccount

/-! ## There is always something to do -/

/-- A step of a call or its transaction, without a failure of PostgreSQL or of the
queue: a transaction rolls back only if PostgreSQL refuses its entry. -/
def Serving (w : World) (e : Event) : Prop := e.isService = true ∧ w.Outage e

/-- The transaction in progress can go on. -/
theorem exists_step_of_transaction {w : World} {tx : Transaction}
    (htx : w.database.transaction = some tx) : ∃ e t, w.Serving e ∧ w.step H e = some t := by
  obtain ⟨c, dto, createdAt, stage⟩ := tx
  cases stage with
  | locked latestHash =>
    exact ⟨.computeHashes, _, ⟨rfl, rfl⟩,
      Step.step_eq (.computeHashes (Database.Step.step_eq (.computeHashes htx)))⟩
  | hashed hashes =>
    by_cases hrefused : ¬ dto.Storable ∨ hashes.2 ∈ w.database.entries.map LogEntry.currentHash
    · have houtage : w.Outage .rollback := by
        simpa [Outage, happensInOutage, Database.insertFails, htx] using hrefused
      exact ⟨.rollback, _, ⟨rfl, houtage⟩,
        Step.step_eq (.rollback htx (Database.Step.step_eq (.rollback htx)))⟩
    · obtain ⟨hstorable, hhash⟩ := not_or.mp hrefused
      obtain ⟨id, hid⟩ :=
        Infinite.exists_notMem_finset (w.database.entries.map LogEntry.id).toFinset
      rw [List.mem_toFinset] at hid
      exact ⟨.insertEntry id, _, ⟨rfl, rfl⟩,
        Step.step_eq (.insertEntry
          (Database.Step.step_eq (.insertEntry htx (not_not.mp hstorable) hid hhash)))⟩
  | inserted created =>
    exact ⟨.updateChainHead, _, ⟨rfl, rfl⟩,
      Step.step_eq (.updateChainHead (Database.Step.step_eq (.updateChainHead htx)))⟩
  | headUpdated created =>
    exact ⟨.commit, _, ⟨rfl, rfl⟩,
      Step.step_eq (.commit htx (Database.Step.step_eq (.commit htx)))⟩

/-- What Redis holds under an entry's key is the text of a row. -/
def CachesRows (w : World) : Prop :=
  ∀ id text, w.redis (logKey id) = some text → ∃ row : Row, text = row.asEntry.encode

theorem cachesRows_start (now : JsDate) : (start now).CachesRows := by
  simp [CachesRows, start]

theorem CachesRows.of_step {w t : World} {e : Event} (hw : w.CachesRows)
    (hstep : w.step H e = some t) : t.CachesRows := by
  intro id text htext
  rcases redis_of_step hstep htext with hold | ⟨_, row, _, hencode⟩
  · exact hw id text hold
  · exact ⟨row, hencode⟩

theorem cachesRows_of_run {allowed : World → Event → Prop} {now : JsDate} {events : List Event}
    {w : World} (hrun : Run (step H) allowed (start now) events w) : w.CachesRows :=
  hrun.invariant (cachesRows_start now) fun _ _ _ _ hstep hs => hs.of_step hstep

/-- A read can make something of whatever `get` resolves to. -/
theorem CachesRows.exists_stage {w : World} (hw : w.CachesRows) (id : JsString) :
    ∃ stage, w.cacheHit H id true = some stage := by
  cases htext : w.redis (logKey id) with
  | none => exact ⟨.findingRow, by simp [cacheHit, htext]⟩
  | some text =>
    obtain ⟨row, rfl⟩ := hw id text htext
    obtain ⟨v, hparse, hentry⟩ := Option.bind_eq_some_iff.mp row.asEntry.decode_encode
    refine ⟨.answered (.found row.asEntry.decoded (verificationStatus H row.asEntry.decoded)), ?_⟩
    simp only [cacheHit, htext, if_true, hparse, hentry, Option.map_some]

/-- While Redis answers, an unfinished call leaves something to do. -/
theorem exists_serving {w : World} (hw : w.Owned) (hcache : w.CachesRows) (hup : w.redisUp = true)
    (hunfinished : ¬ w.AllCalls fun call => call.isFinished = true) :
    ∃ e t, w.Serving e ∧ w.step H e = some t := by
  simp only [AllCalls, not_forall] at hunfinished
  obtain ⟨c, call, hcall, hcall_unfinished⟩ := hunfinished
  cases call with
  | create dto createdAt stage =>
    cases stage with
    | waiting =>
      cases htx : w.database.transaction with
      | none =>
        obtain ⟨t, _, hstep, _⟩ := exists_lock (H := H) hcall htx
        exact ⟨.lockChainHead c, t, ⟨rfl, rfl⟩, hstep⟩
      | some tx => exact exists_step_of_transaction htx
    | transacting =>
      obtain ⟨stage, htx⟩ := (hw c dto createdAt).mp hcall
      exact exists_step_of_transaction htx
    | settingLatest entry =>
      exact ⟨.setLatestReply c true, _, ⟨rfl, rfl⟩, Step.step_eq (.setLatestReply hcall hup)⟩
    | enqueueing entry =>
      exact ⟨.enqueueReply c true, _, ⟨rfl, rfl⟩, Step.step_eq (.enqueueReply hcall hup)⟩
    | returned | rejected => exact absurd rfl hcall_unfinished
  | read id stage =>
    cases stage with
    | gettingCache =>
      obtain ⟨stage, hstage⟩ := hcache.exists_stage (H := H) id
      exact ⟨.getReply c true, _, ⟨rfl, rfl⟩, Step.step_eq (.getReply hcall hup hstage)⟩
    | findingRow => exact ⟨.findById c, _, ⟨rfl, rfl⟩, Step.step_eq (.findById hcall)⟩
    | settingCache row =>
      exact ⟨.setReply c true, _, ⟨rfl, rfl⟩, Step.step_eq (.setReply hcall hup)⟩
    | answered => exact absurd rfl hcall_unfinished

/-- The steps of calls leave Redis where it is. -/
theorem redisUp_of_isService {w t : World} {e : Event} (hservice : e.isService = true)
    (hstep : w.step H e = some t) : t.redisUp = w.redisUp := by
  rcases redisUp_of_step hstep with hsame | ⟨rfl, _⟩ | ⟨rfl, _⟩
  · exact hsame
  · cases hservice
  · cases hservice

/-- A step of a call starts none. -/
theorem started?_of_isService {e : Event} (hservice : e.isService = true) : started? e = none := by
  cases e <;> first | rfl | cases hservice

theorem grant_of_isService {e : Event} (hservice : e.isService = true) : e.grant = 0 := by
  cases e <;> first | rfl | cases hservice

/-- From every reachable state in which Redis answers, all calls can come to an
end. -/
theorem exists_drained {allowed : World → Event → Prop} {now : JsDate} {events : List Event}
    {w : World} (hrun : Run (step H) allowed (start now) events w) (hup : w.redisUp = true) :
    ∃ later t, Run (step H) Serving w later t ∧ t.AllCalls fun call => call.isFinished = true := by
  obtain ⟨S, hwithin, _⟩ := account_of_run hrun
  refine Run.exists_of_variant
    (fun s => s.Owned ∧ s.CachesRows ∧ s.Within S ∧ s.redisUp = true) _ (work S) ?_
    ⟨owned_of_run hrun, cachesRows_of_run hrun, hwithin, hup⟩
  intro s hinv hunfinished
  obtain ⟨hs, hcache, hwithin, hup⟩ := hinv
  obtain ⟨e, t, hserving, hstep⟩ := exists_serving (H := H) hs hcache hup hunfinished
  have hstarts : ∀ c ∈ started? e, c ∈ S := by
    rw [started?_of_isService hserving.1]
    simp
  have hpaid := work_of_step hs hwithin hstarts hstep
  rw [grant_of_isService hserving.1, Event.cost, if_pos hserving.1] at hpaid
  exact ⟨e, t, hserving, hstep, ⟨hs.of_step hstep, hcache.of_step hstep,
    within_of_step hs hwithin hstarts hstep, (redisUp_of_isService hserving.1 hstep).trans hup⟩,
    hpaid⟩

/-- **Every call comes to an end.** In any run the calls take at most seven steps
for each `createLogEntry` and three for each `getLogById` that was started. If
Redis answers from some moment on and no new call starts, all calls can come to an
end; and in whatever order they go on, they do, after at most as many steps as are
left: as long as one of them is unfinished, there is a step to take. -/
theorem calls_drain {allowed : World → Event → Prop} {now : JsDate} {events : List Event}
    {w : World} (hrun : Run (step H) allowed (start now) events w) :
    (events.map Event.cost).sum ≤ (events.map Event.grant).sum ∧
      (w.redisUp = true →
        (∃ later t, Run (step H) Serving w later t ∧
          t.AllCalls fun call => call.isFinished = true) ∧
        ∀ later t, Run (step H) (fun _ e => e.isService = true) w later t →
          (events.map Event.cost).sum + later.length ≤ (events.map Event.grant).sum ∧
          ((∀ e, t.Serving e → t.step H e = none) →
            t.AllCalls fun call => call.isFinished = true)) := by
  refine ⟨?_, fun hup => ⟨exists_drained hrun hup, fun later t hlater => ⟨?_, fun hstuck => ?_⟩⟩⟩
  · obtain ⟨S, _, hpaid⟩ := account_of_run hrun
    omega
  · have hall : Run (step H) (fun _ _ => True) (start now) (events ++ later) t :=
      (hrun.mono fun _ _ _ => trivial).append (hlater.mono fun _ _ _ => trivial)
    obtain ⟨S, _, hpaid⟩ := account_of_run hall
    have hservice := hlater.forall_mem fun _ _ hservice => hservice
    have hcost : later.map Event.cost = later.map fun _ => 1 :=
      List.map_congr_left fun e he => if_pos (hservice e he)
    have hgrant : later.map Event.grant = later.map fun _ => 0 :=
      List.map_congr_left fun e he => grant_of_isService (hservice e he)
    rw [List.map_append, List.map_append, List.sum_append, List.sum_append, hcost, hgrant,
      List.map_const', List.map_const', List.sum_replicate, List.sum_replicate] at hpaid
    simp only [smul_eq_mul, mul_one, mul_zero] at hpaid
    omega
  · by_contra hunfinished
    let inv (s : World) : Prop := s.Owned ∧ s.CachesRows ∧ s.redisUp = true
    have hw : inv w := ⟨owned_of_run hrun, cachesRows_of_run hrun, hup⟩
    have ht : inv t := hlater.invariant hw fun _ _ _ hservice hstep hs =>
      ⟨hs.1.of_step hstep, hs.2.1.of_step hstep,
        (redisUp_of_isService hservice hstep).trans hs.2.2⟩
    obtain ⟨e, u, hserving, hstep⟩ := exists_serving (H := H) ht.1 ht.2.1 ht.2.2 hunfinished
    rw [hstuck e hserving] at hstep
    cases hstep

/-- A read and two appends at once: seventeen steps are enough for all of them. -/
theorem calls_drain_three :
    ∃ w events later t, Run (step sha256) (fun _ _ => True) (start JsDate.epoch) events w ∧
      (events.map Event.grant).sum = 17 ∧ Run (step sha256) Serving w later t ∧
      t.AllCalls fun call => call.isFinished = true := by
  let dto : CreateLogDto := ⟨js "alice", js "login", .null⟩
  let events : List Event := [.createLogEntry 0 dto, .createLogEntry 1 dto,
    .getLogById 2 (js "1"), .lockChainHead 1]
  have hexecute : (execute (step sha256) (fun _ _ => True) (start JsDate.epoch) events).any
      (fun w => w.redisUp) = true := by
    decide +kernel
  obtain ⟨w, hrun, hup⟩ := Run.exists_of_execute hexecute
  obtain ⟨later, t, hlater, ht⟩ := ((calls_drain hrun).2 hup).1
  exact ⟨w, events, later, t, hrun, rfl, hlater, ht⟩

end World

end TamperEvidentLog.Service
