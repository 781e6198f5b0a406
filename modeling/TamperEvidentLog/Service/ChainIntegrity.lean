/-
# Integrity of the log over whole runs

Whatever the interleaving of the calls, the committed entries form one linear
chain in commit order, and `chain_head` names its end.

`verifyIntegrity` does not see the commit order. It walks the rows by ascending
`createdAt`, a time sampled before the lock is requested, so it follows the
chain only while entries are committed in the order of their time stamps; and it
does not look at `chain_head`, so what it walks may be any valid chain, an
initial segment of the one that was written among them.
-/

import TamperEvidentLog.Service.Storage
import TamperEvidentLog.Service.World

namespace TamperEvidentLog.Service

open TamperEvidentLog.Text TamperEvidentLog.Time TamperEvidentLog.Crypto
open TamperEvidentLog.Protocol

variable {H : Digest}

/-! ## The linear chain -/

/-- The event is a change from outside. -/
def Event.isTamper : Event → Bool
  | .tamper _ => true
  | _ => false

/-- Nobody but the service writes to the tables. -/
def NoTampering (_ : World) (e : Event) : Prop := e.isTamper = false

instance (w : World) (e : Event) : Decidable (NoTampering w e) :=
  inferInstanceAs (Decidable (_ = _))

namespace World

theorem isTamper_of_databaseEvent {w : World} {e : Event} {e' : DatabaseEvent}
    (he' : e' ∈ w.databaseEvent e) : e'.isTamper = e.isTamper := by
  cases e with
  | lockChainHead c =>
    rw [databaseEvent] at he'
    split at he' <;> cases he'
    rfl
  | _ => cases he' <;> rfl

/-- The database of a run without tampering is consistent. -/
theorem consistent_of_run {now : JsDate} {events : List Event} {w : World}
    (hrun : Run (step H) NoTampering (start now) events w) : w.database.Consistent H := by
  have hview : ∀ s e t, NoTampering s e → s.step H e = some t → t.database = s.database ∨
      ∃ e', Untampered s.database e' ∧ s.database.step H e' = some t.database := by
    intro s e t hallowed hstep
    rcases database_of_step hstep with hsame | ⟨e', he', hstep'⟩
    · exact .inl hsame
    · exact .inr ⟨e', (isTamper_of_databaseEvent he').trans hallowed, hstep'⟩
  obtain ⟨events', hrun'⟩ := hrun.simulate hview
  exact Database.consistent_of_run hrun'

end World

/-- A row of a consistent database has the previous hash that it resolves to. -/
theorem Database.Consistent.previousHash_eq {db : Database} (hdb : db.Consistent H) {row : Row}
    (hrow : row ∈ db.entries) : row.previousHash = some row.asEntry.resolvedPreviousHash := by
  obtain ⟨previousHash, hprevious⟩ := Option.isSome_iff_exists.mp (hdb.named row hrow)
  rw [hprevious, LogEntry.resolvedPreviousHash, LogEntry.asEntry, hprevious]
  rfl

namespace World

/-- **The linear chain.** In every reachable state the committed entries, in
commit order, form one chain that verifies, and `chain_head` names its last
entry. -/
theorem linear_chain {now : JsDate} {events : List Event} {w : World}
    (hrun : Run (step H) NoTampering (start now) events w) :
    (∀ row ∈ w.database.entries.head?, row.previousHash = some genesisPreviousHash) ∧
      (∀ (i : ℕ) (hi : i + 1 < w.database.entries.length),
        w.database.entries[i + 1].previousHash = some w.database.entries[i].currentHash) ∧
      (∀ row ∈ w.database.entries, row.currentHash = generateHash H
        { actor := row.actor, action := row.action, payload := row.payload,
          previousHash := row.previousHash.getD genesisPreviousHash,
          createdAt := some (.date row.createdAt) }) ∧
      (∃ head, w.database.chainHead = some head ∧
        head.latestLogId = w.database.entries.getLast?.map LogEntry.id ∧
        head.latestHash =
          (w.database.entries.getLast?.map LogEntry.currentHash).getD genesisPreviousHash ∧
        (head.latestHash = genesisPreviousHash ↔ w.database.entries = [])) ∧
      verifyEntireChain H (w.database.entries.map LogEntry.asEntry) =
        .success w.database.entries.length := by
  have hdb := consistent_of_run hrun
  refine ⟨fun row hrow => ?_, fun i hi => ?_, fun row hrow => ?_, ⟨_, hdb.head, rfl, ?_, ?_⟩, ?_⟩
  · rw [hdb.previousHash_eq (List.mem_of_head? hrow)]
    obtain ⟨rest, hentries⟩ := List.head?_eq_some_iff.mp hrow
    have hlinked := hdb.valid.linked
    rw [hentries, List.map_cons] at hlinked
    exact congrArg some hlinked.1
  · rw [hdb.previousHash_eq (List.getElem_mem hi)]
    have hlink := hdb.valid.linked.link_getElem_succ i (by simpa using hi)
    rw [List.getElem_map, List.getElem_map] at hlink
    exact congrArg some hlink
  · exact verificationStatus_iff.mp (hdb.valid.verified _ (List.mem_map_of_mem hrow))
  · exact Database.tip_eq_getLast? _
  · rw [Database.tip_eq_getLast?]
    cases hlast : w.database.entries.getLast? with
    | none => exact iff_of_true rfl (List.getLast?_eq_none_iff.mp hlast)
    | some row =>
      have hverified := hdb.valid.verified _
        (List.mem_map_of_mem (List.mem_of_getLast? hlast))
      apply iff_of_false (currentHash_ne_genesis hverified)
      intro hnil
      rw [hnil] at hlast
      cases hlast
  · exact verifyEntireChain_eq_success_iff.mpr ⟨by simp, hdb.valid⟩

/-- A call that appends one entry without interruption once it asks for the
lock. -/
def appendEvents (c : ℕ) (id : JsString) : List Event :=
  [.lockChainHead c, .computeHashes, .insertEntry id, .updateChainHead, .commit]

/-- Two calls start; the later one gets the lock first. -/
theorem linear_chain_overtaken :
    ∃ w events, Run (step sha256) NoTampering (start JsDate.epoch) events w ∧
      verifyEntireChain sha256 (w.database.entries.map LogEntry.asEntry) = .success 2 := by
  let dto : CreateLogDto := ⟨js "alice", js "login", .null⟩
  have hexecute : (execute (step sha256) NoTampering (start JsDate.epoch)
      ([.createLogEntry 0 dto, .createLogEntry 1 dto] ++ appendEvents 1 (js "1") ++
        appendEvents 0 (js "2"))).any
      (fun w => decide (w.database.entries.length = 2)) = true := by
    decide +kernel
  obtain ⟨w, hrun, hcheck⟩ := Run.exists_of_execute hexecute
  obtain ⟨_, _, _, _, hverified⟩ := linear_chain hrun
  rw [of_decide_eq_true hcheck] at hverified
  exact ⟨w, _, hrun, hverified⟩

end World

/-! ## Verification by time stamps -/

/-- What is assumed of the surroundings: the clock does not go backwards, storage
returns every payload as it was written, nobody tampers. -/
def PlainUse (w : World) : Event → Prop
  | .tick now => w.now.ms ≤ now.ms
  | .createLogEntry _ dto => dto.payload.json.inStorageOrder = true
  | .tamper _ => False
  | _ => True

instance (w : World) (e : Event) : Decidable (PlainUse w e) := by
  cases e <;> unfold PlainUse <;> infer_instance

/-- An entry is committed only if its time stamp is later than every committed
one. -/
def CommitsInOrder (w : World) : Event → Prop
  | .commit => ∀ tx ∈ w.database.transaction, ∀ row ∈ w.database.entries,
      row.createdAt.ms < tx.createdAt.ms
  | _ => True

instance (w : World) (e : Event) : Decidable (CommitsInOrder w e) := by
  cases e <;> unfold CommitsInOrder <;> infer_instance

namespace Database

/-- Time stamps ascend strictly in commit order and payloads survive storage. -/
structure Ordered (db : Database) : Prop where
  /-- Later entries have later time stamps. -/
  ascending : db.entries.Pairwise fun first second => first.createdAt.ms < second.createdAt.ms
  /-- Storage returns the payloads as they were written. -/
  payloads : ∀ row ∈ db.entries, row.payload.json.inStorageOrder = true

/-- Strictly ascending time stamps leave a query by ascending `createdAt` no
choice. -/
theorem eq_of_findAllOrdered_of_ascending {db : Database}
    (hascending : db.entries.Pairwise fun first second => first.createdAt.ms < second.createdAt.ms)
    {rows : List Row} (hrows : db.FindAllOrdered rows) :
    rows = db.entries.map LogEntry.readBack := by
  have hstrict : (db.entries.map LogEntry.readBack).Pairwise
      fun first second => first.createdAt.ms < second.createdAt.ms :=
    List.pairwise_map.mpr hascending
  have hnodup : ((db.entries.map LogEntry.readBack).map fun row => row.createdAt.ms).Nodup :=
    List.pairwise_map.mpr (hstrict.imp fun hlt => hlt.ne)
  refine List.Perm.eq_of_pairwise (fun first second hfirst hsecond hle hge => ?_) hrows.2
    (hstrict.imp fun hlt => hlt.le) hrows.1
  exact List.inj_on_of_nodup_map hnodup (hrows.1.mem_iff.mp hfirst) hsecond (le_antisymm hle hge)

theorem Ordered.eq_of_findAllOrdered {db : Database} (hdb : db.Ordered) {rows : List Row}
    (hrows : db.FindAllOrdered rows) : rows = db.entries.map LogEntry.readBack :=
  eq_of_findAllOrdered_of_ascending hdb.ascending hrows

/-- The walk over what `findAllOrdered` returns succeeds. -/
theorem Ordered.verifyIntegrity_eq {db : Database} (hdb : db.Ordered)
    (hconsistent : db.Consistent H) {rows : List Row} (hrows : db.FindAllOrdered rows) :
    verifyIntegrity H rows = .success db.entries.length := by
  rw [hdb.eq_of_findAllOrdered hrows]
  exact verifyEntireChain_eq_success_iff.mpr
    ⟨by simp, hconsistent.valid.readBack hdb.payloads⟩

end Database

namespace World

/-- Every request in the system satisfies `p`. -/
structure AllRequests (p : CreateLogDto → Prop) (w : World) : Prop where
  /-- In the calls. -/
  calls : w.AllCalls fun
    | .create dto _ _ => p dto
    | .read _ _ => True
  /-- In the transaction in progress. -/
  transaction : ∀ tx ∈ w.database.transaction, p tx.dto

/-- Requests enter through `createLogEntry` only. -/
theorem AllRequests.of_step {p : CreateLogDto → Prop} {w t : World} {e : Event}
    (hw : w.AllRequests p) (hnew : ∀ c dto, e = .createLogEntry c dto → p dto)
    (hstep : w.step H e = some t) : t.AllRequests p := by
  have hadvance {db : Database} {e' : DatabaseEvent} (hdb : w.database.step H e' = some db)
      (hlock : ∀ c dto createdAt, e' = .lockChainHead c dto createdAt → p dto) :
      ∀ tx ∈ db.transaction, p tx.dto := by
    intro tx htx
    cases Database.Step.of_step hdb with
    | lockChainHead hfree hhead =>
      cases htx
      exact hlock _ _ _ rfl
    | computeHashes htx' | insertEntry htx' | updateChainHead htx' =>
      cases htx
      have hdto := hw.transaction _ htx'
      exact hdto
    | commit | rollback => cases htx
    | tamper => exact hw.transaction tx htx
  cases Step.of_step hstep with
  | createLogEntry => exact ⟨hw.calls.setCall (hnew _ _ rfl), hw.transaction⟩
  | lockChainHead hcall hdb =>
    have hdto := hw.calls _ _ hcall
    refine ⟨AllCalls.setCall hw.calls hdto, hadvance hdb ?_⟩
    rintro _ _ _ ⟨⟩
    exact hdto
  | headMissing hcall | cancel hcall | enqueueThrow hcall =>
    exact ⟨hw.calls.setCall (hw.calls _ _ hcall), hw.transaction⟩
  | computeHashes hdb | insertEntry hdb | updateChainHead hdb | tamper hdb =>
    exact ⟨hw.calls, hadvance hdb (by simp)⟩
  | commit htx hdb | rollback htx hdb =>
    exact ⟨AllCalls.setCall hw.calls (hw.transaction _ htx), hadvance hdb (by simp)⟩
  | setLatestReply hcall =>
    exact ⟨(hw.calls.store _ _ _).setCall (hw.calls _ _ hcall), by simpa using hw.transaction⟩
  | enqueueReply hcall =>
    exact ⟨(hw.calls.enqueue _ _).setCall (hw.calls _ _ hcall), by simpa using hw.transaction⟩
  | getLogById | getReply | findById => exact ⟨hw.calls.setCall trivial, hw.transaction⟩
  | setReply =>
    exact ⟨(hw.calls.store _ _ _).setCall trivial, by simpa using hw.transaction⟩
  | tick | expire | redisDown | redisBack => exact ⟨hw.calls, hw.transaction⟩

/-- What a run in the assumed surroundings keeps true as long as entries are
committed in the order of their time stamps. -/
structure Orderly (H : Digest) (w : World) : Prop where
  /-- The database is consistent. -/
  consistent : w.database.Consistent H
  /-- Storage returns the requested payloads as they are. -/
  requests : w.AllRequests fun dto => dto.payload.json.inStorageOrder = true
  /-- Time stamps follow the commit order. -/
  ordered : w.database.Ordered

theorem orderly_start (now : JsDate) : (start now).Orderly H where
  consistent := Database.consistent_initial
  requests := ⟨by simp [AllCalls, start], by simp [start, Database.initial]⟩
  ordered := ⟨List.Pairwise.nil, by simp [start, Database.initial]⟩

theorem not_isTamper_of_plainUse {w : World} {e : Event} (hplain : PlainUse w e) :
    e.isTamper = false := by
  cases e with
  | tamper => exact hplain.elim
  | _ => rfl

/-- A step that changes nothing from outside keeps the database consistent. -/
theorem consistent_of_step {w t : World} {e : Event} (hconsistent : w.database.Consistent H)
    (hallowed : NoTampering w e) (hstep : w.step H e = some t) : t.database.Consistent H := by
  rcases database_of_step hstep with hsame | ⟨e', he', hstep'⟩
  · rw [hsame]
    exact hconsistent
  · exact hconsistent.of_step ((isTamper_of_databaseEvent he').trans hallowed) hstep'

/-- Committing in the order of the time stamps keeps them ascending. -/
theorem ascending_of_step {w t : World} {e : Event} (hconsistent : w.database.Consistent H)
    (hascending : w.database.entries.Pairwise
      fun first second => first.createdAt.ms < second.createdAt.ms)
    (hallowed : NoTampering w e) (horder : CommitsInOrder w e) (hstep : w.step H e = some t) :
    t.database.entries.Pairwise fun first second => first.createdAt.ms < second.createdAt.ms := by
  rcases entries_of_step hstep with hsame | ⟨rfl, c, dto, createdAt, created, htx, hentries⟩ |
    ⟨edit, rfl, _⟩
  · rw [hsame]
    exact hascending
  · obtain ⟨id, hcreated⟩ := hconsistent.pending _ htx
    have hlater : ∀ row ∈ w.database.entries, row.createdAt.ms < created.createdAt.ms := by
      rw [hcreated]
      exact horder _ htx
    rw [hentries, List.pairwise_append]
    refine ⟨hascending, List.pairwise_singleton _ _, fun row hrow last hlast => ?_⟩
    rw [List.mem_singleton.mp hlast]
    exact hlater row hrow
  · cases hallowed

theorem Orderly.of_step {w t : World} {e : Event} (hw : w.Orderly H) (hplain : PlainUse w e)
    (horder : CommitsInOrder w e) (hstep : w.step H e = some t) : t.Orderly H where
  consistent := consistent_of_step hw.consistent (not_isTamper_of_plainUse hplain) hstep
  requests := by
    refine hw.requests.of_step (fun c dto he => ?_) hstep
    rw [he] at hplain
    exact hplain
  ordered := by
    refine ⟨ascending_of_step hw.consistent hw.ordered.ascending (not_isTamper_of_plainUse hplain)
      horder hstep, ?_⟩
    rcases entries_of_step hstep with hsame | ⟨rfl, c, dto, createdAt, created, htx, hentries⟩ |
      ⟨edit, rfl, _⟩
    · rw [hsame]
      exact hw.ordered.payloads
    · obtain ⟨id, hcreated⟩ := hw.consistent.pending _ htx
      have hpayload : created.payload.json.inStorageOrder = true := by
        rw [hcreated]
        exact hw.requests.transaction _ htx
      rw [hentries]
      intro row hrow
      rcases List.mem_append.mp hrow with hrow | hrow
      · exact hw.ordered.payloads row hrow
      · rw [List.mem_singleton.mp hrow]
        exact hpayload
    · exact hplain.elim

/-- **No false alarm** in a run that commits entries in the order of their time
stamps. -/
theorem no_false_alarm {now : JsDate} {events : List Event} {w : World}
    (hrun : Run (step H) (fun w e => PlainUse w e ∧ CommitsInOrder w e) (start now) events w)
    {rows : List Row} (hrows : w.database.FindAllOrdered rows) :
    verifyIntegrity H rows = .success w.database.entries.length := by
  have hw : w.Orderly H := hrun.invariant (orderly_start now)
    fun _ _ _ hallowed hstep hw => hw.of_step hallowed.1 hallowed.2 hstep
  exact hw.ordered.verifyIntegrity_eq hw.consistent hrows

/-- The time right after the epoch. -/
def nextMillisecond : JsDate := ⟨1, by decide, by decide⟩

theorem no_false_alarm_sequential :
    ∃ w events, Run (step sha256) (fun w e => PlainUse w e ∧ CommitsInOrder w e)
        (start JsDate.epoch) events w ∧
      verifyIntegrity sha256 (w.database.entries.map LogEntry.readBack) = .success 2 := by
  let dto : CreateLogDto := ⟨js "alice", js "login", .null⟩
  have hexecute : (execute (step sha256) (fun w e => PlainUse w e ∧ CommitsInOrder w e)
      (start JsDate.epoch) ([.createLogEntry 0 dto] ++ appendEvents 0 (js "1") ++
        [.tick nextMillisecond, .createLogEntry 1 dto] ++ appendEvents 1 (js "2"))).any
      (fun w => decide (w.database.entries.length = 2 ∧ w.database.entries.Pairwise
        fun first second => first.createdAt.ms ≤ second.createdAt.ms)) = true := by
    decide +kernel
  obtain ⟨w, hrun, hcheck⟩ := Run.exists_of_execute hexecute
  obtain ⟨htwo, hsorted⟩ := of_decide_eq_true hcheck
  have hverified := no_false_alarm hrun ⟨List.Perm.refl _, List.pairwise_map.mpr hsorted⟩
  rw [htwo] at hverified
  exact ⟨w, _, hrun, hverified⟩

/-- Of two calls the one that started later commits first. -/
theorem false_alarm_overtaken :
    ∃ w events rows, Run (step sha256) PlainUse (start JsDate.epoch) events w ∧
      w.database.FindAllOrdered rows ∧ (verifyIntegrity sha256 rows).isSuccess = false := by
  let dto : CreateLogDto := ⟨js "alice", js "login", .null⟩
  have hexecute : (execute (step sha256) PlainUse (start JsDate.epoch)
      ([.createLogEntry 0 dto, .tick nextMillisecond, .createLogEntry 1 dto] ++
        appendEvents 1 (js "1") ++ appendEvents 0 (js "2"))).any
      (fun w => decide ((w.database.entries.map LogEntry.readBack).reverse.Pairwise
          (fun first second => first.createdAt.ms ≤ second.createdAt.ms) ∧
        (verifyIntegrity sha256 (w.database.entries.map LogEntry.readBack).reverse).isSuccess =
          false)) = true := by
    decide +kernel
  obtain ⟨w, hrun, hcheck⟩ := Run.exists_of_execute hexecute
  obtain ⟨hsorted, hfailed⟩ := of_decide_eq_true hcheck
  exact ⟨w, _, _, hrun, ⟨List.reverse_perm _, hsorted⟩, hfailed⟩

end World

end TamperEvidentLog.Service
