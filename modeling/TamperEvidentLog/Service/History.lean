/-
# The history behind a table that anybody may change

Whatever is done to `log_entries`, the service goes on appending behind
`chain_head`. The entries it has committed form a history of their own: it is
always one valid chain, and `chain_head` always names its end, because neither the
lock nor the hashes depend on what is in the table.

So the table can be compared with the history although nobody kept a copy of it.
A table that verifies and ends in the hash of `chain_head` is the history. And the
next entry carries that hash into the table: a change that verification cannot
see by itself, like removing the newest entries, comes to light in every
verification after an entry has been appended.
-/

import TamperEvidentLog.Protocol.Ascending
import TamperEvidentLog.Service.ChainIntegrity
import TamperEvidentLog.Service.Pagination

namespace TamperEvidentLog.Service

open TamperEvidentLog.Text TamperEvidentLog.Time TamperEvidentLog.Crypto
open TamperEvidentLog.Protocol

variable {H : Digest}

/-! ## The committed entries -/

namespace Database

/-- The row that an event commits. -/
def committed (db : Database) : DatabaseEvent → Option Row
  | .commit =>
    match db.transaction with
    | some ⟨_, _, _, .headUpdated created⟩ => some created
    | _ => none
  | _ => none

/-- The database with these rows in the place of its own. -/
def showing (db : Database) (history : List Row) : Database := { db with entries := history }

/-- **The step.** Whatever happens to the table, the history stays a valid chain
that `chain_head` names the end of and that the transaction in progress works
from. -/
theorem Consistent.showing_of_step {db db' : Database} {e : DatabaseEvent} {history : List Row}
    (hdb : (db.showing history).Consistent H) (hstep : db.step H e = some db') :
    (db'.showing (history ++ (db.committed e).toList)).Consistent H := by
  have hsame {e' : DatabaseEvent} {db'' : Database} (hallowed : e'.isTamper = false)
      (hshown : Step H (db.showing history) e' db'') : db''.Consistent H :=
    hdb.of_step hallowed hshown.step_eq
  have hquiet (hnone : db.committed e = none) (hkept : (db'.showing history).Consistent H) :
      (db'.showing (history ++ (db.committed e).toList)).Consistent H := by
    rw [hnone, Option.toList_none, List.append_nil]
    exact hkept
  cases Step.of_step hstep with
  | lockChainHead hfree hhead => exact hquiet rfl (hsame rfl (.lockChainHead hfree hhead))
  | computeHashes htx => exact hquiet rfl (hsame rfl (.computeHashes htx))
  | @insertEntry caller dto createdAt hashes id htx =>
    -- The keys are those of the table, not of the history.
    have hhashes := hdb.pending _ htx
    exact hquiet rfl (hdb.advance ⟨id, congrArg (newRow id dto createdAt) hhashes⟩)
  | updateChainHead htx => exact hquiet rfl (hsame rfl (.updateChainHead htx))
  | commit htx =>
    rw [committed, htx, Option.toList_some]
    exact hsame rfl (.commit htx)
  | rollback htx => exact hquiet rfl (hsame rfl (.rollback htx))
  | tamper => exact hquiet rfl hdb

end Database

namespace World

/-- The row that an event of the system commits. -/
def committed (w : World) (e : Event) : Option Row :=
  (w.databaseEvent e).bind w.database.committed

/-- The rows that a run commits, in their order. -/
def history (H : Digest) (w : World) (events : List Event) : List Row :=
  trace (step H) committed w events

/-- The history in the tables of the system. -/
theorem showing_of_step {w t : World} {e : Event} {history : List Row}
    (hw : (w.database.showing history).Consistent H) (hstep : w.step H e = some t) :
    (t.database.showing (history ++ (w.committed e).toList)).Consistent H := by
  have hquiet (hcommitted : w.committed e = none) (hsame : t.database = w.database) :
      (t.database.showing (history ++ (w.committed e).toList)).Consistent H := by
    rw [hcommitted, hsame, Option.toList_none, List.append_nil]
    exact hw
  cases Step.of_step hstep with
  | lockChainHead hcall hdb =>
    rw [committed, databaseEvent, hcall]
    exact hw.showing_of_step hdb
  | headMissing hcall => exact hquiet (by rw [committed, databaseEvent, hcall]; rfl) rfl
  | computeHashes hdb | insertEntry hdb | updateChainHead hdb | tamper hdb =>
    exact hw.showing_of_step hdb
  | commit htx hdb | rollback htx hdb => exact hw.showing_of_step hdb
  | setLatestReply | setReply => exact hquiet rfl (by simp)
  | enqueueReply => exact hquiet rfl (by simp)
  | _ => exact hquiet rfl rfl

/-- **The run.** The history is a valid chain behind `chain_head`, whatever has
been done to the table. -/
theorem showing_of_run {allowed : World → Event → Prop} {now : JsDate} {events : List Event}
    {w : World} (hrun : Run (step H) allowed (start now) events w) :
    (w.database.showing (history H (start now) events)).Consistent H := by
  induction hrun with
  | nil => exact Database.consistent_initial
  | snoc prior _ hstep ih =>
    rw [history, prior.trace_snoc hstep]
    exact showing_of_step ih hstep

end World

/-! ## Tables that agree with the history -/

/-- Two valid chains that end in one hash were hashed from the same bytes. -/
theorem ValidChain.hashedBytes_eq {first second : List Entry} (hfirst : ValidChain H first)
    (hsecond : ValidChain H second)
    (htip : chain.tipOf genesisPreviousHash first = chain.tipOf genesisPreviousHash second)
    (hfree : H.CollisionFreeOn (LogEntry.hashedBytes '' {entry | entry ∈ first ++ second})) :
    first.map LogEntry.hashedBytes = second.map LogEntry.hashedBytes := by
  have hboth (entry : Entry) (hentry : entry ∈ first ++ second) :
      verificationStatus H entry = true ∧ IsLinkText entry.resolvedPreviousHash := by
    rcases List.mem_append.mp hentry with hentry | hentry
    · exact ⟨hfirst.verified entry hentry, hfirst.isLinkText hentry⟩
    · exact ⟨hsecond.verified entry hentry, hsecond.isLinkText hentry⟩
  have hcommits := commits_of_collisionFreeOn (fun entry hentry => (hboth entry hentry).1)
    (fun entry hentry => (hboth entry hentry).2) hfree
  have htips := Linkage.map_tip_eq_of_tipOf_eq hcommits (fun x hx => List.mem_append_left _ hx)
    (fun x hx => List.mem_append_right _ hx) hfirst.linked hsecond.linked htip
  have hlength : first.length = second.length := by simpa using congrArg List.length htips
  refine List.ext_getElem (by simpa using hlength) fun i hi hi' => ?_
  rw [List.length_map] at hi hi'
  have hdigest : first[i].currentHash = second[i].currentHash := by
    have hget := congrArg (·[i]?) htips
    simpa [hi, hi'] using hget
  have hmem : first[i] ∈ first ++ second := List.mem_append_left _ (List.getElem_mem hi)
  have hmem' : second[i] ∈ first ++ second := List.mem_append_right _ (List.getElem_mem hi')
  rw [verificationStatus_iff.mp (hboth _ hmem).1,
    verificationStatus_iff.mp (hboth _ hmem').1] at hdigest
  rw [List.getElem_map, List.getElem_map]
  exact hfree (Set.mem_image_of_mem _ hmem) (Set.mem_image_of_mem _ hmem') hdigest

/-- The bytes that the hashes of rows are computed from. -/
def hashedInputs (rows : List Row) : List (List UInt8) :=
  rows.map fun row => row.asEntry.hashedBytes

namespace World

/-- **A table with the right end is the history.** In every reachable state,
whatever has been done to `log_entries`: rows that verify and end in the hash of
`chain_head` were hashed, one by one, from what was committed. -/
theorem history_of_anchored {allowed : World → Event → Prop} {now : JsDate} {events : List Event}
    {w : World} (hrun : Run (step H) allowed (start now) events w) {rows : List Row}
    (hsuccess : (verifyIntegrity H rows).isSuccess = true)
    (hanchor : ∀ head ∈ w.database.chainHead, endOf rows = head.latestHash)
    (hfree : H.CollisionFreeOn
      {bytes | bytes ∈ hashedInputs (rows ++ history H (start now) events)}) :
    hashedInputs rows = hashedInputs (history H (start now) events) := by
  have hdb := showing_of_run hrun
  have hend := hanchor _ hdb.head
  rw [endOf_eq_tipOf] at hend
  have hbytes := ValidChain.hashedBytes_eq (isSuccess_verifyEntireChain_iff.mp hsuccess) hdb.valid
    hend (hfree.mono ?_)
  · rw [List.map_map, List.map_map] at hbytes
    exact hbytes
  · rintro _ ⟨entry, hentry, rfl⟩
    have hentry' : entry ∈ (rows ++ history H (start now) events).map LogEntry.asEntry := by
      rw [List.map_append]
      exact hentry
    obtain ⟨row, hrow, rfl⟩ := List.mem_map.mp hentry'
    exact List.mem_map.mpr ⟨row, hrow, rfl⟩

/-- A row that nobody logged. -/
def forgedRow : Row where
  id := js "2"
  actor := js "mallory"
  action := js "login"
  payload := .null
  previousHash := none
  currentHash := js "forged"
  createdAt := JsDate.epoch

/-- A forged row comes and goes, and the table is the history again. -/
theorem history_of_anchored_undone :
    ∃ w events, Run (step sha256) (fun _ _ => True) (start JsDate.epoch) events w ∧
      .tamper (.insert forgedRow) ∈ events ∧
      (verifyIntegrity sha256 (w.database.entries.map LogEntry.readBack)) = .success 1 ∧
      hashedInputs (w.database.entries.map LogEntry.readBack) =
        hashedInputs (history sha256 (start JsDate.epoch) events) := by
  let events : List Event := [.createLogEntry 0 ⟨js "alice", js "login", .null⟩] ++
    appendEvents 0 (js "1") ++ [.tamper (.insert forgedRow), .tamper (.delete (js "2"))]
  let compared (w : World) : List (List UInt8) :=
    hashedInputs (w.database.entries.map LogEntry.readBack ++
      history sha256 (start JsDate.epoch) events)
  have hexecute : (execute (step sha256) (fun _ _ => True) (start JsDate.epoch) events).any
      (fun w => decide (
        verifyIntegrity sha256 (w.database.entries.map LogEntry.readBack) = .success 1 ∧
        (∀ head ∈ w.database.chainHead,
          endOf (w.database.entries.map LogEntry.readBack) = head.latestHash) ∧
        ((compared w).dedup.map sha256.hex).Nodup)) = true := by
    decide +kernel
  obtain ⟨w, hrun, hcheck⟩ := Run.exists_of_execute hexecute
  obtain ⟨hverified, hanchor, hnodup⟩ := of_decide_eq_true hcheck
  have hfree : sha256.CollisionFreeOn {bytes | bytes ∈ compared w} := by
    refine (Digest.collisionFreeOn_of_nodup hnodup).mono fun bytes hbytes => ?_
    exact List.mem_dedup.mpr hbytes
  exact ⟨w, events, hrun, by simp [events], hverified,
    history_of_anchored hrun (by rw [hverified]; rfl) hanchor hfree⟩

/-! ## The next entry brings it to light -/

theorem committed_eq_some_iff {w : World} {e : Event} {created : Row} :
    w.committed e = some created ↔ e = .commit ∧ ∃ c dto createdAt,
      w.database.transaction = some ⟨c, dto, createdAt, .headUpdated created⟩ := by
  cases e with
  | commit =>
    rw [committed, databaseEvent, Option.bind_some, Database.committed]
    split
    case h_1 htx => simp [htx]
    case h_2 hother =>
      refine iff_of_false (by simp) ?_
      rintro ⟨_, c, dto, createdAt, htx⟩
      exact hother c dto createdAt created htx
  | lockChainHead c =>
    rw [committed, databaseEvent]
    split <;> simp [Database.committed]
  | _ => simp [committed, databaseEvent, Database.committed]

/-- While nobody tampers, the table grows by what is committed. -/
theorem entries_of_committed {w t : World} {e : Event} (hallowed : NoTampering w e)
    (hstep : w.step H e = some t) :
    t.database.entries = w.database.entries ++ (w.committed e).toList := by
  rcases entries_of_step hstep with hsame | ⟨rfl, c, dto, createdAt, created, htx, hentries⟩ |
    ⟨_, rfl, _⟩
  · cases hcommitted : w.committed e with
    | none => rw [hsame, Option.toList_none, List.append_nil]
    | some created =>
      obtain ⟨rfl, c, dto, createdAt, htx⟩ := committed_eq_some_iff.mp hcommitted
      cases Step.of_step hstep with
      | commit _ hdb =>
        cases Database.Step.of_step hdb with
        | commit htx' =>
          cases htx.symm.trans htx'
          rfl
  · rw [hentries, committed_eq_some_iff.mpr ⟨rfl, c, dto, createdAt, htx⟩, Option.toList_some]
  · cases hallowed

/-- What is committed in the order of the time stamps is later than every row. -/
theorem later_of_committed {w : World} {e : Event} {history : List Row} {created : Row}
    (hw : (w.database.showing history).Consistent H) (horder : CommitsInOrder w e)
    (hcreated : w.committed e = some created) :
    ∀ row ∈ w.database.entries, row.createdAt.ms < created.createdAt.ms := by
  obtain ⟨rfl, c, dto, createdAt, htx⟩ := committed_eq_some_iff.mp hcreated
  obtain ⟨id, hrow⟩ := hw.pending _ htx
  rw [hrow]
  exact horder _ htx

/-- What a run without tampering, in the order of the time stamps, adds to the
table. -/
structure Grows (w t : World) (new : List Row) : Prop where
  /-- The new rows come last. -/
  entries : t.database.entries = w.database.entries ++ new
  /-- They are later than the old ones. -/
  later : ∀ old ∈ w.database.entries, ∀ row ∈ new, old.createdAt.ms < row.createdAt.ms
  /-- Their time stamps ascend. -/
  ascending : new.Pairwise fun first second => first.createdAt.ms < second.createdAt.ms

theorem grows_of_run {allowed : World → Event → Prop} {now : JsDate} {events later : List Event}
    {w t : World} (hrun : Run (step H) allowed (start now) events w)
    (hlater : Run (step H) AppendsInOrder w later t) : Grows w t (history H w later) := by
  induction hlater with
  | nil => exact ⟨(List.append_nil _).symm, by simp [history, trace], List.Pairwise.nil⟩
  | @snoc later s t e prior hallowed hstep ih =>
    have hentries := entries_of_committed hallowed.1 hstep
    have hs := showing_of_run ((hrun.mono fun _ _ _ => trivial).append
      (prior.mono fun _ _ _ => trivial))
    rw [history, prior.trace_snoc hstep, ← history]
    cases hcommitted : s.committed e with
    | none =>
      rw [hcommitted, Option.toList_none, List.append_nil] at hentries
      rw [Option.toList_none, List.append_nil]
      exact ⟨hentries.trans ih.entries, ih.later, ih.ascending⟩
    | some created =>
      have hnew := later_of_committed hs hallowed.2 hcommitted
      rw [ih.entries] at hnew
      rw [hcommitted, Option.toList_some] at hentries
      rw [Option.toList_some]
      refine ⟨by rw [hentries, ih.entries, List.append_assoc], fun old hold row hrow => ?_, ?_⟩
      · rcases List.mem_append.mp hrow with hrow | hrow
        · exact ih.later old hold row hrow
        · rw [List.mem_singleton.mp hrow]
          exact hnew old (List.mem_append_left _ hold)
      · refine List.pairwise_append.mpr ⟨ih.ascending, List.pairwise_singleton _ _, ?_⟩
        intro row hrow last hlast
        rw [List.mem_singleton.mp hlast]
        exact hnew row (List.mem_append_right _ hrow)

/-- A query after the growth returns what a query could have returned before it
and then the new rows. -/
theorem Grows.exists_kept {w t : World} {new : List Row} (hgrows : Grows w t new)
    (hnew : new ≠ []) {rows : List Row} (hrows : t.database.FindAllOrdered rows) :
    ∃ kept, w.database.FindAllOrdered kept ∧ rows = kept ++ new.map LogEntry.readBack := by
  obtain ⟨first, rest, rfl⟩ := List.exists_cons_of_ne_nil hnew
  let bound := first.createdAt.ms
  have hold : ∀ row ∈ w.database.entries.map LogEntry.readBack, row.createdAt.ms < bound := by
    intro row hrow
    obtain ⟨stored, hstored, rfl⟩ := List.mem_map.mp hrow
    exact hgrows.later stored hstored first List.mem_cons_self
  have hlate : ∀ row ∈ (first :: rest).map LogEntry.readBack, bound ≤ row.createdAt.ms := by
    intro row hrow
    obtain ⟨stored, hstored, rfl⟩ := List.mem_map.mp hrow
    rcases List.mem_cons.mp hstored with rfl | hstored
    · exact le_rfl
    · exact ((List.pairwise_cons.mp hgrows.ascending).1 stored hstored).le
  have hperm := hrows.1
  rw [hgrows.entries, List.map_append] at hperm
  obtain ⟨hbelow, habove⟩ := perm_filter_of_cut hperm hold hlate
  have hshown : (⟨first :: rest, none, none⟩ : Database).FindAllOrdered
      (rows.filter fun row => bound ≤ row.createdAt.ms) := ⟨habove, hrows.2.filter _⟩
  refine ⟨_, ⟨hbelow, hrows.2.filter _⟩, ?_⟩
  rw [← Database.eq_of_findAllOrdered_of_ascending hgrows.ascending hshown]
  exact (filter_lt_append_filter_le hrows.2 bound).symm

/-- **The next entry brings it to light.** Whatever has been done to the table:
if what verification hashes for its rows is not what was hashed for the history,
then after the service has appended an entry in the order of the time stamps, every
verification fails, for as long as nobody tampers again. -/
theorem tampering_surfaces {allowed : World → Event → Prop} {now : JsDate}
    {events later : List Event} {w t : World}
    (hrun : Run (step H) allowed (start now) events w)
    (hchanged : ∀ kept, w.database.FindAllOrdered kept →
      hashedInputs kept ≠ hashedInputs (history H (start now) events))
    (hlater : Run (step H) AppendsInOrder w later t)
    (hgrown : w.database.entries.length < t.database.entries.length) {rows : List Row}
    (hrows : t.database.FindAllOrdered rows)
    (hfree : H.CollisionFreeOn
      {bytes | bytes ∈ hashedInputs (rows ++ history H (start now) (events ++ later))}) :
    (verifyIntegrity H rows).isSuccess = false := by
  by_contra hne
  have hsuccess : (verifyIntegrity H rows).isSuccess = true := by simpa using hne
  have hgrows := grows_of_run hrun hlater
  have hnew : history H w later ≠ [] := by
    intro hnil
    rw [hgrows.entries, hnil, List.append_nil] at hgrown
    exact hgrown.ne rfl
  obtain ⟨kept, hkept, rfl⟩ := hgrows.exists_kept hnew hrows
  have hall : Run (step H) (fun _ _ => True) (start now) (events ++ later) t :=
    (hrun.mono fun _ _ _ => trivial).append (hlater.mono fun _ _ _ => trivial)
  have hhistory : history H (start now) (events ++ later) =
      history H (start now) events ++ history H w later := hrun.trace_append later
  have hnew' : (history H w later).map LogEntry.readBack ≠ [] := by simpa using hnew
  have hanchor : ∀ head ∈ t.database.chainHead,
      endOf (kept ++ (history H w later).map LogEntry.readBack) = head.latestHash := by
    intro head hhead
    have hshown := (showing_of_run hall).head
    rw [hhistory] at hshown
    cases hhead.symm.trans hshown
    rw [endOf_append_of_ne_nil _ hnew', endOf_map_readBack]
    exact (endOf_append_of_ne_nil _ hnew).symm.trans (endOf_eq_tipOf _)
  have hbytes := history_of_anchored hall hsuccess hanchor hfree
  rw [hhistory, hashedInputs, hashedInputs, List.map_append, List.map_append] at hbytes
  exact hchanged kept hkept (List.append_inj_left' hbytes (by simp))

/-- The newest of two entries is deleted. Verification succeeds, until the next
entry has been appended. -/
theorem tampering_surfaces_truncated :
    ∃ w t events later, Run (step sha256) (fun _ _ => True) (start JsDate.epoch) events w ∧
      Run (step sha256) AppendsInOrder w later t ∧
      (verifyIntegrity sha256 (w.database.entries.map LogEntry.readBack)).isSuccess = true ∧
      (verifyIntegrity sha256 (t.database.entries.map LogEntry.readBack)).isSuccess = false := by
  let dto : CreateLogDto := ⟨js "alice", js "login", .null⟩
  let events : List Event := [.createLogEntry 0 dto, .createLogEntry 1 dto] ++
    appendEvents 0 (js "1") ++ appendEvents 1 (js "2") ++ [.tamper (.delete (js "2"))]
  let later : List Event := [.tick nextMillisecond, .createLogEntry 2 dto] ++
    appendEvents 2 (js "3")
  let compared (t : World) : List (List UInt8) :=
    hashedInputs (t.database.entries.map LogEntry.readBack ++
      history sha256 (start JsDate.epoch) (events ++ later))
  have hexecute : (execute (step sha256) (fun _ _ => True) (start JsDate.epoch) events).any
      (fun w => decide (w.database.entries.length = 1 ∧
          (history sha256 (start JsDate.epoch) events).length = 2 ∧
          (verifyIntegrity sha256 (w.database.entries.map LogEntry.readBack)).isSuccess = true) &&
        (execute (step sha256) AppendsInOrder w later).any fun t => decide (
          w.database.entries.length < t.database.entries.length ∧
          t.database.entries.Pairwise
            (fun first second => first.createdAt.ms ≤ second.createdAt.ms) ∧
          ((compared t).dedup.map sha256.hex).Nodup)) = true := by
    decide +kernel
  obtain ⟨w, hrun, hcheck⟩ := Run.exists_of_execute hexecute
  obtain ⟨hbefore, hafter⟩ := (Bool.and_eq_true _ _).mp hcheck
  obtain ⟨hone, htwo, hverified⟩ := of_decide_eq_true hbefore
  obtain ⟨t, hlater, hcheck'⟩ := Run.exists_of_execute hafter
  obtain ⟨hgrown, hsorted, hnodup⟩ := of_decide_eq_true hcheck'
  have hchanged : ∀ kept, w.database.FindAllOrdered kept →
      hashedInputs kept ≠ hashedInputs (history sha256 (start JsDate.epoch) events) := by
    intro kept hkept hsame
    have hlength := congrArg List.length hsame
    rw [hashedInputs, hashedInputs, List.length_map, List.length_map, hkept.1.length_eq,
      List.length_map, hone, htwo] at hlength
    cases hlength
  have hfree : sha256.CollisionFreeOn {bytes | bytes ∈ compared t} := by
    refine (Digest.collisionFreeOn_of_nodup hnodup).mono fun bytes hbytes => ?_
    exact List.mem_dedup.mpr hbytes
  exact ⟨w, t, events, later, hrun, hlater, hverified,
    tampering_surfaces hrun hchanged hlater hgrown
      ⟨List.Perm.refl _, List.pairwise_map.mpr hsorted⟩ hfree⟩

end World

end TamperEvidentLog.Service
