/-
# Appending keeps the chain

As long as nobody but the service writes to the tables, every reachable database
is consistent: the committed entries form a valid chain, `chain_head` names the
last of them, and the transaction in progress works from that very state. The
lock is what carries the last clause: nothing is committed between the moment a
transaction reads `latestHash` and the moment it commits.

Consistency gives the two facts callers rely on. Entries never share a hash,
however alike they are, and the unique index on `currentHash` never refuses an
entry: an `INSERT` fails because of the columns or not at all.
-/

import TamperEvidentLog.Crypto.Sha256
import TamperEvidentLog.Protocol.Run
import TamperEvidentLog.Service.ChainVerification
import TamperEvidentLog.Service.LogRepository

namespace TamperEvidentLog.Service

open TamperEvidentLog.Text TamperEvidentLog.Time TamperEvidentLog.Crypto
open TamperEvidentLog.Protocol

variable {H : Digest}

/-! ## The row of a new entry -/

/-- The bytes hashed for an entry behind `latestHash`. -/
def nextInput (latestHash : JsString) (dto : CreateLogDto) (createdAt : JsDate) : List UInt8 :=
  utf8 (hashInput
    { actor := dto.actor, action := dto.action, payload := dto.payload,
      previousHash := latestHash, createdAt := some (.date createdAt) })

/-- The two branches of the transaction compute the same thing. -/
theorem computeHashes_eq (latestHash : JsString) (dto : CreateLogDto) (createdAt : JsDate) :
    computeHashes H latestHash dto createdAt =
      (latestHash, H.hex (nextInput latestHash dto createdAt)) := by
  rw [computeHashes]
  split
  case isTrue hgenesis =>
    rw [hgenesis]
    rfl
  case isFalse => rfl

/-- The row of an entry behind `latestHash`. -/
def nextRow (H : Digest) (latestHash id : JsString) (dto : CreateLogDto) (createdAt : JsDate) :
    Row :=
  newRow id dto createdAt (computeHashes H latestHash dto createdAt)

section NextRow

variable (latestHash id : JsString) (dto : CreateLogDto) (createdAt : JsDate)

theorem resolvedPreviousHash_nextRow :
    (nextRow H latestHash id dto createdAt).asEntry.resolvedPreviousHash = latestHash := by
  rw [nextRow, computeHashes_eq]
  rfl

theorem hashedBytes_nextRow :
    (nextRow H latestHash id dto createdAt).asEntry.hashedBytes =
      nextInput latestHash dto createdAt := by
  rw [LogEntry.hashedBytes, resolvedPreviousHash_nextRow]
  rfl

/-- The verifier recomputes what the writer computed. -/
theorem verificationStatus_nextRow :
    verificationStatus H (nextRow H latestHash id dto createdAt).asEntry = true := by
  rw [verificationStatus_iff, hashedBytes_nextRow, nextRow, computeHashes_eq]
  rfl

end NextRow

/-! ## Consistency -/

namespace Database

/-- The hash that the next entry has to name. -/
def tip (db : Database) : JsString :=
  chain.tipOf genesisPreviousHash (db.entries.map LogEntry.asEntry)

/-- It is the hash of the last row, if there is one. -/
theorem tip_eq_getLast? (db : Database) :
    db.tip = (db.entries.getLast?.map LogEntry.currentHash).getD genesisPreviousHash := by
  rw [tip, tipOf_eq_elim_getLast?, List.getLast?_map]
  cases db.entries.getLast? <;> rfl

end Database

/-- The hash that rows end in. -/
def endOf (rows : List Row) : JsString :=
  (rows.getLast?.map LogEntry.currentHash).getD genesisPreviousHash

theorem endOf_eq_tipOf (rows : List Row) :
    endOf rows = chain.tipOf genesisPreviousHash (rows.map LogEntry.asEntry) :=
  (Database.tip_eq_getLast? ⟨rows, none, none⟩).symm

/-- Storage does not touch it. -/
theorem endOf_map_readBack (rows : List Row) : endOf (rows.map LogEntry.readBack) = endOf rows := by
  rw [endOf, List.getLast?_map, Option.map_map]
  rfl

/-- The later rows decide where rows end. -/
theorem endOf_append_of_ne_nil (first : List Row) {second : List Row} (hsecond : second ≠ []) :
    endOf (first ++ second) = endOf second := by
  rw [endOf, List.getLast?_append_of_ne_nil first hsecond, endOf]

/-- A transaction works from a state of the log that ends in `tip`. -/
def Transaction.WorksFrom (H : Digest) (tip : JsString) (tx : Transaction) : Prop :=
  match tx.stage with
  | .locked latestHash => latestHash = tip
  | .hashed hashes => hashes = computeHashes H tip tx.dto tx.createdAt
  | .inserted created | .headUpdated created =>
    ∃ id, created = nextRow H tip id tx.dto tx.createdAt

namespace Database

variable (H) in
/-- The tables agree with each other and with the transaction in progress. -/
structure Consistent (db : Database) : Prop where
  /-- The committed entries form a valid chain. -/
  valid : ValidChain H (db.entries.map LogEntry.asEntry)
  /-- No entry leaves its previous hash null. -/
  named : ∀ row ∈ db.entries, row.previousHash.isSome = true
  /-- `chain_head` names the last entry. -/
  head : db.chainHead = some ⟨db.tip, db.entries.getLast?.map LogEntry.id⟩
  /-- The transaction in progress works from the committed state. -/
  pending : ∀ tx ∈ db.transaction, tx.WorksFrom H db.tip

theorem consistent_initial : initial.Consistent H where
  valid := validChain_nil
  named := by simp [initial]
  head := rfl
  pending := by simp [initial]

end Database

/-- The event is a change from outside. -/
def DatabaseEvent.isTamper : DatabaseEvent → Bool
  | .tamper _ => true
  | _ => false

/-- Nobody but the service writes to the tables. -/
def Untampered (_ : Database) (e : DatabaseEvent) : Prop := e.isTamper = false

instance (db : Database) (e : DatabaseEvent) : Decidable (Untampered db e) :=
  inferInstanceAs (Decidable (_ = _))

namespace Database

/-- A transaction that only advances keeps the database consistent if it keeps
working from the committed state. -/
theorem Consistent.advance {db : Database} (hdb : db.Consistent H) {tx : Transaction}
    (htx : tx.WorksFrom H db.tip) :
    ({ db with transaction := some tx } : Database).Consistent H :=
  ⟨hdb.valid, hdb.named, hdb.head, fun _ h => Option.mem_some.mp h ▸ htx⟩

/-- **The step.** No event of the service breaks consistency. -/
theorem Consistent.of_step {db db' : Database} {e : DatabaseEvent} (hdb : db.Consistent H)
    (hallowed : Untampered db e) (hstep : db.step H e = some db') : db'.Consistent H := by
  cases Step.of_step hstep with
  | lockChainHead hfree hhead =>
    rw [hdb.head, Option.some.injEq] at hhead
    exact hdb.advance (congrArg ChainHead.latestHash hhead).symm
  | computeHashes htx =>
    have hlatest := hdb.pending _ htx
    exact hdb.advance (congrArg (Service.computeHashes H · _ _) hlatest)
  | @insertEntry caller dto createdAt hashes id htx =>
    have hhashes := hdb.pending _ htx
    exact hdb.advance ⟨id, congrArg (newRow id dto createdAt) hhashes⟩
  | updateChainHead htx =>
    have hcreated := hdb.pending _ htx
    exact hdb.advance hcreated
  | @commit caller dto createdAt created htx =>
    obtain ⟨id, hcreated⟩ := hdb.pending _ htx
    replace hcreated : created = nextRow H db.tip id dto createdAt := hcreated
    subst hcreated
    refine ⟨?_, fun row hrow => ?_, ?_, by simp⟩
    · rw [List.map_append, List.map_singleton, validChain_snoc]
      exact ⟨hdb.valid, resolvedPreviousHash_nextRow _ _ _ _, verificationStatus_nextRow _ _ _ _⟩
    · rcases List.mem_append.mp hrow with hrow | hrow
      · exact hdb.named row hrow
      · rw [List.mem_singleton.mp hrow]
        rfl
    · have htip (row : Row) : chain.tipOf genesisPreviousHash
          ((db.entries ++ [row]).map LogEntry.asEntry) = row.currentHash := by
        rw [List.map_append, List.map_singleton, Linkage.tipOf_snoc]
        rfl
      simp only [tip, htip, List.getLast?_concat, Option.map_some]
  | rollback htx => exact ⟨hdb.valid, hdb.named, hdb.head, by simp⟩
  | tamper => cases hallowed

/-- **The run.** -/
theorem consistent_of_run {events : List DatabaseEvent} {db : Database}
    (hrun : Run (step H) Untampered initial events db) : db.Consistent H :=
  hrun.invariant consistent_initial fun _ _ _ hallowed hstep hdb => hdb.of_step hallowed hstep

/-- The chain with one more entry. -/
theorem Consistent.validChain_next {db : Database} (hdb : db.Consistent H) (id : JsString)
    (dto : CreateLogDto) (createdAt : JsDate) :
    ValidChain H (db.entries.map LogEntry.asEntry ++
      [(nextRow H db.tip id dto createdAt).asEntry]) :=
  validChain_snoc.mpr ⟨hdb.valid, resolvedPreviousHash_nextRow _ _ _ _,
    verificationStatus_nextRow _ _ _ _⟩

/-! ## Distinct hashes -/

/-- The bytes hashed for the committed entries. -/
def storedInputs (db : Database) : List (List UInt8) :=
  db.entries.map fun row => row.asEntry.hashedBytes

/-- The committed entries commit to their past. -/
theorem Consistent.commits {db : Database} (hdb : db.Consistent H)
    (hfree : H.CollisionFreeOn {bytes | bytes ∈ db.storedInputs}) :
    chain.Commits genesisPreviousHash {entry | entry ∈ db.entries.map LogEntry.asEntry} := by
  refine hdb.valid.commits (hfree.mono ?_)
  rintro _ ⟨entry, hentry, rfl⟩
  obtain ⟨row, hrow, rfl⟩ := List.mem_map.mp hentry
  exact List.mem_map.mpr ⟨row, hrow, rfl⟩

/-- The hash of a new entry is not yet in the table. -/
theorem Consistent.next_hash_not_mem {db : Database} (hdb : db.Consistent H)
    (dto : CreateLogDto) (createdAt : JsDate)
    (hfree : H.CollisionFreeOn
      {bytes | bytes ∈ nextInput db.tip dto createdAt :: db.storedInputs}) :
    (Service.computeHashes H db.tip dto createdAt).2 ∉ db.entries.map LogEntry.currentHash := by
  have hnext := hdb.validChain_next (js "") dto createdAt
  have hcommits := hnext.commits (hfree.mono ?_)
  · have hnodup := Linkage.tips_nodup hcommits (fun _ h => h) hnext.linked
    rw [List.map_append, List.nodup_append] at hnodup
    intro hmem
    obtain ⟨row, hrow, hhash⟩ := List.mem_map.mp hmem
    exact hnodup.2.2 row.currentHash
      (List.mem_map.mpr ⟨row.asEntry, List.mem_map_of_mem hrow, rfl⟩) _ (List.mem_singleton_self _)
      hhash
  · rintro _ ⟨entry, hentry, rfl⟩
    rcases List.mem_append.mp hentry with hentry | hentry
    · obtain ⟨row, hrow, rfl⟩ := List.mem_map.mp hentry
      exact List.mem_cons_of_mem _ (List.mem_map.mpr ⟨row, hrow, rfl⟩)
    · rw [List.mem_singleton.mp hentry, hashedBytes_nextRow]
      exact List.mem_cons_self

/-- **No two entries share a hash**, and none ever will. -/
theorem hashes_distinct {events : List DatabaseEvent} {db : Database}
    (hrun : Run (step H) Untampered initial events db)
    (hfree : H.CollisionFreeOn {bytes | bytes ∈ db.storedInputs}) :
    (db.entries.map LogEntry.currentHash).Nodup ∧
      (db.entries.map LogEntry.previousHash).Nodup ∧
      (∀ head ∈ db.chainHead, ∀ dto createdAt,
        H.CollisionFreeOn {bytes | bytes ∈ nextInput head.latestHash dto createdAt ::
          db.storedInputs} →
        (Service.computeHashes H head.latestHash dto createdAt).2 ∉
          db.entries.map LogEntry.currentHash) ∧
      ∀ caller dto createdAt hashes, db.transaction = some ⟨caller, dto, createdAt, .hashed hashes⟩ →
        H.CollisionFreeOn {bytes | bytes ∈ nextInput hashes.1 dto createdAt :: db.storedInputs} →
        ∀ id ∉ db.entries.map LogEntry.id,
          (db.step H (.insertEntry id)).isSome = true ↔ dto.Storable := by
  have hdb := consistent_of_run hrun
  have hcommits := hdb.commits hfree
  refine ⟨?_, ?_, ?_, ?_⟩
  · have hnodup := Linkage.tips_nodup hcommits (fun _ h => h) hdb.valid.linked
    rw [List.map_map] at hnodup
    exact hnodup
  · have hnodup := Linkage.links_nodup hcommits (fun _ h => h) hdb.valid.linked
    rw [List.map_map] at hnodup
    have hsome : (db.entries.map LogEntry.previousHash).map (·.getD genesisPreviousHash) =
        db.entries.map (chain.link ∘ LogEntry.asEntry) := by
      rw [List.map_map]
      rfl
    exact List.Nodup.of_map _ (hsome ▸ hnodup)
  · intro head hhead dto createdAt hnext
    rw [hdb.head, Option.mem_some] at hhead
    subst hhead
    exact hdb.next_hash_not_mem dto createdAt hnext
  · intro caller dto createdAt hashes htx hnext id hid
    have hhashes : hashes = Service.computeHashes H db.tip dto createdAt := hdb.pending _ htx
    have hfirst : hashes.1 = db.tip := by rw [hhashes, computeHashes_eq]
    rw [hfirst] at hnext
    have hhash := hdb.next_hash_not_mem dto createdAt hnext
    rw [← hhashes] at hhash
    constructor
    · intro hinserted
      obtain ⟨db', hstep⟩ := Option.isSome_iff_exists.mp hinserted
      cases Step.of_step hstep with
      | insertEntry htx' hstorable =>
        cases htx.symm.trans htx'
        exact hstorable
    · intro hstorable
      have hinsert := Step.insertEntry (H := H) htx hstorable hid hhash
      rw [hinsert.step_eq, Option.isSome_some]

/-- The events of one undisturbed append. -/
def appendEvents (caller : ℕ) (dto : CreateLogDto) (createdAt : JsDate) (id : JsString) :
    List DatabaseEvent :=
  [.lockChainHead caller dto createdAt, .computeHashes, .insertEntry id, .updateChainHead, .commit]

/-- The same event twice in the same millisecond. -/
theorem hashes_distinct_twice :
    ∃ db events, Run (step sha256) Untampered initial events db ∧ db.entries.length = 2 ∧
      (db.entries.map LogEntry.currentHash).Nodup ∧
      (db.entries.map LogEntry.previousHash).Nodup := by
  let dto : CreateLogDto := ⟨js "alice", js "login", .null⟩
  have hexecute : (execute (step sha256) Untampered initial
      (appendEvents 0 dto JsDate.epoch (js "1") ++ appendEvents 1 dto JsDate.epoch (js "2"))).any
      (fun db => decide (db.entries.length = 2 ∧ (db.storedInputs.map sha256.hex).Nodup)) = true := by
    decide +kernel
  obtain ⟨db, hrun, hcheck⟩ := Run.exists_of_execute hexecute
  obtain ⟨htwo, hnodup⟩ := of_decide_eq_true hcheck
  obtain ⟨hcurrent, hprevious, _⟩ :=
    hashes_distinct hrun (Digest.collisionFreeOn_of_nodup hnodup)
  exact ⟨db, _, hrun, htwo, hcurrent, hprevious⟩

end Database

end TamperEvidentLog.Service
