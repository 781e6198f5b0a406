/-
# The log repository

The two tables `log_entries` and `chain_head`, the queries over them and the
transaction that appends an entry, statement by statement. `SELECT ... FOR
UPDATE` serialises the writers, so at most one transaction is past its first
statement: the one that holds the row lock. Its statements are invisible to
everybody else until it commits, and rolling back discards them.

Rows are kept as they were written. What a query returns is `readBack`, the row
after its trip through the JSONB column. What a column does not take makes the
`INSERT` fail, and then the transaction can only roll back. It may also roll back
at any other moment; that stands for whatever else throws inside it, such as
`JSON.stringify` on a payload that is nested too deeply.

A client whose schema has the table `chain_head` is assumed, and that a
transaction whose promise rejects has been rolled back.
-/

import TamperEvidentLog.Service.HashService
import TamperEvidentLog.Text.ColumnText

namespace TamperEvidentLog.Service

open TamperEvidentLog.Text TamperEvidentLog.Time TamperEvidentLog.Crypto

/-- What a request asks to log. -/
structure CreateLogDto where
  /-- Who acted. -/
  actor : JsString
  /-- What was done. -/
  action : JsString
  /-- Structured details, or `null`. -/
  payload : JsonValue

namespace CreateLogDto

/-- The columns `actor`, `action` and `payload` of `log_entries` take the
request. -/
structure Storable (dto : CreateLogDto) : Prop where
  /-- `"actor" VARCHAR(255)`: the characters. -/
  actor_text : isColumnText dto.actor = true
  /-- `"actor" VARCHAR(255)`: the length. -/
  actor_length : codePoints dto.actor ≤ 255
  /-- `"action" VARCHAR(500)`: the characters. -/
  action_text : isColumnText dto.action = true
  /-- `"action" VARCHAR(500)`: the length. -/
  action_length : codePoints dto.action ≤ 500
  /-- `"payload" JSONB`. -/
  payload : dto.payload.json.isStorable = true

/-- `Storable`, as a check. -/
def isStorable (dto : CreateLogDto) : Bool :=
  isColumnText dto.actor && codePoints dto.actor ≤ 255 && isColumnText dto.action &&
    codePoints dto.action ≤ 500 && dto.payload.json.isStorable

theorem isStorable_eq_true_iff {dto : CreateLogDto} : dto.isStorable = true ↔ dto.Storable := by
  simp only [isStorable, Bool.and_eq_true, decide_eq_true_eq]
  constructor
  · rintro ⟨⟨⟨⟨hactor, hactorLength⟩, haction⟩, hactionLength⟩, hpayload⟩
    exact ⟨hactor, hactorLength, haction, hactionLength, hpayload⟩
  · rintro ⟨hactor, hactorLength, haction, hactionLength, hpayload⟩
    exact ⟨⟨⟨⟨hactor, hactorLength⟩, haction⟩, hactionLength⟩, hpayload⟩

instance (dto : CreateLogDto) : Decidable dto.Storable :=
  decidable_of_iff (dto.isStorable = true) isStorable_eq_true_iff

end CreateLogDto

/-- The row `chain_head` with `id = 1`. -/
structure ChainHead where
  /-- The hash of the newest entry. -/
  latestHash : JsString
  /-- The identifier of the newest entry. -/
  latestLogId : Option JsString
  deriving DecidableEq

/-- The previous and the current hash of a new entry behind `latestHash`. -/
def computeHashes (H : Digest) (latestHash : JsString) (dto : CreateLogDto)
    (createdAt : JsDate) : JsString × JsString :=
  if latestHash = genesisPreviousHash then
    (genesisPreviousHash,
      createGenesisHash H dto.actor dto.action dto.payload (.date createdAt))
  else
    (latestHash,
      calculateCurrentHash H dto.actor dto.action dto.payload latestHash (.date createdAt))

/-- The row of a new entry. -/
def newRow (id : JsString) (dto : CreateLogDto) (createdAt : JsDate)
    (hashes : JsString × JsString) : Row where
  id := id
  actor := dto.actor
  action := dto.action
  payload := dto.payload
  previousHash := some hashes.1
  currentHash := hashes.2
  createdAt := createdAt

/-- How far a transaction that holds the lock got. -/
inductive TransactionStage
  | /-- It has read `latestHash` from the locked row. -/
    locked (latestHash : JsString)
  | /-- It has computed the hashes. -/
    hashed (hashes : JsString × JsString)
  | /-- It has inserted the entry. -/
    inserted (created : Row)
  | /-- It has updated `chain_head`. -/
    headUpdated (created : Row)

/-- The row that the transaction has inserted. -/
def TransactionStage.created? : TransactionStage → Option Row
  | locked _ => none
  | hashed _ => none
  | inserted created => some created
  | headUpdated created => some created

/-- The transaction that holds the lock on `chain_head`. -/
structure Transaction where
  /-- The call it belongs to. -/
  caller : ℕ
  /-- What that call logs. -/
  dto : CreateLogDto
  /-- The time that call sampled. -/
  createdAt : JsDate
  /-- How far it got. -/
  stage : TransactionStage

/-- A change made to `log_entries` by somebody else than the service. -/
inductive Edit
  | /-- Insert a row. -/
    insert (row : Row)
  | /-- Replace the row with this identifier. -/
    update (id : JsString) (row : Row)
  | /-- Delete the row with this identifier. -/
    delete (id : JsString)

/-- The rows after the change. -/
def Edit.apply : Edit → List Row → List Row
  | insert row, rows => rows ++ [row]
  | update id row, rows => rows.map fun r => if r.id = id then row else r
  | delete id, rows => rows.filter fun r => r.id ≠ id

/-- The committed contents of the database and the transaction in progress. -/
structure Database where
  /-- The rows of `log_entries` as they were written, in commit order. -/
  entries : List Row
  /-- The row `chain_head` with `id = 1`, if there is one. -/
  chainHead : Option ChainHead
  /-- The transaction that holds the lock on it. -/
  transaction : Option Transaction

namespace Database

/-- An empty log. -/
def initial : Database := ⟨[], some ⟨genesisPreviousHash, none⟩, none⟩

/-! ## Queries -/

/-- `findById`. -/
def findById (db : Database) (id : JsString) : Option Row :=
  (db.entries.find? fun row => row.id = id).map LogEntry.readBack

/-- What `findAllOrdered` may return: all rows by ascending `createdAt`, rows of
equal `createdAt` in any order. -/
def FindAllOrdered (db : Database) (rows : List Row) : Prop :=
  rows.Perm (db.entries.map LogEntry.readBack) ∧
    rows.Pairwise fun first second => first.createdAt.ms ≤ second.createdAt.ms

/-- The query has an answer. -/
theorem exists_findAllOrdered (db : Database) : ∃ rows, db.FindAllOrdered rows := by
  let rows := db.entries.map LogEntry.readBack
  let createdAtLe (first second : Row) : Bool := first.createdAt.ms ≤ second.createdAt.ms
  have htrans (a b c : Row) : createdAtLe a b = true → createdAtLe b c = true →
      createdAtLe a c = true := by
    simp only [createdAtLe, decide_eq_true_eq]
    exact le_trans
  have htotal (a b : Row) : (createdAtLe a b || createdAtLe b a) = true := by
    simp only [createdAtLe, Bool.or_eq_true, decide_eq_true_eq]
    exact le_total _ _
  have hsorted := List.pairwise_mergeSort htrans htotal rows
  exact ⟨_, List.mergeSort_perm _ _, hsorted.imp of_decide_eq_true⟩

/-- What the first of these rows by descending `createdAt` may be. -/
def IsNewestOf (rows : List Row) : Option Row → Prop
  | some row => row ∈ rows ∧ ∀ other ∈ rows, other.createdAt.ms ≤ row.createdAt.ms
  | none => rows = []

/-- What `findLatest` may return. -/
def FindLatest (db : Database) : Option Row → Prop :=
  IsNewestOf (db.entries.map LogEntry.readBack)

/-- What `findPrevious(createdAt)` may return. -/
def FindPrevious (db : Database) (createdAt : JsDate) : Option Row → Prop :=
  IsNewestOf ((db.entries.map LogEntry.readBack).filter fun row =>
    row.createdAt.ms < createdAt.ms)

/-! ## Statements -/

/-- The primary key and the unique index on `currentHash`. -/
def KeysUnique (rows : List Row) : Prop :=
  (rows.map LogEntry.id).Nodup ∧ (rows.map LogEntry.currentHash).Nodup

instance (rows : List Row) : Decidable (KeysUnique rows) :=
  inferInstanceAs (Decidable (_ ∧ _))

/-- `SELECT id, "latestHash" FROM chain_head WHERE id = 1 FOR UPDATE`; it waits
while the lock is held. -/
def lockChainHead (db : Database) (caller : ℕ) (dto : CreateLogDto) (createdAt : JsDate) :
    Option Database :=
  match db.transaction, db.chainHead with
  | none, some head =>
    some { db with transaction := some ⟨caller, dto, createdAt, .locked head.latestHash⟩ }
  | _, _ => none

/-- Move the transaction in progress to its next stage. -/
def advance (db : Database) (next : Transaction → Option TransactionStage) : Option Database :=
  db.transaction.bind fun tx =>
    (next tx).map fun stage => { db with transaction := some { tx with stage } }

/-- The new row goes into the table unless a column refuses it or it breaks a
key. -/
def insertEntry (db : Database) (id : JsString) : Option Database :=
  db.advance fun tx =>
    match tx.stage with
    | .hashed hashes =>
      let created := newRow id tx.dto tx.createdAt hashes
      if tx.dto.Storable ∧ created.id ∉ db.entries.map LogEntry.id ∧
          created.currentHash ∉ db.entries.map LogEntry.currentHash then
        some (.inserted created)
      else none
    | _ => none

/-- `tx.chainHead.update`. -/
def updateChainHead (db : Database) : Option Database :=
  db.advance fun tx =>
    match tx.stage with
    | .inserted created => some (.headUpdated created)
    | _ => none

/-- `COMMIT`: the inserted row and the updated `chain_head` become visible and
the lock is released. -/
def commit (db : Database) : Option Database :=
  match db.transaction with
  | some ⟨_, _, _, .headUpdated created⟩ =>
    some ⟨db.entries ++ [created], some ⟨created.currentHash, some created.id⟩, none⟩
  | _ => none

/-- `ROLLBACK`. -/
def rollback (db : Database) : Option Database :=
  db.transaction.map fun _ => { db with transaction := none }

/-- The row that the transaction in progress has inserted. -/
def pendingRow (db : Database) : Option Row := db.transaction.bind fun tx => tx.stage.created?

/-- A change from outside, as long as it breaks no key. -/
def tamper (db : Database) (edit : Edit) : Option Database :=
  let rows := edit.apply db.entries
  if KeysUnique (rows ++ db.pendingRow.toList) then some { db with entries := rows } else none

end Database

/-- What can happen to the database. -/
inductive DatabaseEvent
  | /-- A transaction obtains the lock. -/
    lockChainHead (caller : ℕ) (dto : CreateLogDto) (createdAt : JsDate)
  | /-- It computes the hashes. -/
    computeHashes
  | /-- It inserts the entry. -/
    insertEntry (id : JsString)
  | /-- It updates `chain_head`. -/
    updateChainHead
  | /-- It commits. -/
    commit
  | /-- It rolls back. -/
    rollback
  | /-- Somebody changes `log_entries`. -/
    tamper (edit : Edit)

namespace Database

variable (H : Digest)

/-- The transaction computes the hashes of its entry. -/
def computeHashes (db : Database) : Option Database :=
  db.advance fun tx =>
    match tx.stage with
    | .locked latestHash => some (.hashed (Service.computeHashes H latestHash tx.dto tx.createdAt))
    | _ => none

/-- The database after an event, if the event is possible. -/
def step (db : Database) : DatabaseEvent → Option Database
  | .lockChainHead caller dto createdAt => db.lockChainHead caller dto createdAt
  | .computeHashes => db.computeHashes H
  | .insertEntry id => db.insertEntry id
  | .updateChainHead => db.updateChainHead
  | .commit => db.commit
  | .rollback => db.rollback
  | .tamper edit => db.tamper edit

/-- What a step does, event by event. -/
inductive Step (db : Database) : DatabaseEvent → Database → Prop
  | lockChainHead {caller : ℕ} {dto : CreateLogDto} {createdAt : JsDate} {head : ChainHead}
      (hfree : db.transaction = none) (hhead : db.chainHead = some head) :
      Step db (.lockChainHead caller dto createdAt)
        { db with transaction := some ⟨caller, dto, createdAt, .locked head.latestHash⟩ }
  | computeHashes {caller : ℕ} {dto : CreateLogDto} {createdAt : JsDate} {latestHash : JsString}
      (htx : db.transaction = some ⟨caller, dto, createdAt, .locked latestHash⟩) :
      Step db .computeHashes
        { db with
          transaction := some ⟨caller, dto, createdAt,
            .hashed (Service.computeHashes H latestHash dto createdAt)⟩ }
  | insertEntry {caller : ℕ} {dto : CreateLogDto} {createdAt : JsDate}
      {hashes : JsString × JsString} {id : JsString}
      (htx : db.transaction = some ⟨caller, dto, createdAt, .hashed hashes⟩)
      (hstorable : dto.Storable) (hid : id ∉ db.entries.map LogEntry.id)
      (hhash : hashes.2 ∉ db.entries.map LogEntry.currentHash) :
      Step db (.insertEntry id)
        { db with
          transaction := some ⟨caller, dto, createdAt,
            .inserted (newRow id dto createdAt hashes)⟩ }
  | updateChainHead {caller : ℕ} {dto : CreateLogDto} {createdAt : JsDate} {created : Row}
      (htx : db.transaction = some ⟨caller, dto, createdAt, .inserted created⟩) :
      Step db .updateChainHead
        { db with transaction := some ⟨caller, dto, createdAt, .headUpdated created⟩ }
  | commit {caller : ℕ} {dto : CreateLogDto} {createdAt : JsDate} {created : Row}
      (htx : db.transaction = some ⟨caller, dto, createdAt, .headUpdated created⟩) :
      Step db .commit
        ⟨db.entries ++ [created], some ⟨created.currentHash, some created.id⟩, none⟩
  | rollback {tx : Transaction} (htx : db.transaction = some tx) :
      Step db .rollback { db with transaction := none }
  | tamper {edit : Edit}
      (hkeys : KeysUnique (edit.apply db.entries ++ db.pendingRow.toList)) :
      Step db (.tamper edit) { db with entries := edit.apply db.entries }

variable {H}

theorem advance_eq_some_iff {db db' : Database} {next : Transaction → Option TransactionStage} :
    db.advance next = some db' ↔ ∃ tx stage, db.transaction = some tx ∧ next tx = some stage ∧
      { db with transaction := some { tx with stage } } = db' := by
  simp only [advance, Option.bind_eq_some_iff, Option.map_eq_some_iff]
  exact exists_congr fun tx => by simp

/-- The step function does what `Step` says. -/
theorem Step.of_step {db db' : Database} {e : DatabaseEvent} (hstep : db.step H e = some db') :
    Step H db e db' := by
  cases e with
  | lockChainHead caller dto createdAt =>
    simp only [step, Database.lockChainHead] at hstep
    split at hstep
    case h_1 htx hhead =>
      cases hstep
      exact .lockChainHead htx hhead
    case h_2 => cases hstep
  | computeHashes =>
    obtain ⟨⟨caller, dto, createdAt, stage⟩, stage', htx, hnext, rfl⟩ :=
      advance_eq_some_iff.mp hstep
    cases stage <;> cases hnext
    exact .computeHashes htx
  | insertEntry id =>
    obtain ⟨⟨caller, dto, createdAt, stage⟩, stage', htx, hnext, rfl⟩ :=
      advance_eq_some_iff.mp hstep
    cases stage with
    | hashed hashes =>
      obtain ⟨⟨hstorable, hid, hhash⟩, hstage⟩ := Option.ite_none_right_eq_some.mp hnext
      cases hstage
      exact .insertEntry htx hstorable hid hhash
    | locked | inserted | headUpdated => cases hnext
  | updateChainHead =>
    obtain ⟨⟨caller, dto, createdAt, stage⟩, stage', htx, hnext, rfl⟩ :=
      advance_eq_some_iff.mp hstep
    cases stage <;> cases hnext
    exact .updateChainHead htx
  | commit =>
    simp only [step, Database.commit] at hstep
    split at hstep
    case h_1 htx =>
      cases hstep
      exact .commit htx
    case h_2 => cases hstep
  | rollback =>
    obtain ⟨tx, htx, rfl⟩ := Option.map_eq_some_iff.mp hstep
    exact .rollback htx
  | tamper edit =>
    obtain ⟨hkeys, hdb⟩ := Option.ite_none_right_eq_some.mp hstep
    cases hdb
    exact .tamper hkeys

/-- What `Step` says, the step function does. -/
theorem Step.step_eq {db db' : Database} {e : DatabaseEvent} (hstep : Step H db e db') :
    db.step H e = some db' := by
  cases hstep with
  | lockChainHead hfree hhead => simp [step, Database.lockChainHead, hfree, hhead]
  | computeHashes htx => simp [step, Database.computeHashes, advance, htx]
  | insertEntry htx hstorable hid hhash =>
    rw [step, Database.insertEntry, advance_eq_some_iff]
    exact ⟨_, _, htx, if_pos ⟨hstorable, hid, hhash⟩, rfl⟩
  | updateChainHead htx => simp [step, Database.updateChainHead, advance, htx]
  | commit htx => simp [step, Database.commit, htx]
  | rollback htx => simp [step, Database.rollback, htx]
  | tamper hkeys => exact if_pos hkeys

/-- The table changes by a commit or from outside. -/
theorem entries_of_step {db db' : Database} {e : DatabaseEvent}
    (hstep : db.step H e = some db') :
    db'.entries = db.entries ∨
      (e = .commit ∧ ∃ caller dto createdAt created,
        db.transaction = some ⟨caller, dto, createdAt, .headUpdated created⟩ ∧
        db'.entries = db.entries ++ [created]) ∨
      ∃ edit, e = .tamper edit ∧ db'.entries = edit.apply db.entries := by
  cases Step.of_step hstep with
  | commit htx => exact .inr (.inl ⟨rfl, _, _, _, _, htx, rfl⟩)
  | tamper => exact .inr (.inr ⟨_, rfl, rfl⟩)
  | lockChainHead | computeHashes | insertEntry | updateChainHead | rollback => exact .inl rfl

/-- The keys hold, the row that the transaction in progress has inserted
included. -/
def Keyed (db : Database) : Prop := KeysUnique (db.entries ++ db.pendingRow.toList)

theorem keyed_initial : initial.Keyed := ⟨List.nodup_nil, List.nodup_nil⟩

/-- Fewer rows break no key. -/
theorem KeysUnique.sublist {rows rows' : List Row} (hrows : KeysUnique rows)
    (hsub : rows'.Sublist rows) : KeysUnique rows' :=
  ⟨hrows.1.sublist (hsub.map _), hrows.2.sublist (hsub.map _)⟩

/-- The database enforces its keys, whoever writes. -/
theorem Keyed.of_step {db db' : Database} {e : DatabaseEvent} (hdb : db.Keyed)
    (hstep : db.step H e = some db') : db'.Keyed := by
  have hentries : KeysUnique (db.entries ++ []) :=
    hdb.sublist ((List.Sublist.refl _).append (List.nil_sublist _))
  cases Step.of_step hstep with
  | lockChainHead | computeHashes | rollback => exact hentries
  | @insertEntry caller dto createdAt hashes id htx hstorable hid hhash =>
    rw [List.append_nil] at hentries
    have happend {f : Row → JsString} (hnodup : (db.entries.map f).Nodup)
        (hnew : f (newRow id dto createdAt hashes) ∉ db.entries.map f) :
        ((db.entries ++ [newRow id dto createdAt hashes]).map f).Nodup := by
      rw [List.map_append]
      exact hnodup.append (List.nodup_singleton _) (List.disjoint_singleton.mpr hnew)
    exact ⟨happend hentries.1 hid, happend hentries.2 hhash⟩
  | updateChainHead htx | commit htx =>
    simpa [Keyed, pendingRow, htx, TransactionStage.created?] using hdb
  | tamper hkeys => exact hkeys

end Database

/-- Verify the rows that `findAllOrdered` returned. -/
def verifyIntegrity (H : Digest) (rows : List Row) : VerificationResult :=
  verifyEntireChain H (rows.map LogEntry.asEntry)

end TamperEvidentLog.Service
