/-
# Verification without an anchor

`verifyIntegrity` reads `log_entries` and nothing else. Whoever can change that
table decides what it sees: it succeeds on every valid chain, the empty one and
every chain recomputed from scratch included, whatever `chain_head` says.

What remains is what the chain itself enforces. Of the entries that were
committed, a successful walk has seen an initial segment in commit order; so
removing entries goes unnoticed only at the end.
-/

import TamperEvidentLog.Service.Storage

namespace TamperEvidentLog.Service

open TamperEvidentLog.Text TamperEvidentLog.Time TamperEvidentLog.Crypto
open TamperEvidentLog.Protocol

variable {H : Digest}

/-- Only changes from outside. -/
def OnlyTampering (_ : Database) (e : DatabaseEvent) : Prop := e.isTamper = true

instance (db : Database) (e : DatabaseEvent) : Decidable (OnlyTampering db e) :=
  inferInstanceAs (Decidable (_ = _))

/-- A list each of whose members is an image is an image. -/
theorem exists_map_eq {α β : Type*} {f : α → β} {p : α → Prop} {images : List β}
    (himages : ∀ y ∈ images, ∃ x, p x ∧ f x = y) :
    ∃ items : List α, items.map f = images ∧ ∀ x ∈ items, p x := by
  induction images with
  | nil => exact ⟨[], rfl, by simp⟩
  | cons y images ih =>
    obtain ⟨x, hx, rfl⟩ := himages y (by simp)
    obtain ⟨items, rfl, hitems⟩ := ih fun z hz => himages z (by simp [hz])
    refine ⟨x :: items, rfl, fun z hz => ?_⟩
    rcases List.mem_cons.mp hz with rfl | hz
    · exact hx
    · exact hitems z hz

namespace Database

/-- Changes to `log_entries` leave `chain_head` alone. -/
theorem chainHead_of_onlyTampering {edits : List DatabaseEvent} {db db' : Database}
    (hedits : Run (step H) OnlyTampering db edits db') : db'.chainHead = db.chainHead := by
  have hkeep : ∀ s e t, OnlyTampering s e → s.step H e = some t →
      s.chainHead = db.chainHead → t.chainHead = db.chainHead := by
    intro s e t hallowed hstep hs
    cases Step.of_step hstep with
    | tamper => exact hs
    | _ => cases hallowed
  refine hedits.invariant ?_ hkeep
  rfl

/-- A valid chain of rows that were all committed, as they are read back, is an
initial segment of the commit order. -/
theorem Consistent.exists_isPrefix {db : Database} (hdb : db.Consistent H)
    (hfree : H.CollisionFreeOn {bytes | bytes ∈ db.storedInputs}) {rows : List Row}
    (hrows : ∀ row ∈ rows, ∃ stored ∈ db.entries, stored.readBack = row)
    (hvalid : ValidChain H (rows.map LogEntry.asEntry)) :
    ∃ kept, kept <+: db.entries ∧ rows = kept.map LogEntry.readBack := by
  obtain ⟨kept, rfl, hkept⟩ := exists_map_eq hrows
  refine ⟨kept, ?_, rfl⟩
  have hlinked : chain.Linked genesisPreviousHash (kept.map LogEntry.asEntry) := by
    have hlinked := hvalid.linked
    rw [List.map_map] at hlinked
    refine (Linkage.linked_map_congr ?_ ?_).mp hlinked
    · exact fun _ => rfl
    · exact fun _ => rfl
  have hmem : ∀ entry ∈ kept.map LogEntry.asEntry, entry ∈ db.entries.map LogEntry.asEntry := by
    intro entry hentry
    obtain ⟨row, hrow, rfl⟩ := List.mem_map.mp hentry
    exact List.mem_map_of_mem (hkept row hrow)
  have hprefix := (Linkage.linked_iff_isPrefix (hdb.commits hfree) (fun _ h => h)
    hdb.valid.linked hmem).mp hlinked
  have hinjective : Function.Injective LogEntry.asEntry := by
    rintro ⟨⟩ ⟨⟩ h
    simpa [LogEntry.asEntry] using h
  exact (List.prefix_map_iff_of_injective hinjective).mp hprefix

/-- **Verification is about the table alone.** -/
theorem verifyIntegrity_after_edits {events edits : List DatabaseEvent} {db db' : Database}
    (hrun : Run (step H) Untampered initial events db)
    (hedits : Run (step H) OnlyTampering db edits db') {rows : List Row}
    (hrows : db'.FindAllOrdered rows) :
    db'.chainHead = db.chainHead ∧
      ((verifyIntegrity H rows).isSuccess = true ↔ ValidChain H (rows.map LogEntry.asEntry)) ∧
      (H.CollisionFreeOn {bytes | bytes ∈ db.storedInputs} →
        (∀ row ∈ db'.entries, row ∈ db.entries) → (verifyIntegrity H rows).isSuccess = true →
        ∃ kept, kept <+: db.entries ∧ rows = kept.map LogEntry.readBack) := by
  refine ⟨chainHead_of_onlyTampering hedits, isSuccess_verifyEntireChain_iff, ?_⟩
  intro hfree hremoved hsuccess
  have hdb := consistent_of_run hrun
  refine hdb.exists_isPrefix hfree (fun row hrow => ?_)
    (isSuccess_verifyEntireChain_iff.mp hsuccess)
  obtain ⟨stored, hstored, hread⟩ := List.mem_map.mp (hrows.1.mem_iff.mp hrow)
  exact ⟨stored, hremoved stored hstored, hread⟩

/-- Deleting a row. -/
theorem entries_of_delete {db db' : Database} {id : JsString}
    (hstep : db.step H (.tamper (.delete id)) = some db') :
    db'.entries = db.entries.filter fun row => row.id ≠ id := by
  cases Step.of_step hstep
  rfl

/-- Two entries, the second of which is deleted. -/
theorem verifyIntegrity_after_edits_truncated :
    ∃ db db' events edits rows, Run (step sha256) Untampered initial events db ∧
      Run (step sha256) OnlyTampering db edits db' ∧ db'.FindAllOrdered rows ∧
      rows.length < db.entries.length ∧ (verifyIntegrity sha256 rows).isSuccess = true ∧
      ∃ kept, kept <+: db.entries ∧ rows = kept.map LogEntry.readBack := by
  let dto : CreateLogDto := ⟨js "alice", js "login", .null⟩
  have hexecute : (execute (step sha256) Untampered initial
      (appendEvents 0 dto JsDate.epoch (js "1") ++ appendEvents 1 dto JsDate.epoch (js "2"))).any
      (fun db => decide ((db.storedInputs.map sha256.hex).Nodup ∧
        (db.step sha256 (.tamper (.delete (js "2")))).isSome = true ∧
        (db.entries.filter fun row => row.id ≠ js "2").length < db.entries.length ∧
        (db.entries.Pairwise fun first second => first.createdAt.ms ≤ second.createdAt.ms) ∧
        (verifyIntegrity sha256 ((db.entries.filter fun row => row.id ≠ js "2").map
          LogEntry.readBack)).isSuccess = true)) = true := by
    decide +kernel
  obtain ⟨db, hrun, hcheck⟩ := Run.exists_of_execute hexecute
  obtain ⟨hnodup, hsome, hlength, hsorted, hsuccess⟩ := of_decide_eq_true hcheck
  obtain ⟨db', hstep⟩ := Option.isSome_iff_exists.mp hsome
  have hentries := entries_of_delete hstep
  have hedits : Run (step sha256) OnlyTampering db [.tamper (.delete (js "2"))] db' :=
    Run.single rfl hstep
  have hrows : db'.FindAllOrdered (db'.entries.map LogEntry.readBack) := by
    refine ⟨List.Perm.refl _, List.pairwise_map.mpr ?_⟩
    rw [hentries]
    exact hsorted.filter _
  rw [← hentries] at hlength hsuccess
  have hprefix := (verifyIntegrity_after_edits hrun hedits hrows).2.2
    (Digest.collisionFreeOn_of_nodup hnodup)
    (fun row hrow => List.mem_of_mem_filter (hentries ▸ hrow)) hsuccess
  exact ⟨db, db', _, _, _, hrun, hedits, hrows, by simpa using hlength, hsuccess, hprefix⟩

/-- The only entry is deleted and nothing is reported. -/
theorem verifyIntegrity_unanchored :
    ∃ db db' events edits rows, Run (step sha256) Untampered initial events db ∧
      Run (step sha256) OnlyTampering db edits db' ∧ db'.FindAllOrdered rows ∧
      (verifyIntegrity sha256 rows).isSuccess = true ∧
      ¬ ((∃ last ∈ rows.getLast?, ∃ head ∈ db'.chainHead, last.currentHash = head.latestHash) ∨
        (rows = [] ∧ ∃ head ∈ db'.chainHead, head.latestHash = genesisPreviousHash)) := by
  let dto : CreateLogDto := ⟨js "alice", js "login", .null⟩
  have hexecute : (execute (step sha256) Untampered initial
      (appendEvents 0 dto JsDate.epoch (js "1"))).any
      (fun db => decide ((db.step sha256 (.tamper (.delete (js "1")))).isSome = true ∧
        (∀ row ∈ db.entries, row.id = js "1") ∧
        ∀ head ∈ db.chainHead, head.latestHash ≠ genesisPreviousHash)) = true := by
    decide +kernel
  obtain ⟨db, hrun, hcheck⟩ := Run.exists_of_execute hexecute
  obtain ⟨hsome, hids, hhead⟩ := of_decide_eq_true hcheck
  obtain ⟨db', hstep⟩ := Option.isSome_iff_exists.mp hsome
  have hedits : Run (step sha256) OnlyTampering db [.tamper (.delete (js "1"))] db' :=
    Run.single rfl hstep
  have hentries : db'.entries = [] := by
    rw [entries_of_delete hstep]
    exact List.filter_eq_nil_iff.mpr fun row hrow => by simp [hids row hrow]
  have hrows : db'.FindAllOrdered [] := ⟨by rw [hentries]; exact List.Perm.refl _, List.Pairwise.nil⟩
  refine ⟨db, db', _, _, [], hrun, hedits, hrows, rfl, ?_⟩
  rintro (⟨last, hlast, _⟩ | ⟨_, head, hmem, hgenesis⟩)
  · cases hlast
  · rw [chainHead_of_onlyTampering hedits] at hmem
    exact hhead head hmem hgenesis

end Database

end TamperEvidentLog.Service
