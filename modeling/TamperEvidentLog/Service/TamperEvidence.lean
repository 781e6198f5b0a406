/-
# What tampering a verified chain reveals

The last hash of a valid chain commits to everything before it: two valid chains
that end in the same hash agree, record by record, in the hashes and in the bytes
that were hashed.

What the bytes do not commit to is where one field ends and the next begins.
Replacing the fields of one record goes unnoticed exactly when it recuts them:
the date stays and the actor, the action and the payload's text, joined with
`|`, give the same bytes.
-/

import TamperEvidentLog.Crypto.Sha256
import TamperEvidentLog.Service.ChainVerification

namespace TamperEvidentLog.Service

open TamperEvidentLog.Text TamperEvidentLog.Time TamperEvidentLog.Crypto
open TamperEvidentLog.Protocol

variable {H : Digest}

/-! ## Commitment to the history -/

/-- **The last hash commits to the history.** -/
theorem history_eq_of_getLast_currentHash_eq {first second : List Entry}
    (hfirst : (verifyEntireChain H first).isSuccess = true)
    (hsecond : (verifyEntireChain H second).isSuccess = true)
    (hne : first ≠ []) (hne' : second ≠ [])
    (hlast : (first.getLast hne).currentHash = (second.getLast hne').currentHash)
    (hfree : H.CollisionFreeOn (LogEntry.hashedBytes '' {entry | entry ∈ first ++ second})) :
    first.length = second.length ∧
      ∀ (i : ℕ) (hi : i < first.length) (hi' : i < second.length),
        first[i].currentHash = second[i].currentHash ∧
        first[i].resolvedPreviousHash = second[i].resolvedPreviousHash ∧
        first[i].hashedBytes = second[i].hashedBytes := by
  rw [isSuccess_verifyEntireChain_iff] at hfirst hsecond
  have hcommits : chain.Commits genesisPreviousHash {entry | entry ∈ first ++ second} := by
    refine commits_of_collisionFreeOn (fun entry hentry => ?_) (fun entry hentry => ?_) hfree
    · exact (List.mem_append.mp hentry).elim (hfirst.verified entry) (hsecond.verified entry)
    · exact (List.mem_append.mp hentry).elim hfirst.isLinkText hsecond.isLinkText
  have htips : first.map LogEntry.currentHash = second.map LogEntry.currentHash :=
    Linkage.map_tip_eq_of_tipOf_eq hcommits (fun x hx => by simp [hx]) (fun x hx => by simp [hx])
      hfirst.linked hsecond.linked
      (by rw [Linkage.tipOf_eq_getLast hne, Linkage.tipOf_eq_getLast hne']; exact hlast)
  refine ⟨by simpa using congrArg List.length htips, fun i hi hi' => ?_⟩
  have hhash : first[i].currentHash = second[i].currentHash := by
    have hget := congrArg (·[i]?) htips
    simpa [hi, hi'] using hget
  have hmem : first[i] ∈ {entry | entry ∈ first ++ second} := by simp
  have hmem' : second[i] ∈ {entry | entry ∈ first ++ second} := by simp
  have hdigest := hhash
  rw [verificationStatus_iff.mp (hfirst.verified _ (List.getElem_mem hi)),
    verificationStatus_iff.mp (hsecond.verified _ (List.getElem_mem hi'))] at hdigest
  exact ⟨hhash, hcommits.link_eq _ hmem _ hmem' hhash,
    hfree (Set.mem_image_of_mem _ hmem) (Set.mem_image_of_mem _ hmem') hdigest⟩

/-- The first row of a log, written at the epoch without payload. -/
def firstRow (actor action : String) : Row where
  id := js "7d444840-9dc0-11d1-b245-5ffdce74fad2"
  actor := js actor
  action := js action
  payload := .null
  previousHash := some genesisPreviousHash
  currentHash := createGenesisHash sha256 (js actor) (js action) .null (.date JsDate.epoch)
  createdAt := JsDate.epoch

/-- The rows of a log behind `previousHash`, written at the epoch without
payload. -/
def rowsBehind (previousHash : JsString) : List (String × String × String) → List Row
  | [] => []
  | (id, actor, action) :: rest =>
    let currentHash := calculateCurrentHash sha256 (js actor) (js action) .null previousHash
      (.date JsDate.epoch)
    ⟨js id, js actor, js action, .null, some previousHash, currentHash, JsDate.epoch⟩ ::
      rowsBehind currentHash rest

/-- Three rows. -/
def threeRows : List Row :=
  rowsBehind genesisPreviousHash [("1", "a|b", "c"), ("2", "d|e", "f"), ("3", "g", "h")]

/-- Their entries. -/
def threeEntries : List Entry := threeRows.map LogEntry.asEntry

/-- Three other entries, whose separators stand elsewhere in the same text. -/
def recutEntries : List Entry :=
  (rowsBehind genesisPreviousHash [("4", "a", "b|c"), ("5", "d", "e|f"), ("6", "g", "h")]).map
    LogEntry.asEntry

/-- The two logs end in one hash, so they agree in what was hashed all along. -/
theorem history_eq_of_getLast_currentHash_eq_recut :
    threeEntries.map LogEntry.actor ≠ recutEntries.map LogEntry.actor ∧
      threeEntries.length = recutEntries.length ∧
      ∀ (i : ℕ) (_ : i < threeEntries.length) (_ : i < recutEntries.length),
        threeEntries[i].currentHash = recutEntries[i].currentHash ∧
        threeEntries[i].resolvedPreviousHash = recutEntries[i].resolvedPreviousHash ∧
        threeEntries[i].hashedBytes = recutEntries[i].hashedBytes := by
  have hfirst : (verifyEntireChain sha256 threeEntries).isSuccess = true := by
    decide +kernel
  have hsecond : (verifyEntireChain sha256 recutEntries).isSuccess = true := by
    decide +kernel
  have hinputs : (((threeEntries ++ recutEntries).map LogEntry.hashedBytes).dedup.map
      sha256.hex).Nodup := by
    decide +kernel
  refine ⟨by decide, history_eq_of_getLast_currentHash_eq hfirst hsecond (by decide) (by decide)
    (by decide +kernel) ((Digest.collisionFreeOn_of_nodup hinputs).mono ?_)⟩
  rintro _ ⟨entry, hentry, rfl⟩
  exact List.mem_dedup.mpr (List.mem_map_of_mem hentry)

/-! ## Fields of one record -/

/-- New values for the fields of a record that its hash is computed from; the
identifier and the two hashes stay as stored. -/
structure FieldEdit where
  /-- Who acted. -/
  actor : JsString
  /-- What was done. -/
  action : JsString
  /-- Structured details, or `null`. -/
  payload : JsonValue
  /-- The time of creation. -/
  createdAt : JsDate

namespace FieldEdit

/-- The row with the new values. -/
def apply (edit : FieldEdit) (row : Row) : Row :=
  { row with
    actor := edit.actor
    action := edit.action
    payload := edit.payload
    createdAt := edit.createdAt }

/-- An actor and an action at the epoch, without payload. -/
def ofStrings (actor action : String) : FieldEdit := ⟨js actor, js action, .null, JsDate.epoch⟩

/-- At least one of the values is new, payloads compared by their text. -/
def Differs (edit : FieldEdit) (row : Row) : Prop :=
  edit.actor ≠ row.actor ∨ edit.action ≠ row.action ∨
    edit.payload.stringify ≠ row.payload.stringify ∨ edit.createdAt ≠ row.createdAt

instance (edit : FieldEdit) (row : Row) : Decidable (edit.Differs row) :=
  inferInstanceAs (Decidable (_ ∨ _))

/-- The date is the old one and the other fields give the old bytes, cut
differently. -/
def Recuts (edit : FieldEdit) (row : Row) : Prop :=
  edit.createdAt = row.createdAt ∧
    utf8 (joinWith 0x7C [edit.actor, edit.action, edit.payload.stringify]) =
      utf8 (joinWith 0x7C [row.actor, row.action, row.payload.stringify])

instance (edit : FieldEdit) (row : Row) : Decidable (edit.Recuts row) :=
  inferInstanceAs (Decidable (_ ∧ _))

end FieldEdit

/-- Two rows behind one hash have the same bytes exactly when one recuts the
other. -/
theorem hashedBytes_apply_eq_iff (edit : FieldEdit) (row : Row) :
    (edit.apply row).asEntry.hashedBytes = row.asEntry.hashedBytes ↔ edit.Recuts row := by
  have hprevious : (edit.apply row).asEntry.resolvedPreviousHash =
      row.asEntry.resolvedPreviousHash := rfl
  rw [hashedBytes_asEntry, hashedBytes_asEntry, hprevious, List.append_cancel_left_eq,
    List.cons.injEq, and_iff_right rfl]
  constructor
  · intro htail
    -- The date holds no separator, so it is what stands behind the last one.
    obtain ⟨hcontent, hdate⟩ := append_cons_inj_of_right
      (isLinkText_toISOString _).not_mem_utf8 (isLinkText_toISOString _).not_mem_utf8 htail
    have hascii (d : JsDate) : ∀ u ∈ d.toISOString, isAscii u = true :=
      fun u hu => (isLinkText_toISOString d u hu).1
    rw [utf8_ascii (hascii _), utf8_ascii (hascii _)] at hdate
    exact ⟨JsDate.toISOString_injective
      (map_toUInt8_inj_of_ascii (hascii _) (hascii _) hdate), hcontent⟩
  · rintro ⟨hdate, hcontent⟩
    have hdate' : (edit.apply row).createdAt = row.createdAt := hdate
    rw [hdate']
    exact congrArg (· ++ _) hcontent

/-- Exchanging one record for another with the same identifier, place and hash
leaves a chain that is valid or stops at the exchanged record. -/
theorem firstFault_exchange {before after : List Entry} {entry edited : Entry}
    (hvalid : ValidChain H (before ++ entry :: after))
    (hprevious : edited.previousHash = entry.previousHash)
    (hcurrent : edited.currentHash = entry.currentHash) :
    firstFault H none (before ++ edited :: after) =
      if verificationStatus H edited = true then none
      else some ⟨edited.id, .mismatch, H.hex edited.hashedBytes, edited.currentHash⟩ := by
  have hlink : edited.resolvedPreviousHash = entry.resolvedPreviousHash := by
    rw [LogEntry.resolvedPreviousHash, hprevious, LogEntry.resolvedPreviousHash]
  obtain ⟨hlinkedBefore, hlinkedAfter⟩ := Linkage.linked_append.mp hvalid.linked
  split
  case isTrue hverified =>
    rw [firstFault_eq_none_iff _ (by simp)]
    refine ⟨Linkage.linked_append.mpr ⟨hlinkedBefore, ?_, ?_⟩, fun x hx => ?_⟩
    · exact hlink.trans hlinkedAfter.1
    · rw [chain_tip, hcurrent]
      exact hlinkedAfter.2
    · rcases List.mem_append.mp hx with hx | hx
      · exact hvalid.verified x (by simp [hx])
      · rcases List.mem_cons.mp hx with rfl | hx
        · exact hverified
        · exact hvalid.verified x (by simp [hx])
  case isFalse hfailed =>
    have hbefore : firstFault H none before = none :=
      (firstFault_eq_none_iff _ (by simp)).mpr ⟨hlinkedBefore, hvalid.of_append.verified⟩
    have hprior : ∀ p ∈ before.getLast?, p.currentHash ≠ genesisPreviousHash := fun p hp =>
      currentHash_ne_genesis (hvalid.verified p (by simp [List.mem_of_getLast? hp]))
    have hlinked : edited.resolvedPreviousHash =
        before.getLast?.elim genesisPreviousHash LogEntry.currentHash := by
      rw [hlink, ← tipOf_eq_elim_getLast?]
      exact hlinkedAfter.1
    rw [firstFault_append, hbefore, Option.none_or, Option.or_none, firstFault,
      checkEntry_of_linked hprior hlinked, checkHash, if_pos]
    · rfl
    · exact fun h => hfailed (verificationStatus_iff.mpr h)

/-- What a walk over such a list returns. -/
theorem verifyEntireChain_exchange {before after : List Entry} {entry edited : Entry}
    (hvalid : ValidChain H (before ++ entry :: after))
    (hprevious : edited.previousHash = entry.previousHash)
    (hcurrent : edited.currentHash = entry.currentHash) :
    verifyEntireChain H (before ++ edited :: after) =
      if verificationStatus H edited = true then
        .success (before ++ edited :: after).length
      else .failure (before ++ edited :: after).length
        ⟨edited.id, .mismatch, H.hex edited.hashedBytes, edited.currentHash⟩ := by
  rw [verifyEntireChain, firstFault_exchange hvalid hprevious hcurrent]
  split_ifs <;> rfl

/-- **Tampering with the fields of one record** is reported at that record
exactly when the edit does not recut them. -/
theorem fieldEdit_reported_iff {rows : List Row}
    (hvalid : (verifyEntireChain H (rows.map LogEntry.asEntry)).isSuccess = true)
    (i : ℕ) (hi : i < rows.length) (edit : FieldEdit)
    (hfree : H.CollisionFreeOn
      {rows[i].asEntry.hashedBytes, (edit.apply rows[i]).asEntry.hashedBytes}) :
    ((verifyEntireChain H ((rows.set i (edit.apply rows[i])).map LogEntry.asEntry)).isSuccess =
        false ∧
      (verifyEntireChain H ((rows.set i (edit.apply rows[i])).map LogEntry.asEntry)).brokenEntryId =
        some rows[i].id) ↔ ¬ edit.Recuts rows[i] := by
  have hset (row : Row) : rows.set i row = rows.take i ++ row :: rows.drop (i + 1) := by
    rw [List.set_eq_take_append_cons_drop, if_pos hi]
  have hrows := hset rows[i]
  rw [List.set_getElem_self] at hrows
  rw [isSuccess_verifyEntireChain_iff, hrows, List.map_append, List.map_cons] at hvalid
  have hstatus : verificationStatus H (edit.apply rows[i]).asEntry = true ↔
      edit.Recuts rows[i] := by
    have hstored := verificationStatus_iff.mp (hvalid.verified rows[i].asEntry (by simp))
    rw [verificationStatus_iff, ← hashedBytes_apply_eq_iff,
      ← hfree.eq_iff (by simp) (by simp), ← hstored, eq_comm]
    rfl
  have hprevious : (edit.apply rows[i]).asEntry.previousHash = rows[i].asEntry.previousHash := rfl
  have hcurrent : (edit.apply rows[i]).asEntry.currentHash = rows[i].asEntry.currentHash := rfl
  rw [hset, List.map_append, List.map_cons,
    verifyEntireChain_exchange hvalid hprevious hcurrent, ← hstatus]
  split_ifs with hverified
  · exact iff_of_false (fun h => Bool.false_ne_true h.1.symm) (not_not.mpr hverified)
  · exact iff_of_true ⟨rfl, rfl⟩ hverified

/-- The second of three rows is changed, and it is the one reported. -/
theorem fieldEdit_reported_iff_renamed :
    ∃ hi : 1 < threeRows.length,
      (verifyEntireChain sha256 ((threeRows.set 1
        ((FieldEdit.ofStrings "d" "x").apply threeRows[1])).map LogEntry.asEntry)).isSuccess =
          false ∧
      (verifyEntireChain sha256 ((threeRows.set 1
        ((FieldEdit.ofStrings "d" "x").apply threeRows[1])).map LogEntry.asEntry)).brokenEntryId =
          some threeRows[1].id := by
  have hi : 1 < threeRows.length := by decide
  have hvalid : (verifyEntireChain sha256 (threeRows.map LogEntry.asEntry)).isSuccess = true := by
    decide +kernel
  have hcuts : ¬ (FieldEdit.ofStrings "d" "x").Recuts threeRows[1] := by
    decide +kernel +revert
  have hfree : sha256.CollisionFreeOn {threeRows[1].asEntry.hashedBytes,
      ((FieldEdit.ofStrings "d" "x").apply threeRows[1]).asEntry.hashedBytes} :=
    Digest.collisionFreeOn_pair (by decide +kernel +revert)
  exact ⟨hi, (fieldEdit_reported_iff hvalid 1 hi _ hfree).mpr hcuts⟩

/-- Moving the separator between the actor and the action goes unnoticed. -/
theorem fieldEdit_unreported_recut :
    (verifyEntireChain sha256 [(firstRow "a|b" "c").asEntry]).isSuccess = true ∧
      (FieldEdit.ofStrings "a" "b|c").Differs (firstRow "a|b" "c") ∧
      (verifyEntireChain sha256
        [((FieldEdit.ofStrings "a" "b|c").apply (firstRow "a|b" "c")).asEntry]).isSuccess =
          true := by
  decide +kernel

end TamperEvidentLog.Service
