/-
# What storage does to a hash

The hash of an entry is computed from the payload in memory and recomputed from
the payload that the JSONB column returns. The column keeps the members of every
object but not their order, and `JSON.stringify` writes them in the order it
finds. The two hashes agree exactly when the payload enumerates every one of its
objects in storage order to begin with.
-/

import TamperEvidentLog.Service.Append

namespace TamperEvidentLog.Service

open TamperEvidentLog.Text TamperEvidentLog.Time TamperEvidentLog.Crypto
open TamperEvidentLog.Protocol

variable {H : Digest}

/-- The bytes of a row survive storage exactly when its payload is in storage
order. -/
theorem hashedBytes_readBack_eq_iff (row : Row) :
    row.readBack.asEntry.hashedBytes = row.asEntry.hashedBytes ↔
      row.payload.json.inStorageOrder = true := by
  have hprevious : row.readBack.asEntry.resolvedPreviousHash =
      row.asEntry.resolvedPreviousHash := rfl
  have hcontent (payload : JsonValue) :
      utf8 (joinWith 0x7C [row.actor, row.action, payload.stringify]) =
        utf8 row.actor ++ 0x7C :: (utf8 row.action ++ 0x7C :: utf8 payload.stringify) := by
    rw [joinWith_cons_cons, utf8_append_separator, joinWith_cons_cons, utf8_append_separator,
      joinWith_singleton]
  rw [← JsonValue.stringify_jsonb_iff, hashedBytes_asEntry, hashedBytes_asEntry, hprevious]
  constructor
  · intro hbytes
    have htail := List.tail_eq_of_cons_eq (List.append_cancel_left hbytes)
    have hfields : utf8 (joinWith 0x7C [row.actor, row.action, row.payload.jsonb.stringify]) =
        utf8 (joinWith 0x7C [row.actor, row.action, row.payload.stringify]) :=
      List.append_cancel_right htail
    rw [hcontent, hcontent] at hfields
    have haction := List.tail_eq_of_cons_eq (List.append_cancel_left hfields)
    have hpayload := List.tail_eq_of_cons_eq (List.append_cancel_left haction)
    exact utf8_injective_of_wellFormed (Json.wellFormed_stringify _)
      (Json.wellFormed_stringify _) hpayload
  · intro hpayload
    have hreadBack : row.readBack.payload.stringify = row.payload.stringify := hpayload
    rw [hreadBack]
    rfl

/-- A verified row verifies after storage exactly when its payload is in storage
order. -/
theorem verificationStatus_readBack_iff {row : Row}
    (hverified : verificationStatus H row.asEntry = true)
    (hfree : H.CollisionFreeOn {row.asEntry.hashedBytes, row.readBack.asEntry.hashedBytes}) :
    verificationStatus H row.readBack.asEntry = true ↔
      row.payload.json.inStorageOrder = true := by
  have hstored := verificationStatus_iff.mp hverified
  rw [verificationStatus_iff, ← hashedBytes_readBack_eq_iff,
    ← hfree.eq_iff (by simp) (by simp), ← hstored, eq_comm]
  rfl

/-- A row with its payload in storage order verifies after storage if it did
before. -/
theorem verificationStatus_readBack {row : Row}
    (hverified : verificationStatus H row.asEntry = true)
    (hpayload : row.payload.json.inStorageOrder = true) :
    verificationStatus H row.readBack.asEntry = true := by
  rw [verificationStatus_iff, (hashedBytes_readBack_eq_iff row).mpr hpayload,
    ← verificationStatus_iff.mp hverified]
  rfl

/-- Rows with their payloads in storage order form a valid chain after storage
if they did before. -/
theorem ValidChain.readBack {rows : List Row}
    (hvalid : ValidChain H (rows.map LogEntry.asEntry))
    (hpayloads : ∀ row ∈ rows, row.payload.json.inStorageOrder = true) :
    ValidChain H ((rows.map LogEntry.readBack).map LogEntry.asEntry) := by
  constructor
  · rw [List.map_map]
    refine (Linkage.linked_map_congr ?_ ?_).mp hvalid.linked
    · exact fun _ => rfl
    · exact fun _ => rfl
  · intro entry hentry
    obtain ⟨stored, hstored, rfl⟩ := List.mem_map.mp hentry
    obtain ⟨row, hrow, rfl⟩ := List.mem_map.mp hstored
    exact verificationStatus_readBack (hvalid.verified _ (List.mem_map_of_mem hrow))
      (hpayloads row hrow)

/-- **Hashes across storage.** What the verifier recomputes for an entry that
was written and read back is what the writer computed exactly when the payload
is in storage order; the same holds for the walk over any valid chain that the
entry was appended to. -/
theorem hash_stable_iff (latestHash id : JsString) (dto : CreateLogDto) (createdAt : JsDate)
    (hfree : H.CollisionFreeOn
      {(nextRow H latestHash id dto createdAt).asEntry.hashedBytes,
        (nextRow H latestHash id dto createdAt).readBack.asEntry.hashedBytes}) :
    (verifyEntry H (nextRow H latestHash id dto createdAt).readBack.asEntry (some latestHash) =
        true ↔ dto.payload.json.inStorageOrder = true) ∧
      ∀ earlier : List Entry, (verifyEntireChain H earlier).isSuccess = true →
        chain.tipOf genesisPreviousHash earlier = latestHash →
        ((verifyEntireChain H
            (earlier ++ [(nextRow H latestHash id dto createdAt).readBack.asEntry])).isSuccess =
          true ↔ dto.payload.json.inStorageOrder = true) := by
  have hprevious : (nextRow H latestHash id dto createdAt).readBack.asEntry.resolvedPreviousHash =
      latestHash := resolvedPreviousHash_nextRow latestHash id dto createdAt
  have hstatus := verificationStatus_readBack_iff
    (verificationStatus_nextRow latestHash id dto createdAt) hfree
  refine ⟨?_, fun earlier hearlier htip => ?_⟩
  · rw [verificationStatus, hprevious] at hstatus
    exact hstatus
  · rw [isSuccess_verifyEntireChain_iff] at hearlier ⊢
    rw [validChain_snoc, htip]
    exact ⟨fun h => hstatus.mp h.2.2, fun h => ⟨hearlier, hprevious, hstatus.mpr h⟩⟩

/-- A request whose payload `{"ip":"::1","a":"b"}` names its longer key first. -/
def longerKeyFirst : CreateLogDto where
  actor := js "alice"
  action := js "login"
  payload := ⟨.object [(js "ip", .string (js "::1")), (js "a", .string (js "b"))], by decide⟩

/-- An entry without a payload, the first of a log. -/
def bobRow : Row := nextRow sha256 genesisPreviousHash (js "1") ⟨js "bob", js "login", .null⟩
  JsDate.epoch

/-- Behind another entry the request breaks the chain. -/
theorem hash_stable_iff_longerKeyFirst :
    (verifyEntireChain sha256 ([bobRow.asEntry] ++
      [(nextRow sha256 bobRow.currentHash (js "2") longerKeyFirst
        JsDate.epoch).readBack.asEntry])).isSuccess ≠ true := by
  have hfree : sha256.CollisionFreeOn
      {(nextRow sha256 bobRow.currentHash (js "2") longerKeyFirst
          JsDate.epoch).asEntry.hashedBytes,
        (nextRow sha256 bobRow.currentHash (js "2") longerKeyFirst
          JsDate.epoch).readBack.asEntry.hashedBytes} :=
    Digest.collisionFreeOn_pair (by decide +kernel)
  have hfirst : (verifyEntireChain sha256 [bobRow.asEntry]).isSuccess = true := by
    decide +kernel
  have hiff := (hash_stable_iff bobRow.currentHash (js "2") longerKeyFirst JsDate.epoch hfree).2
    [bobRow.asEntry] hfirst rfl
  exact fun hsuccess => absurd (hiff.mp hsuccess) (by decide +kernel)

/-- The hash that was stored for this request is not the one that is
recomputed. -/
theorem hash_unstable_longerKeyFirst :
    (nextRow sha256 genesisPreviousHash (js "1") longerKeyFirst JsDate.epoch).currentHash ≠
        generateHash sha256 ((nextRow sha256 genesisPreviousHash (js "1") longerKeyFirst
          JsDate.epoch).readBack.asEntry.hashData genesisPreviousHash) ∧
      verifyEntry sha256 (nextRow sha256 genesisPreviousHash (js "1") longerKeyFirst
        JsDate.epoch).readBack.asEntry (some genesisPreviousHash) = false := by
  decide +kernel

end TamperEvidentLog.Service
