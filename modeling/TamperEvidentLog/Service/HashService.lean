/-
# The hash service

`generateHash` joins the fields of a record with `|` and takes the digest of the
UTF-8 bytes. `verifyEntry` recomputes one hash, `verifyEntireChain` walks a list
of records and stops at the first fault it finds.

The declarations of this file are the functions of `hash.service.js`; the digest
is a parameter, SHA-256 in the service.
-/

import TamperEvidentLog.Crypto.Digest
import TamperEvidentLog.Service.Entry

namespace TamperEvidentLog.Service

open TamperEvidentLog.Text TamperEvidentLog.Crypto

/-! ## Generation -/

/-- The previous hash of the first record. -/
def genesisPreviousHash : JsString := js "GENESIS"

/-- What `generateHash` reads. -/
structure HashData where
  /-- Who acted. -/
  actor : JsString
  /-- What was done. -/
  action : JsString
  /-- Structured details, or `null`. -/
  payload : JsonValue
  /-- The hash to chain to. -/
  previousHash : JsString
  /-- The time of creation. -/
  createdAt : Option Timestamp := none
  /-- The older name of `createdAt`. -/
  timestamp : Option Timestamp := none

/-- `data.createdAt || data.timestamp`. -/
def HashData.ts (data : HashData) : Option Timestamp :=
  if data.createdAt.any Timestamp.isTruthy then data.createdAt else data.timestamp

/-- The payload's part of the input. -/
def payloadText (payload : JsonValue) : JsString :=
  match payload.json with
  | .null => js "null"
  | _ => payload.stringify

/-- The time stamp's part of the input. -/
def stampText : Option Timestamp → JsString
  | some ts => ts.toText
  | none => js "undefined"

/-- The text whose digest is the hash. -/
def hashInput (data : HashData) : JsString :=
  joinWith 0x7C
    [data.previousHash, data.actor, data.action, payloadText data.payload, stampText data.ts]

variable (H : Digest)

/-- The hash of a record's data. -/
def generateHash (data : HashData) : JsString := H.hex (utf8 (hashInput data))

/-- The hash of the first record. -/
def createGenesisHash (actor action : JsString) (payload : JsonValue) (createdAt : Timestamp) :
    JsString :=
  generateHash H
    { actor, action, payload, previousHash := genesisPreviousHash, createdAt := some createdAt }

/-- The hash of a record behind another. -/
def calculateCurrentHash (actor action : JsString) (payload : JsonValue)
    (previousHash : JsString) (createdAt : Timestamp) : JsString :=
  generateHash H { actor, action, payload, previousHash, createdAt := some createdAt }

/-! ## Verification -/

/-- The data of a record, chained to `previousHash`. -/
def LogEntry.hashData (entry : Entry) (previousHash : JsString) : HashData :=
  { actor := entry.actor, action := entry.action, payload := entry.payload, previousHash,
    createdAt := some entry.createdAt }

/-- Does the stored hash of the record match the recomputed one? -/
def verifyEntry (entry : Entry) (resolvedPreviousHash : Option JsString) : Bool :=
  entry.currentHash ==
    generateHash H (entry.hashData (resolvedPreviousHash.getD genesisPreviousHash))

/-- Which check of `verifyEntireChain` failed. -/
inductive Reason
  | /-- The first record does not carry the genesis marker. -/
    genesisMarker
  | /-- A record does not name the record before it. -/
    linkage
  | /-- The stored hash is not the recomputed one. -/
    mismatch
  deriving DecidableEq

/-- The text of a reason. -/
def Reason.text : Reason → JsString
  | genesisMarker => js "First record previousHash must be \"GENESIS\" or null"
  | linkage => js "previousHash linkage broken"
  | mismatch => js "Hash mismatch"

/-- A failed check. -/
@[ext]
structure Fault where
  /-- The record the check failed at. -/
  brokenEntryId : JsString
  /-- Which check. -/
  reason : Reason
  /-- What the check expected. -/
  expectedHash : JsString
  /-- What it met. -/
  actualHash : JsString
  deriving DecidableEq

/-- What `verifyEntireChain` returns. -/
inductive VerificationResult
  | /-- `success: true`. -/
    success (totalEntries : ℕ)
  | /-- `success: false`. -/
    failure (totalEntries : ℕ) (fault : Fault)
  deriving DecidableEq

namespace VerificationResult

/-- The `success` field. -/
def isSuccess : VerificationResult → Bool
  | success _ => true
  | failure _ _ => false

/-- The `brokenEntryId` field. -/
def brokenEntryId : VerificationResult → Option JsString
  | success _ => none
  | failure _ fault => some fault.brokenEntryId

end VerificationResult

/-- The last check of the loop body: recompute and compare. -/
def checkHash (resolvedPreviousHash : JsString) (entry : Entry) : Option Fault :=
  let expectedHash := generateHash H (entry.hashData resolvedPreviousHash)
  if entry.currentHash ≠ expectedHash then
    some ⟨entry.id, .mismatch, expectedHash, entry.currentHash⟩
  else none

/-- The loop body, for the first record and for a record behind another. -/
def checkEntry : Option Entry → Entry → Option Fault
  | none, entry =>
    if entry.previousHash ≠ some genesisPreviousHash ∧ entry.previousHash ≠ none then
      some ⟨entry.id, .genesisMarker, genesisPreviousHash, entry.previousHash.getD (js "null")⟩
    else checkHash H genesisPreviousHash entry
  | some prior, entry =>
    if entry.previousHash ≠ some prior.currentHash then
      some ⟨entry.id, .linkage, prior.currentHash, entry.previousHash.getD []⟩
    else checkHash H prior.currentHash entry

/-- The loop over the records behind `prior`. -/
def firstFault (prior : Option Entry) : List Entry → Option Fault
  | [] => none
  | entry :: rest =>
    match checkEntry H prior entry with
    | some fault => some fault
    | none => firstFault (some entry) rest

/-- Walk all records and verify the chain. -/
def verifyEntireChain (entries : List Entry) : VerificationResult :=
  match firstFault H none entries with
  | some fault => .failure entries.length fault
  | none => .success entries.length

end TamperEvidentLog.Service
