/-
# Log entries

A record of the log lives in three places: as a row of `log_entries`, as the
object the code handles, and as a JSON text in the cache. They differ in what
`createdAt` is, a `Date` for a row and a text for an object that came out of the
cache, so the record is generic in it.

Reading a cached text back gives the object that was cached, except that its
payload has its members in enumeration order and its `createdAt` is the text of
the date. Neither difference shows in a JSON text.
-/

import TamperEvidentLog.Text.JsonParse
import TamperEvidentLog.Text.Jsonb
import TamperEvidentLog.Time.IsoDate

namespace TamperEvidentLog.Service

open TamperEvidentLog.Text TamperEvidentLog.Time

/-- What a `createdAt` field holds: a `Date` or a string. -/
inductive Timestamp
  | /-- A valid date. -/
    date (value : JsDate)
  | /-- A string. -/
    text (value : JsString)

namespace Timestamp

/-- `ts instanceof Date ? ts.toISOString() : String(ts)`, which is also what
`JSON.stringify` makes of either. -/
def toText : Timestamp → JsString
  | date value => value.toISOString
  | text value => value

/-- A date is truthy, a string when it is not empty. -/
def isTruthy : Timestamp → Bool
  | date _ => true
  | text value => !value.isEmpty

@[simp]
theorem toText_text (value : JsString) : (text value).toText = value := rfl

end Timestamp

/-- A record of the log. -/
structure LogEntry (τ : Type) where
  /-- The primary key. -/
  id : JsString
  /-- Who acted. -/
  actor : JsString
  /-- What was done. -/
  action : JsString
  /-- Structured details, or `null`. -/
  payload : JsonValue
  /-- The `currentHash` of the record before, if the column is not null. -/
  previousHash : Option JsString
  /-- The hash of this record. -/
  currentHash : JsString
  /-- When it was created. -/
  createdAt : τ

/-- A row of `log_entries`, with the `Date` that the client makes of its
`createdAt`. -/
abbrev Row := LogEntry JsDate

/-- A record as the code handles it. -/
abbrev Entry := LogEntry Timestamp

namespace LogEntry

/-- A row is a record whose `createdAt` is a date. -/
def asEntry (row : Row) : Entry := { row with createdAt := .date row.createdAt }

/-- The row that a query returns for the row that was written: the JSONB column
has put the members of the payload in its own order. -/
def readBack (row : Row) : Row := { row with payload := row.payload.jsonb }

/-- The columns in the order of the model declaration. -/
def columns : List JsString :=
  [js "id", js "actor", js "action", js "payload", js "previousHash", js "currentHash",
    js "createdAt"]

theorem columns_nodup : columns.Nodup := by decide

/-- The record as a JSON value. -/
def toJson (entry : Entry) : JsonValue where
  json := .object [
    (js "id", .string entry.id),
    (js "actor", .string entry.actor),
    (js "action", .string entry.action),
    (js "payload", entry.payload.json),
    (js "previousHash", entry.previousHash.elim .null .string),
    (js "currentHash", .string entry.currentHash),
    (js "createdAt", .string entry.createdAt.toText)]
  uniqueKeys_json := by
    rw [Json.uniqueKeys_object]
    refine ⟨columns_nodup, ?_⟩
    cases entry.previousHash <;> simp [Json.uniqueKeys, entry.payload.uniqueKeys_json]

/-- The object that `JSON.parse` of a cached text is, if it has the shape of a
record. -/
def ofJson (v : JsonValue) : Option Entry := do
  let .string id ← v.json.property (js "id") | none
  let .string actor ← v.json.property (js "actor") | none
  let .string action ← v.json.property (js "action") | none
  let payload ← v.property (js "payload")
  let previousHash ← match v.json.property (js "previousHash") with
    | some .null => some none
    | some (.string hash) => some (some hash)
    | _ => none
  let .string currentHash ← v.json.property (js "currentHash") | none
  let .string createdAt ← v.json.property (js "createdAt") | none
  return ⟨id, actor, action, payload, previousHash, currentHash, .text createdAt⟩

/-- What is left of a record after its text was written and read. -/
def decoded (entry : Entry) : Entry :=
  { entry with payload := entry.payload.ordered, createdAt := .text entry.createdAt.toText }

/-- The difference does not show in a text. -/
theorem stringify_toJson_decoded (entry : Entry) :
    entry.decoded.toJson.stringify = entry.toJson.stringify := by
  have hpayload : entry.payload.json.ordered.stringify = entry.payload.json.stringify :=
    entry.payload.json.stringify_ordered
  rw [JsonValue.stringify, JsonValue.stringify, toJson, toJson, Json.stringify_object,
    Json.stringify_object, ← ownProperties_mapValues, ← ownProperties_mapValues]
  simp [decoded, JsonValue.ordered, hpayload]

/-- Writing a record and reading the text back. -/
theorem ofJson_ordered_toJson (entry : Entry) :
    ofJson entry.toJson.ordered = some entry.decoded := by
  have hproperty (key : JsString) : entry.toJson.ordered.json.property key =
      (entry.toJson.json.property key).map Json.ordered :=
    Json.property_ordered entry.toJson.uniqueKeys_json key
  have hpayload : entry.toJson.ordered.property (js "payload") = some entry.payload.ordered :=
    JsonValue.property_eq_some (hproperty _)
  have hid : entry.toJson.json.property (js "id") = some (.string entry.id) := rfl
  have hactor : entry.toJson.json.property (js "actor") = some (.string entry.actor) := rfl
  have haction : entry.toJson.json.property (js "action") = some (.string entry.action) := rfl
  have hprevious : entry.toJson.json.property (js "previousHash") =
      some (entry.previousHash.elim .null .string) := rfl
  have hcurrent : entry.toJson.json.property (js "currentHash") =
      some (.string entry.currentHash) := rfl
  have hcreated : entry.toJson.json.property (js "createdAt") =
      some (.string entry.createdAt.toText) := rfl
  simp only [ofJson, hproperty, hpayload, hid, hactor, haction, hprevious, hcurrent, hcreated]
  cases hhash : entry.previousHash <;> simp [Json.ordered, decoded, hhash]

/-- The text under which the cache keeps the record. -/
def encode (entry : Entry) : JsString := entry.toJson.stringify

/-- The record that a cached text holds. -/
def decode (text : JsString) : Option Entry := (JsonValue.parse text).bind ofJson

/-- A cached record comes back as `decoded`. -/
theorem decode_encode (entry : Entry) : decode entry.encode = some entry.decoded := by
  rw [decode, encode, JsonValue.parse_stringify, Option.bind_some, ofJson_ordered_toJson]

end LogEntry

end TamperEvidentLog.Service
