/-
# What was posted and what comes back

Between the body of a `POST /api/log` and the body of a response that shows the
entry stand the schema, which copies the payload, the JSONB column, which
rearranges it, and `JSON.stringify` and `JSON.parse`, which rearrange it once
more. None of them changes a value. A client finds its actor and its action, and
at every path of its payload what it put there, except that the schema drops the
member `__proto__` of the payload itself. That the column keeps the numerals of
numbers is assumed where the column is.
-/

import TamperEvidentLog.Service.AppSafety
import TamperEvidentLog.Text.JsonPath

namespace TamperEvidentLog.Service

open TamperEvidentLog.Text TamperEvidentLog.Crypto TamperEvidentLog.Time

variable {apiKey : JsString}

/-! ## Validation -/

/-- The schema copies every member of the payload but one. -/
theorem lookup_recordMembers {members : List (JsString × Json)}
    (hunique : (members.map Prod.fst).Nodup) {k : JsString} (hk : k ≠ js "__proto__") :
    (CreateLogSchema.recordMembers members).lookup k = members.lookup k := by
  have hperm := ownProperties_perm members
  have hown : ((ownProperties members).map Prod.fst).Nodup :=
    (hperm.map Prod.fst).nodup_iff.mpr hunique
  ext value
  rw [CreateLogSchema.recordMembers,
    lookup_eq_some_iff_mem (hown.sublist (List.filter_sublist.map _)),
    lookup_eq_some_iff_mem hunique, List.mem_filter, hperm.mem_iff]
  simp [hk]

/-- A property is the first step of a path. -/
theorem child_key (j : Json) (k : JsString) : j.child (.key k) = j.property k := by
  cases j <;> rfl

/-- Below its payload the accepted entry is what the body is. -/
theorem follow_payload {body payload : JsonValue}
    (hpayload : CreateLogSchema.payload (body.property (js "payload")) = .ok payload)
    {k : JsString} (hk : k ≠ js "__proto__") (path : List PathStep) :
    payload.json.follow (.key k :: path) =
      body.json.follow (.key (js "payload") :: .key k :: path) := by
  rw [Json.follow_cons (.key (js "payload")), child_key]
  cases hvalue : body.property (js "payload") with
  | none =>
    have hnone : body.json.property (js "payload") = none := by
      simpa [JsonValue.property] using hvalue
    rw [hvalue] at hpayload
    cases hpayload
    rw [hnone]
    rfl
  | some value =>
    have hsome : body.json.property (js "payload") = some value.json := by
      obtain ⟨j, _, hj, rfl⟩ := Option.pmap_eq_some_iff.mp hvalue
      exact hj
    rw [hvalue] at hpayload
    rw [hsome, Option.bind_some]
    obtain ⟨j, hunique⟩ := value
    cases j with
    | null =>
      cases hpayload
      rfl
    | object members =>
      have hcopied : payload.json = .object (CreateLogSchema.recordMembers members) := by
        cases hpayload
        rfl
      rw [Json.uniqueKeys_object] at hunique
      rw [hcopied, Json.follow_cons, Json.follow_cons, child_key, child_key, Json.property,
        Json.property, lookup_recordMembers hunique.1 hk]
    | _ => cases hpayload

/-! ## Responses -/

/-- A text echoes a body at a location: parsed, it has there the actor, the action
and the leaves of the payload, those under `__proto__` apart. -/
structure Echoes (body : JsonValue) (location : List PathStep) (text : JsString) : Prop where
  /-- The text is JSON. -/
  parses : ∃ v, JsonValue.parse text = some v
  /-- The actor and the action. -/
  fields : ∀ v, JsonValue.parse text = some v → ∀ field ∈ [js "actor", js "action"],
    v.json.follow (location ++ [.key field]) = body.json.follow [.key field]
  /-- The payload. -/
  payload : ∀ v, JsonValue.parse text = some v → ∀ k ≠ js "__proto__",
    ∀ (path : List PathStep) (leaf : Json), leaf.isLeaf = true →
      (v.json.follow (location ++ .key (js "payload") :: .key k :: path) = some leaf ↔
        body.json.follow (.key (js "payload") :: .key k :: path) = some leaf)

/-- A response that shows the entry at a location echoes the body there. -/
theorem echoes_of_follow {body : JsonValue} (response : JsonValue) {row : Row}
    {location : List PathStep}
    (hvalid : validateBody body = .next ⟨row.actor, row.action, row.payload⟩)
    (hlocation : response.json.follow location = some row.readBack.asEntry.toJson.json) :
    Echoes body location response.stringify := by
  have hfields : ∃ dto : CreateLogDto, CreateLogSchema.safeParse body = .ok dto ∧
      dto = ⟨row.actor, row.action, row.payload⟩ := by
    rw [validateBody] at hvalid
    split at hvalid
    case h_1 dto hdto =>
      cases hvalid
      exact ⟨_, hdto, rfl⟩
    case h_2 => cases hvalid
  obtain ⟨dto, haccepted, hdto⟩ := hfields
  obtain ⟨_, ⟨hactor, _⟩, ⟨haction, _⟩, hpayload⟩ := CreateLogSchema.fields_of_safeParse haccepted
  rw [hdto] at hactor haction hpayload
  have hparse := JsonValue.parse_stringify response
  have hordered (path : List PathStep) : response.ordered.json.follow path =
      (response.json.follow path).map Json.ordered :=
    Json.rearranges_ordered.follow_eq response.uniqueKeys_json path
  refine ⟨⟨_, hparse⟩, fun v hv field hfield => ?_, fun v hv k hk path leaf hleaf => ?_⟩
  · cases hparse.symm.trans hv
    rw [hordered, Json.follow_append, hlocation, Option.bind_some,
      Json.follow_cons (j := body.json), child_key]
    rcases List.mem_pair.mp hfield with rfl | rfl
    · rw [hactor]
      rfl
    · rw [haction]
      rfl
  · cases hparse.symm.trans hv
    have hpart : response.json.follow (location ++ .key (js "payload") :: .key k :: path) =
        row.payload.json.jsonb.follow (.key k :: path) := by
      rw [Json.follow_append, hlocation]
      rfl
    rw [← follow_payload hpayload hk path,
      ← Json.rearranges_jsonb.follow_eq_leaf_iff row.payload.uniqueKeys_json hleaf, ← hpart]
    exact Json.rearranges_ordered.follow_eq_leaf_iff response.uniqueKeys_json hleaf _

/-- A response with its data as an object graph. -/
theorem uniqueKeys_success {data : Json} (hdata : data.uniqueKeys = true) :
    (Response.success data).body.uniqueKeys = true := by
  have hkeys : [js "success", js "message", js "data"].Nodup := by decide
  rw [Response.success, Json.uniqueKeys_object]
  exact ⟨hkeys, by simp [hdata, Json.uniqueKeys]⟩

theorem uniqueKeys_created {data : Json} (hdata : data.uniqueKeys = true) :
    (Response.created data).body.uniqueKeys = true := by
  have hkeys : [js "success", js "message", js "data"].Nodup := by decide
  rw [Response.created, Json.uniqueKeys_object]
  exact ⟨hkeys, by simp [hdata, Json.uniqueKeys]⟩

theorem uniqueKeys_foundResponse (entry : Entry) (status : Bool) :
    (foundResponse entry status).body.uniqueKeys = true := by
  have hkeys : [js "entry", js "verificationStatus"].Nodup := by decide
  refine uniqueKeys_success (Json.uniqueKeys_object.mpr ⟨hkeys, ?_⟩)
  simp [entry.toJson.uniqueKeys_json, Json.uniqueKeys]

/-- **What was posted comes back.** The entry of a `POST /api/log` that was let in
shows what its body says, to the client that posted it and to every client that
reads it: the actor, the action, and at each path that starts with a member of the
payload other than `__proto__` the same leaf or none, whatever the body. -/
theorem posted_comes_back {exchange : Exchange} {row : Row}
    (hposted : App.Posted apiKey exchange row) :
    ∃ body ∈ exchange.request.body,
      Echoes body [.key (js "data")]
        (Response.created row.readBack.asEntry.toJson.json).body.stringify ∧
      ∀ status, Echoes body [.key (js "data"), .key (js "entry")]
        (foundResponse row.readBack.asEntry status).body.stringify := by
  obtain ⟨body, hbody, hvalid⟩ := hposted.body
  refine ⟨body, hbody, ?_, fun status => ?_⟩
  · have hunique := uniqueKeys_created row.readBack.asEntry.toJson.uniqueKeys_json
    exact echoes_of_follow ⟨_, hunique⟩ hvalid rfl
  · have hunique := uniqueKeys_foundResponse row.readBack.asEntry status
    exact echoes_of_follow ⟨_, hunique⟩ hvalid rfl

/-- A payload whose keys the column returns in another order. -/
def nestedPayload : JsonValue where
  json := .object [(js "after", .array [.null, .object []]), (js "ip", .string (js "::1"))]
  uniqueKeys_json := by decide

theorem posted_comes_back_nested :
    ∃ exchange row body, App.Posted (js "key") exchange row ∧ exchange.request.body = some body ∧
      body.json.property (js "payload") = some nestedPayload.json ∧
      Echoes body [.key (js "data")]
        (Response.created row.readBack.asEntry.toJson.json).body.stringify := by
  let body : JsonValue := ⟨.object [(js "actor", .string (js "alice")),
    (js "action", .string (js "login")), (js "payload", nestedPayload.json)], by decide⟩
  let exchange : Exchange := ⟨⟨some (js "key"), some body, .createLog⟩, false, .calling⟩
  let dto : CreateLogDto := ⟨js "alice", js "login", nestedPayload⟩
  have hposted : App.Posted (js "key") exchange
      (nextRow sha256 genesisPreviousHash (js "1") dto JsDate.epoch) :=
    { route := rfl
      limited := rfl
      key := rfl
      body := ⟨body, rfl, rfl⟩
      answered := by simp [exchange] }
  obtain ⟨body', hbody', hcreated, _⟩ := posted_comes_back hposted
  cases hbody'
  exact ⟨exchange, _, body, hposted, rfl, rfl, hcreated⟩

end TamperEvidentLog.Service
