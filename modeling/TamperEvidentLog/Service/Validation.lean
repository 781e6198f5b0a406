/-
# What a create request must look like

`validateBody(CreateLogSchema)` stands in front of `createLog`. The schema looks
at the types of the three fields and at the lengths of two of them, in code
units; it does not look at the characters. Its bounds keep within the columns of
`log_entries`, so what the columns refuse of an accepted request is U+0000 and
unpaired surrogates, wherever they stand.
-/

import TamperEvidentLog.Service.Http
import TamperEvidentLog.Service.LogRepository

namespace TamperEvidentLog.Service

open TamperEvidentLog.Text

/-! ## Schemas -/

/-- What a schema makes of a value: what it parses to, or what is wrong. -/
abbrev Checked (α : Type) := Except (List Issue) α

/-- What is wrong. -/
def issuesOf {α : Type} : Checked α → List Issue
  | .ok _ => []
  | .error issues => issues

theorem issuesOf_error {α : Type} (issues : List Issue) :
    issuesOf (.error issues : Checked α) = issues := rfl

/-- `z.object` with three fields: what they parse to, or everything that is wrong
with any of them. -/
def combine {α β γ δ : Type} (make : α → β → γ → δ) :
    Checked α → Checked β → Checked γ → Checked δ
  | .ok a, .ok b, .ok c => .ok (make a b c)
  | first, second, third => .error (issuesOf first ++ issuesOf second ++ issuesOf third)

theorem combine_eq_ok_iff {α β γ δ : Type} {make : α → β → γ → δ} {first : Checked α}
    {second : Checked β} {third : Checked γ} {result : δ} :
    combine make first second third = .ok result ↔
      ∃ a b c, first = .ok a ∧ second = .ok b ∧ third = .ok c ∧ make a b c = result := by
  match first, second, third with
  | .ok _, .ok _, .ok _ => simp [combine]
  | .error _, _, _ | .ok _, .error _, _ | .ok _, .ok _, .error _ => simp [combine]

/-- Whatever is wrong with an object is wrong with one of its fields. -/
theorem mem_issuesOf_combine {α β γ δ : Type} {make : α → β → γ → δ} {first : Checked α}
    {second : Checked β} {third : Checked γ} {issue : Issue}
    (hissue : issue ∈ issuesOf (combine make first second third)) :
    issue ∈ issuesOf first ∨ issue ∈ issuesOf second ∨ issue ∈ issuesOf third := by
  unfold combine at hissue
  split at hissue
  · cases hissue
  · rwa [issuesOf_error, List.mem_append, List.mem_append, or_assoc] at hissue

/-- `getParsedType`. -/
def parsedType : Json → JsString
  | .null => js "null"
  | .bool _ => js "boolean"
  | .number _ => js "number"
  | .string _ => js "string"
  | .array _ => js "array"
  | .object _ => js "object"

/-- The message for a value of another type. -/
def invalidType (expected : JsString) (value : Json) : JsString :=
  js "Expected " ++ expected ++ js ", received " ++ parsedType value

/-- `z.string({ required_error }).min(...).max(...)`, as the schema of a
field. -/
structure StringSchema where
  /-- The key of the field. -/
  key : JsString
  /-- `required_error`. -/
  required : JsString
  /-- The least length. -/
  min : ℕ
  /-- The message for a shorter string. -/
  minMessage : JsString
  /-- The greatest length. -/
  max : ℕ
  /-- The message for a longer string. -/
  maxMessage : JsString

namespace StringSchema

/-- What is wrong with the length of a string. -/
def lengthIssues (schema : StringSchema) (s : JsString) : List Issue :=
  (if s.length < schema.min then [⟨[schema.key], schema.minMessage⟩] else []) ++
    if schema.max < s.length then [⟨[schema.key], schema.maxMessage⟩] else []

/-- Check the value of the field. -/
def parse (schema : StringSchema) : Option Json → Checked JsString
  | none => .error [⟨[schema.key], schema.required⟩]
  | some (.string s) =>
    if schema.lengthIssues s = [] then .ok s else .error (schema.lengthIssues s)
  | some value => .error [⟨[schema.key], invalidType (js "string") value⟩]

theorem lengthIssues_eq_nil_iff {schema : StringSchema} {s : JsString} :
    schema.lengthIssues s = [] ↔ schema.min ≤ s.length ∧ s.length ≤ schema.max := by
  simp [lengthIssues]

/-- The strings of a length within the bounds are accepted, and nothing else. -/
theorem parse_eq_ok_iff {schema : StringSchema} {value : Option Json} {s : JsString} :
    schema.parse value = .ok s ↔
      value = some (.string s) ∧ schema.min ≤ s.length ∧ s.length ≤ schema.max := by
  rw [← lengthIssues_eq_nil_iff]
  match value with
  | some (.string t) =>
    rw [parse]
    split
    case isTrue hlength =>
      constructor
      · intro hok
        cases hok
        exact ⟨rfl, hlength⟩
      · rintro ⟨hvalue, _⟩
        cases hvalue
        rfl
    case isFalse hlength =>
      refine iff_of_false (fun hok => nomatch hok) ?_
      rintro ⟨hvalue, hempty⟩
      cases hvalue
      exact hlength hempty
  | none | some .null | some (.bool _) | some (.number _) | some (.array _) | some (.object _) =>
    simp [parse]

/-- Whatever is wrong is said about this field. -/
theorem path_of_mem_issuesOf {schema : StringSchema} {value : Option Json} {issue : Issue}
    (hissue : issue ∈ issuesOf (schema.parse value)) : issue.path = [schema.key] := by
  match value with
  | some (.string t) =>
    rw [parse] at hissue
    split_ifs at hissue
    · cases hissue
    · rw [issuesOf, lengthIssues, List.mem_append] at hissue
      rcases hissue with hissue | hissue
      all_goals
        split_ifs at hissue
        · rw [List.mem_singleton.mp hissue]
        · cases hissue
  | none | some .null | some (.bool _) | some (.number _) | some (.array _) | some (.object _) =>
    rw [List.mem_singleton.mp hissue]

end StringSchema

/-! ## The schema of a create request -/

namespace CreateLogSchema

/-- The field `actor`. -/
def actor : StringSchema where
  key := js "actor"
  required := js "actor is required"
  min := 1
  minMessage := js "actor must be at least 1 character"
  max := 100
  maxMessage := js "actor must be at most 100 characters"

/-- The field `action`. -/
def action : StringSchema where
  key := js "action"
  required := js "action is required"
  min := 1
  minMessage := js "action must be at least 1 character"
  max := 500
  maxMessage := js "action must be at most 500 characters"

/-- The object that `z.record` copies the enumerated members into; the key
`__proto__` is left out. -/
def recordMembers (members : List (JsString × Json)) : List (JsString × Json) :=
  (ownProperties members).filter fun m => m.1 ≠ js "__proto__"

theorem uniqueKeys_recordMembers {members : List (JsString × Json)}
    (hunique : (Json.object members).uniqueKeys = true) :
    (Json.object (recordMembers members)).uniqueKeys = true := by
  rw [Json.uniqueKeys_object] at hunique ⊢
  have hperm := ownProperties_perm members
  constructor
  · exact ((hperm.map Prod.fst).nodup_iff.mpr hunique.1).sublist (List.filter_sublist.map _)
  · exact fun m hm => hunique.2 m (hperm.mem_iff.mp (List.mem_filter.mp hm).1)

/-- The field `payload`: a record, `null` or nothing, which stands for
`null`. -/
def payload : Option JsonValue → Checked JsonValue
  | none => .ok JsonValue.null
  | some ⟨.null, _⟩ => .ok JsonValue.null
  | some ⟨.object members, hunique⟩ =>
    .ok ⟨.object (recordMembers members), uniqueKeys_recordMembers hunique⟩
  | some value => .error [⟨[js "payload"], invalidType (js "object") value.json⟩]

/-- `CreateLogSchema.safeParse(body)`. -/
def safeParse (body : JsonValue) : Checked CreateLogDto :=
  match body.json with
  | .object _ =>
    combine CreateLogDto.mk (actor.parse (body.json.property (js "actor")))
      (action.parse (body.json.property (js "action")))
      (payload (body.property (js "payload")))
  | value => .error [⟨[], invalidType (js "object") value⟩]

end CreateLogSchema

/-- `validateBody(CreateLogSchema)`. -/
def validateBody (body : JsonValue) : Handled CreateLogDto :=
  match CreateLogSchema.safeParse body with
  | .ok dto => .next dto
  | .error issues =>
    .answered ⟨HttpStatus.unprocessableEntity,
      .object [(js "error", .string (js "Validation Error")), (js "details", issueDetails issues)]⟩

namespace CreateLogSchema

/-- An accepted body is an object with an actor and an action of admissible
lengths. -/
theorem fields_of_safeParse {body : JsonValue} {dto : CreateLogDto}
    (haccepted : safeParse body = .ok dto) :
    (∃ members, body.json = .object members) ∧
      (body.json.property (js "actor") = some (.string dto.actor) ∧
        1 ≤ dto.actor.length ∧ dto.actor.length ≤ 100) ∧
      (body.json.property (js "action") = some (.string dto.action) ∧
        1 ≤ dto.action.length ∧ dto.action.length ≤ 500) ∧
      payload (body.property (js "payload")) = .ok dto.payload := by
  unfold safeParse at haccepted
  split at haccepted
  case h_1 members hbody =>
    obtain ⟨_, _, _, hactor, haction, hpayload, rfl⟩ := combine_eq_ok_iff.mp haccepted
    exact ⟨⟨members, hbody⟩, StringSchema.parse_eq_ok_iff.mp hactor,
      StringSchema.parse_eq_ok_iff.mp haction, hpayload⟩
  case h_2 => cases haccepted

/-- Whatever is wrong with a body is said about the body itself or one of the
three fields. -/
theorem path_of_mem_issuesOf {body : JsonValue} {issue : Issue}
    (hissue : issue ∈ issuesOf (safeParse body)) :
    issue.path = [] ∨ issue.path = [js "actor"] ∨ issue.path = [js "action"] ∨
      issue.path = [js "payload"] := by
  have hpayload {value : Option JsonValue} (hmem : issue ∈ issuesOf (payload value)) :
      issue.path = [js "payload"] := by
    unfold payload at hmem
    split at hmem
    case h_4 => rw [List.mem_singleton.mp hmem]
    all_goals cases hmem
  unfold safeParse at hissue
  split at hissue
  case h_1 =>
    rcases mem_issuesOf_combine hissue with hissue | hissue | hissue
    · exact Or.inr (Or.inl (StringSchema.path_of_mem_issuesOf hissue))
    · exact Or.inr (Or.inr (Or.inl (StringSchema.path_of_mem_issuesOf hissue)))
    · exact Or.inr (Or.inr (Or.inr (hpayload hissue)))
  case h_2 =>
    rw [List.mem_singleton.mp hissue]
    exact Or.inl rfl

end CreateLogSchema

/-! ## The columns -/

namespace CreateLogDto

/-- All strings and keys of a request. -/
def texts (dto : CreateLogDto) : List JsString :=
  dto.actor :: dto.action :: dto.payload.json.texts

end CreateLogDto

/-- The lengths that the schema admits fit the columns. -/
theorem CreateLogSchema.codePoints_of_safeParse {body : JsonValue} {dto : CreateLogDto}
    (haccepted : safeParse body = .ok dto) :
    codePoints dto.actor ≤ 255 ∧ codePoints dto.action ≤ 500 := by
  obtain ⟨_, ⟨_, _, hactor⟩, ⟨_, _, haction⟩, _⟩ := fields_of_safeParse haccepted
  have hactorPoints := codePoints_le_length dto.actor
  have hactionPoints := codePoints_le_length dto.action
  omega

/-- The columns take an accepted request exactly when they take all its strings
and keys. -/
theorem CreateLogSchema.storable_iff {body : JsonValue} {dto : CreateLogDto}
    (haccepted : safeParse body = .ok dto) :
    dto.Storable ↔ ∀ s ∈ dto.texts, isColumnText s = true := by
  obtain ⟨hactorLength, hactionLength⟩ := codePoints_of_safeParse haccepted
  rw [CreateLogDto.texts, List.forall_mem_cons, List.forall_mem_cons, ← Json.isStorable_iff]
  constructor
  · intro hstorable
    exact ⟨hstorable.actor_text, hstorable.action_text, hstorable.payload⟩
  · rintro ⟨hactor, haction, hpayload⟩
    exact ⟨hactor, hactorLength, haction, hactionLength, hpayload⟩

end TamperEvidentLog.Service
