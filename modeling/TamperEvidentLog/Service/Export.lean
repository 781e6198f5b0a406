/-
# The export and its filter

`GET /api/export` checks its query by `ExportFilterSchema` and hands what it
supplied to `findFiltered`, which builds the conditions of one query: the actor,
and the bounds of `createdAt` as dates.

Three things get lost on the way. The schema checks a time stamp by its shape,
so a bound may turn out to be an Invalid Date; `if (filters.actor)` takes an
empty actor for none; and a date drops the digits behind the milliseconds, which
moves a lower bound before the instant that was asked for.
-/

import TamperEvidentLog.Time.DateTime
import TamperEvidentLog.Service.Validation

namespace TamperEvidentLog.Service

open TamperEvidentLog.Text TamperEvidentLog.Time

/-! ## The schema of an export query -/

/-- The filter that `ExportFilterSchema` yields. -/
structure ExportFilter where
  /-- `actor`. -/
  actor : Option JsString
  /-- `from`. -/
  fromBound : Option DateTimeText
  /-- `to`. -/
  toBound : Option DateTimeText

namespace ExportFilterSchema

/-- `z.string().optional()`, for the field `actor`. -/
def actor : Option Json → Checked (Option JsString)
  | none => .ok none
  | some (.string s) => .ok (some s)
  | some value => .error [⟨[js "actor"], invalidType (js "string") value⟩]

/-- `z.string().datetime({ message }).optional()`, for the field `key`. -/
def bound (key message : JsString) : Option Json → Checked (Option DateTimeText)
  | none => .ok none
  | some (.string s) =>
    match DateTimeText.ofText s with
    | some d => .ok (some d)
    | none => .error [⟨[key], message⟩]
  | some value => .error [⟨[key], invalidType (js "string") value⟩]

/-- The field `from`. -/
def fromBound : Option Json → Checked (Option DateTimeText) :=
  bound (js "from") (js "from must be a valid ISO-8601 datetime")

/-- The field `to`. -/
def toBound : Option Json → Checked (Option DateTimeText) :=
  bound (js "to") (js "to must be a valid ISO-8601 datetime")

/-- `ExportFilterSchema.safeParse(query)`. -/
def safeParse (query : Json) : Checked ExportFilter :=
  match query with
  | .object _ =>
    combine ExportFilter.mk (actor (query.property (js "actor")))
      (fromBound (query.property (js "from"))) (toBound (query.property (js "to")))
  | value => .error [⟨[], invalidType (js "object") value⟩]

theorem bound_eq_ok_iff {key message : JsString} {value : Option Json}
    {parsed : Option DateTimeText} :
    bound key message value = .ok parsed ↔
      value = parsed.map fun d => .string d.text := by
  match value with
  | none => cases parsed <;> simp [bound]
  | some (.string s) =>
    rw [bound]
    cases htext : DateTimeText.ofText s with
    | none =>
      refine iff_of_false (fun hok => nomatch hok) fun hvalue => ?_
      cases parsed with
      | none => cases hvalue
      | some d =>
        rw [Option.map_some, Option.some_inj, Json.string.injEq] at hvalue
        rw [hvalue, DateTimeText.ofText_text] at htext
        cases htext
    | some d =>
      have hd : d.text = s := DateTimeText.text_of_ofText htext
      constructor
      · intro hok
        cases hok
        rw [Option.map_some, hd]
      · intro hvalue
        cases parsed with
        | none => cases hvalue
        | some e =>
          rw [Option.map_some, Option.some_inj, Json.string.injEq] at hvalue
          rw [hvalue, DateTimeText.ofText_text] at htext
          rw [Option.some_inj.mp htext]
  | some .null | some (.bool _) | some (.number _) | some (.array _) | some (.object _) =>
    cases parsed <;> simp [bound]

/-- Whatever is wrong with a query is said about the query itself or one of the
three fields. -/
theorem path_of_mem_issuesOf {query : Json} {issue : Issue}
    (hissue : issue ∈ issuesOf (safeParse query)) :
    issue.path = [] ∨ issue.path = [js "actor"] ∨ issue.path = [js "from"] ∨
      issue.path = [js "to"] := by
  have hactor {value : Option Json} (hmem : issue ∈ issuesOf (actor value)) :
      issue.path = [js "actor"] := by
    unfold actor at hmem
    split at hmem
    case h_3 => rw [List.mem_singleton.mp hmem]
    all_goals cases hmem
  have hbound {key message : JsString} {value : Option Json}
      (hmem : issue ∈ issuesOf (bound key message value)) : issue.path = [key] := by
    unfold bound at hmem
    split at hmem
    case h_1 => cases hmem
    case h_2 =>
      split at hmem
      · cases hmem
      · rw [List.mem_singleton.mp hmem]
    case h_3 => rw [List.mem_singleton.mp hmem]
  unfold safeParse at hissue
  split at hissue
  case h_1 =>
    rcases mem_issuesOf_combine hissue with hissue | hissue | hissue
    · exact Or.inr (Or.inl (hactor hissue))
    · exact Or.inr (Or.inr (Or.inl (hbound hissue)))
    · exact Or.inr (Or.inr (Or.inr (hbound hissue)))
  case h_2 =>
    rw [List.mem_singleton.mp hissue]
    exact Or.inl rfl

end ExportFilterSchema

/-! ## The query -/

/-- The `where` of `findFiltered`. A bound that is an Invalid Date is `none`. -/
structure LogEntryWhere where
  /-- `where.actor`. -/
  actor : Option JsString
  /-- `where.createdAt.gte`. -/
  gte : Option (Option JsDate)
  /-- `where.createdAt.lte`. -/
  lte : Option (Option JsDate)

namespace LogEntryWhere

/-- The client takes no Invalid Date, and the server no text that it cannot
keep. -/
def isAccepted (w : LogEntryWhere) : Bool :=
  w.actor.all isColumnText && w.gte.all Option.isSome && w.lte.all Option.isSome

/-- The conditions hold of a row. -/
def selects (w : LogEntryWhere) (row : Row) : Bool :=
  w.actor.all (fun actor => row.actor = actor) &&
    w.gte.all (fun bound => bound.any fun d => d.ms ≤ row.createdAt.ms) &&
    w.lte.all (fun bound => bound.any fun d => row.createdAt.ms ≤ d.ms)

end LogEntryWhere

/-- The conditions that `findFiltered` builds. Each `if` asks whether the text is
there and not empty; `rollsOver` is what `new Date` makes of the 31st of a
shorter month. -/
def ExportFilter.toWhere (rollsOver : Bool) (filter : ExportFilter) : LogEntryWhere where
  actor := filter.actor.filter fun s => !s.isEmpty
  gte := (filter.fromBound.filter fun d => !d.text.isEmpty).map fun d => d.fields.newDate rollsOver
  lte := (filter.toBound.filter fun d => !d.text.isEmpty).map fun d => d.fields.newDate rollsOver

/-- Ascending order of `createdAt`. -/
def createdAtLe (first second : Row) : Prop := first.createdAt.ms ≤ second.createdAt.ms

instance : DecidableRel createdAtLe := fun _ _ => Int.decLe _ _

instance : Std.Total createdAtLe := ⟨fun _ _ => Int.le_total _ _⟩

instance : IsTrans Row createdAtLe := ⟨fun _ _ _ => Int.le_trans⟩

/-- What `findFiltered(filters)` may come to while the database is there: the
selected rows by ascending `createdAt`, rows of equal `createdAt` in any order,
or an exception (`none`). -/
def Database.FindFiltered (rollsOver : Bool) (db : Database) (filter : ExportFilter) :
    Option (List Row) → Prop
  | some rows => (filter.toWhere rollsOver).isAccepted = true ∧
      rows.Perm ((db.entries.filter (filter.toWhere rollsOver).selects).map LogEntry.readBack) ∧
      rows.Pairwise createdAtLe
  | none => (filter.toWhere rollsOver).isAccepted = false

/-- What `exportAsJson(filters)` may come to. -/
def ExportAsJson (rollsOver : Bool) (db : Database) (filter : ExportFilter) :
    Option (List Row) → Prop :=
  db.FindFiltered rollsOver filter

/-! ## What the filter asks for -/

namespace ExportFilter

/-- The row has the actor asked for, if one is, and was created between the
instants asked for. -/
def isMatch (filter : ExportFilter) (row : Row) : Bool :=
  filter.actor.all (fun actor => row.actor = actor) &&
    filter.fromBound.all (fun d => d.fields.instant ≤ (row.createdAt.ms : ℚ)) &&
    filter.toBound.all (fun d => (row.createdAt.ms : ℚ) ≤ d.fields.instant)

/-- The supplied bounds are instants: dates of the calendar and times of a day
without leap seconds. -/
structure HasInstants (filter : ExportFilter) : Prop where
  /-- The lower one is. -/
  fromBound : ∀ d, filter.fromBound = some d → d.fields.InRange false
  /-- The upper one is. -/
  toBound : ∀ d, filter.toBound = some d → d.fields.InRange false

variable {filter : ExportFilter} {rollsOver : Bool}

/-- A supplied bound is never falsy. -/
theorem filter_not_isEmpty (bound : Option DateTimeText) :
    (bound.filter fun d => !d.text.isEmpty) = bound := by
  cases bound with
  | none => rfl
  | some d => simp [d.text_ne_nil]

theorem gte_toWhere : (filter.toWhere rollsOver).gte =
    filter.fromBound.map fun d => d.fields.newDate rollsOver := by
  simp only [toWhere, filter_not_isEmpty]

theorem lte_toWhere : (filter.toWhere rollsOver).lte =
    filter.toBound.map fun d => d.fields.newDate rollsOver := by
  simp only [toWhere, filter_not_isEmpty]

/-- The date of a bound that is an instant. -/
theorem exists_newDate {bound : Option DateTimeText}
    (hbound : ∀ d, bound = some d → d.fields.InRange false) {d : DateTimeText}
    (hd : bound = some d) (rollsOver : Bool) :
    ∃ date, d.fields.newDate rollsOver = some date ∧ date.ms = d.fields.timeValue := by
  have hrange := (hbound d hd).of_calendar rollsOver
  obtain ⟨date, hdate⟩ := Option.isSome_iff_exists.mp
    ((DateTime.isSome_newDate_iff d.fitsShape).mpr hrange)
  exact ⟨date, hdate, ((DateTime.newDate_eq_some_iff d.fitsShape).mp hdate).2⟩

/-- A query whose bounds are instants is refused for its actor only. -/
theorem HasInstants.isAccepted_iff (hinstants : filter.HasInstants) (rollsOver : Bool) :
    (filter.toWhere rollsOver).isAccepted = true ↔
      ∀ actor, filter.actor = some actor → isColumnText actor = true := by
  have hbound {bound : Option DateTimeText}
      (hrange : ∀ d, bound = some d → d.fields.InRange false) :
      ((bound.map fun d => d.fields.newDate rollsOver).all Option.isSome) = true := by
    cases hd : bound with
    | none => rfl
    | some d =>
      obtain ⟨date, hdate, _⟩ := exists_newDate hrange hd rollsOver
      simp [hdate]
  rw [LogEntryWhere.isAccepted, gte_toWhere, lte_toWhere, hbound hinstants.fromBound,
    hbound hinstants.toBound, Bool.and_true, Bool.and_true, toWhere]
  cases filter.actor with
  | none => simp
  | some actor =>
    cases actor with
    | nil => simp [isColumnText, wellFormed]
    | cons u s => simp

/-- A row passes the upper bound exactly when it matches it. -/
theorem HasInstants.lte_eq (hinstants : filter.HasInstants) (rollsOver : Bool) (row : Row) :
    ((filter.toWhere rollsOver).lte.all fun bound => bound.any fun d => row.createdAt.ms ≤ d.ms) =
      filter.toBound.all fun d => (row.createdAt.ms : ℚ) ≤ d.fields.instant := by
  rw [lte_toWhere]
  cases hd : filter.toBound with
  | none => rfl
  | some d =>
    obtain ⟨date, hdate, hms⟩ := exists_newDate hinstants.toBound hd rollsOver
    have hle := DateTime.le_instant_iff d.fitsShape row.createdAt.ms
    simp only [Option.map_some, Option.all_some, hdate, Option.any_some, hms]
    exact decide_eq_decide.mpr hle.symm

/-- A row matches the lower bound exactly when it passes it and was not created
at a date that the bound was cut off to. -/
theorem HasInstants.gte_iff (hinstants : filter.HasInstants) (rollsOver : Bool) (row : Row) :
    (filter.fromBound.all fun d => d.fields.instant ≤ (row.createdAt.ms : ℚ)) = true ↔
      ((filter.toWhere rollsOver).gte.all fun bound => bound.any fun d => d.ms ≤ row.createdAt.ms) =
          true ∧
        ∀ d, filter.fromBound = some d → row.createdAt.ms = d.fields.timeValue →
          d.fields.isWhole = true := by
  rw [gte_toWhere]
  cases hd : filter.fromBound with
  | none => simp
  | some d =>
    obtain ⟨date, hdate, hms⟩ := exists_newDate hinstants.fromBound hd rollsOver
    have hle := DateTime.instant_le_iff d.fitsShape row.createdAt.ms
    simp only [Option.map_some, Option.all_some, hdate, Option.any_some, hms, decide_eq_true_eq,
      Option.some_inj, forall_eq', hle]

/-- A row matches the actor exactly when it passes the condition on it and the
actor asked for is not one that is taken for none. -/
theorem actor_iff (filter : ExportFilter) (rollsOver : Bool) (row : Row) :
    (filter.actor.all fun actor => row.actor = actor) = true ↔
      ((filter.toWhere rollsOver).actor.all fun actor => row.actor = actor) = true ∧
        (filter.actor = some [] → row.actor = []) := by
  rw [toWhere]
  cases filter.actor with
  | none => simp
  | some actor =>
    cases actor with
    | nil => simp
    | cons u s => simp

/-- At this row the conditions ask for what the filter asks for: an empty actor is
not taken for none, and the lower bound not for the date it is cut off to. -/
structure IsLiteralAt (filter : ExportFilter) (row : Row) : Prop where
  /-- An empty actor stands for itself. -/
  actor : filter.actor = some [] → row.actor = []
  /-- The date of the row is the lower bound itself if it is the date made of
  it. -/
  fromBound : ∀ d, filter.fromBound = some d → row.createdAt.ms = d.fields.timeValue →
    d.fields.isWhole = true

/-- The rows that match are the selected ones at which the conditions are
literal. -/
theorem HasInstants.isMatch_iff (hinstants : filter.HasInstants) (rollsOver : Bool) (row : Row) :
    filter.isMatch row = true ↔
      (filter.toWhere rollsOver).selects row = true ∧ filter.IsLiteralAt row := by
  rw [isMatch, LogEntryWhere.selects, Bool.and_eq_true, Bool.and_eq_true, Bool.and_eq_true,
    Bool.and_eq_true, filter.actor_iff rollsOver, hinstants.gte_iff rollsOver,
    hinstants.lte_eq rollsOver]
  constructor
  · rintro ⟨⟨⟨hactor, hempty⟩, hlower, hcut⟩, hupper⟩
    exact ⟨⟨⟨hactor, hlower⟩, hupper⟩, hempty, hcut⟩
  · rintro ⟨⟨⟨hactor, hlower⟩, hupper⟩, hempty, hcut⟩
    exact ⟨⟨⟨hactor, hempty⟩, hlower, hcut⟩, hupper⟩

end ExportFilter

/-! ## Exactly the matching entries -/

/-- What it means that the export comes to the matching entries by ascending
`createdAt`, each once. -/
def ExportsExactly (rollsOver : Bool) (db : Database) (filter : ExportFilter) : Prop :=
  (∃ rows, ExportAsJson rollsOver db filter (some rows)) ∧
    ∀ outcome, ExportAsJson rollsOver db filter outcome →
      ∃ rows, outcome = some rows ∧ rows.Pairwise createdAtLe ∧
        rows.Perm ((db.entries.filter filter.isMatch).map LogEntry.readBack)

/-- There is a way to list the selected rows. -/
theorem Database.exists_findFiltered {rollsOver : Bool} {db : Database} {filter : ExportFilter}
    (haccepted : (filter.toWhere rollsOver).isAccepted = true) :
    ∃ rows, db.FindFiltered rollsOver filter (some rows) :=
  ⟨(((db.entries.filter (filter.toWhere rollsOver).selects).map LogEntry.readBack).insertionSort
      createdAtLe), haccepted, List.perm_insertionSort _ _, List.pairwise_insertionSort _ _⟩

/-- The matching rows are among the selected ones. -/
theorem ExportFilter.HasInstants.filter_isMatch {filter : ExportFilter}
    (hinstants : filter.HasInstants) (rollsOver : Bool) (rows : List Row) :
    rows.filter filter.isMatch =
      (rows.filter (filter.toWhere rollsOver).selects).filter filter.isMatch := by
  rw [List.filter_filter]
  apply List.filter_congr
  intro row _
  rw [Bool.eq_iff_iff, Bool.and_eq_true, hinstants.isMatch_iff rollsOver]
  tauto

/-- As many rows match as are selected then. -/
theorem ExportsExactly.accepted_and_length_eq {rollsOver : Bool} {db : Database}
    {filter : ExportFilter} (hexact : ExportsExactly rollsOver db filter) :
    (filter.toWhere rollsOver).isAccepted = true ∧
      (db.entries.filter filter.isMatch).length =
        (db.entries.filter (filter.toWhere rollsOver).selects).length := by
  obtain ⟨⟨rows, hrows⟩, houtcomes⟩ := hexact
  obtain ⟨_, hsome, _, hperm⟩ := houtcomes _ hrows
  cases hsome
  have hlength := (hperm.symm.trans hrows.2.1).length_eq
  rw [List.length_map, List.length_map] at hlength
  exact ⟨hrows.1, hlength⟩

/-- **The export is exact** when the server takes the actor asked for and the
conditions are literal at every row that they select, and not otherwise. -/
theorem exportAsJson_exact_iff (rollsOver : Bool) (db : Database) {filter : ExportFilter}
    (hinstants : filter.HasInstants) :
    ExportsExactly rollsOver db filter ↔
      (∀ actor, filter.actor = some actor → isColumnText actor = true) ∧
        ∀ row ∈ db.entries, (filter.toWhere rollsOver).selects row = true →
          filter.IsLiteralAt row := by
  have hmatching := hinstants.filter_isMatch rollsOver db.entries
  rw [← hinstants.isAccepted_iff rollsOver]
  constructor
  · intro hexact
    obtain ⟨haccepted, hlength⟩ := hexact.accepted_and_length_eq
    refine ⟨haccepted, fun row hrow hselects => ?_⟩
    rw [hmatching, List.length_filter_eq_length_iff] at hlength
    have hmatch := hlength row (List.mem_filter.mpr ⟨hrow, hselects⟩)
    exact ((hinstants.isMatch_iff rollsOver row).mp hmatch).2
  · rintro ⟨haccepted, hliteral⟩
    refine ⟨Database.exists_findFiltered haccepted, fun outcome houtcome => ?_⟩
    cases outcome with
    | none => exact absurd (haccepted.symm.trans houtcome) (by decide)
    | some rows =>
      refine ⟨rows, rfl, houtcome.2.2, ?_⟩
      have hall : ∀ row ∈ db.entries.filter (filter.toWhere rollsOver).selects,
          filter.isMatch row = true := by
        intro row hrow
        obtain ⟨hmem, hselects⟩ := List.mem_filter.mp hrow
        exact (hinstants.isMatch_iff rollsOver row).mpr ⟨hselects, hliteral row hmem hselects⟩
      rw [hmatching, List.filter_eq_self.mpr hall]
      exact houtcome.2.1

/-- A log with one entry, by alice at the epoch. -/
def aliceAtEpoch : Database :=
  ⟨[newRow (js "1") ⟨js "alice", js "login", .null⟩ JsDate.epoch ([], [])], none, none⟩

/-- A lower bound half a millisecond behind the epoch. -/
def halfMillisecond : DateTimeText where
  text := js "1970-01-01T00:00:00.0005Z"
  fields := ⟨1970, 1, 1, 0, 0, 0, js "0005"⟩
  parse_text := by decide

/-- The epoch. -/
def epochText : DateTimeText where
  text := js "1970-01-01T00:00:00Z"
  fields := ⟨1970, 1, 1, 0, 0, 0, []⟩
  parse_text := by decide

theorem exportAsJson_exact_iff_alice :
    ExportsExactly true aliceAtEpoch ⟨some (js "alice"), some epochText, none⟩ := by
  have hinstants : (⟨some (js "alice"), some epochText, none⟩ : ExportFilter).HasInstants := by
    refine ⟨fun d hd => ?_, fun d hd => nomatch hd⟩
    cases hd
    decide
  refine (exportAsJson_exact_iff true aliceAtEpoch hinstants).mpr ⟨fun actor hactor => ?_, ?_⟩
  · cases hactor
    decide
  · refine fun row _ _ => ⟨fun hempty => absurd hempty (by decide), fun d hd _ => ?_⟩
    cases hd
    decide

/-- An empty actor gets alice's entry, and so does a lower bound behind it. -/
theorem not_exportsExactly_alice :
    ¬ (∀ (rollsOver : Bool) (db : Database) (filter : ExportFilter), filter.HasInstants →
        ExportsExactly rollsOver db filter) ∧
      ¬ ExportsExactly false aliceAtEpoch ⟨some [], none, none⟩ ∧
      ¬ ExportsExactly false aliceAtEpoch ⟨none, some halfMillisecond, none⟩ := by
  have hempty : ¬ ExportsExactly false aliceAtEpoch ⟨some [], none, none⟩ := fun hexact =>
    absurd hexact.accepted_and_length_eq.2 (by decide)
  have hcut : ¬ ExportsExactly false aliceAtEpoch ⟨none, some halfMillisecond, none⟩ :=
    fun hexact => absurd hexact.accepted_and_length_eq.2 (by decide +kernel)
  refine ⟨fun hall => hempty (hall _ _ _ ⟨fun d hd => ?_, fun d hd => ?_⟩), hempty, hcut⟩
  · cases hd
  · cases hd

/-! ## Bounds that are no dates -/

/-- What `GET /api/export` may answer. -/
inductive ExportLogs (rollsOver : Bool) (db : Database) (query : Json) : Response → Prop
  | /-- The schema refuses the query. -/
    refused {issues : List Issue} (hparsed : ExportFilterSchema.safeParse query = .error issues) :
      ExportLogs rollsOver db query (Response.error HttpStatus.unprocessableEntity
        (js "Validation Error") (issueDetails issues))
  | /-- The entries are returned. -/
    exported {filter : ExportFilter} {rows : List Row}
      (hparsed : ExportFilterSchema.safeParse query = .ok filter)
      (hrows : ExportAsJson rollsOver db filter (some rows)) :
      ExportLogs rollsOver db query
        (Response.success (.array (rows.map fun row => row.asEntry.toJson.json)))
  | /-- The query throws. -/
    failed {filter : ExportFilter} (hparsed : ExportFilterSchema.safeParse query = .ok filter)
      (hthrown : ExportAsJson rollsOver db filter none) :
      ExportLogs rollsOver db query Response.globalErrorHandler

/-- The keys of the two bounds. -/
def boundKeys : List JsString := [js "from", js "to"]

/-- A bound was supplied that is no text of a date: another type, another shape,
or an Invalid Date. -/
def HasMalformedBound (rollsOver : Bool) (query : Json) : Prop :=
  ∃ key ∈ boundKeys, ∃ value, query.property key = some value ∧
    ∀ d : DateTimeText, value = .string d.text → d.fields.newDate rollsOver = none

/-- What it means that the query does not fail on its dates: the bounds that are
built from what the schema accepts are valid, and malformed bounds are answered
422. -/
def NeverFailsOnDates (rollsOver : Bool) (query : Json) : Prop :=
  (∀ filter, ExportFilterSchema.safeParse query = .ok filter →
      (filter.toWhere rollsOver).gte ≠ some none ∧ (filter.toWhere rollsOver).lte ≠ some none) ∧
    (HasMalformedBound rollsOver query → ∀ db response, ExportLogs rollsOver db query response →
      response.statusCode = HttpStatus.unprocessableEntity)

/-- The numbers of every bound that has the shape of a time stamp are in their
ranges. -/
def BoundsInRange (rollsOver : Bool) (query : Json) : Prop :=
  ∀ key ∈ boundKeys, ∀ d : DateTimeText, query.property key = some (.string d.text) →
    d.fields.InRange rollsOver

/-- The bounds of an accepted query are the texts that were supplied. -/
theorem ExportFilterSchema.bounds_of_safeParse {query : Json} {filter : ExportFilter}
    (haccepted : safeParse query = .ok filter) :
    query.property (js "from") = filter.fromBound.map (fun d => .string d.text) ∧
      query.property (js "to") = filter.toBound.map fun d => .string d.text := by
  unfold safeParse at haccepted
  split at haccepted
  case h_1 =>
    obtain ⟨_, _, _, _, hlower, hupper, rfl⟩ := combine_eq_ok_iff.mp haccepted
    exact ⟨bound_eq_ok_iff.mp hlower, bound_eq_ok_iff.mp hupper⟩
  case h_2 => cases haccepted

/-- A bound is not an Invalid Date exactly when it is in range. -/
theorem newDate_ne_some_none_iff {rollsOver : Bool} {bound : Option DateTimeText} :
    (bound.map fun d => d.fields.newDate rollsOver) ≠ some none ↔
      ∀ d, bound = some d → d.fields.InRange rollsOver := by
  cases bound with
  | none => simp
  | some d =>
    rw [Option.map_some, Ne, Option.some_inj, ← Ne, Option.ne_none_iff_isSome,
      DateTime.isSome_newDate_iff d.fitsShape]
    simp

/-- What the schema accepts for a key is supplied under it. -/
theorem property_eq_some_iff {value : Option Json} {bound : Option DateTimeText}
    (hvalue : value = bound.map fun d => .string d.text) {d : DateTimeText} :
    value = some (.string d.text) ↔ bound = some d := by
  rw [hvalue]
  cases bound with
  | none => simp
  | some e =>
    rw [Option.map_some, Option.some_inj, Option.some_inj, Json.string.injEq]
    exact ⟨DateTimeText.eq_of_text_eq, congrArg DateTimeText.text⟩

/-- The bounds of an accepted query are in range exactly when those that were
built from them are valid. -/
theorem boundsInRange_iff {rollsOver : Bool} {query : Json} {filter : ExportFilter}
    (haccepted : ExportFilterSchema.safeParse query = .ok filter) :
    BoundsInRange rollsOver query ↔
      (filter.toWhere rollsOver).gte ≠ some none ∧ (filter.toWhere rollsOver).lte ≠ some none := by
  obtain ⟨hlower, hupper⟩ := ExportFilterSchema.bounds_of_safeParse haccepted
  rw [ExportFilter.gte_toWhere, ExportFilter.lte_toWhere, newDate_ne_some_none_iff,
    newDate_ne_some_none_iff, BoundsInRange, boundKeys]
  simp only [List.forall_mem_cons, List.not_mem_nil, IsEmpty.forall_iff, implies_true, and_true,
    property_eq_some_iff hlower, property_eq_some_iff hupper]

/-- Malformed bounds that the schema accepts are out of range. -/
theorem not_boundsInRange_of_malformed {rollsOver : Bool} {query : Json} {filter : ExportFilter}
    (haccepted : ExportFilterSchema.safeParse query = .ok filter)
    (hmalformed : HasMalformedBound rollsOver query) : ¬ BoundsInRange rollsOver query := by
  obtain ⟨key, hkey, value, hvalue, hinvalid⟩ := hmalformed
  obtain ⟨hlower, hupper⟩ := ExportFilterSchema.bounds_of_safeParse haccepted
  intro hrange
  have hbound {bound : Option DateTimeText}
      (hsupplied : query.property key = bound.map fun d => .string d.text) : False := by
    cases bound with
    | none =>
      rw [hsupplied] at hvalue
      cases hvalue
    | some d =>
      have htext : value = .string d.text := by
        rw [hsupplied] at hvalue
        exact (Option.some_inj.mp hvalue).symm
      have hvalid := (DateTime.isSome_newDate_iff d.fitsShape).mpr (hrange key hkey d hsupplied)
      rw [hinvalid d htext] at hvalid
      cases hvalid
  rcases List.mem_cons.mp hkey with rfl | hkey
  · exact hbound hlower
  · rw [List.mem_singleton.mp hkey] at hbound
    exact hbound hupper

/-- **An accepted query does not fail on its dates** when the numbers of its
bounds are in their ranges, and not otherwise. -/
theorem neverFailsOnDates_iff (rollsOver : Bool) (query : Json) :
    NeverFailsOnDates rollsOver query ↔
      (∀ filter, ExportFilterSchema.safeParse query ≠ .ok filter) ∨
        BoundsInRange rollsOver query := by
  constructor
  · rintro ⟨hvalid, _⟩
    by_cases haccepted : ∃ filter, ExportFilterSchema.safeParse query = .ok filter
    · obtain ⟨filter, hfilter⟩ := haccepted
      exact Or.inr ((boundsInRange_iff hfilter).mpr (hvalid filter hfilter))
    · exact Or.inl (not_exists.mp haccepted)
  · intro hcondition
    constructor
    · intro filter hfilter
      rcases hcondition with hrefused | hrange
      · exact absurd hfilter (hrefused filter)
      · exact (boundsInRange_iff hfilter).mp hrange
    · intro hmalformed db response hresponse
      have hnone (filter : ExportFilter) : ExportFilterSchema.safeParse query ≠ .ok filter := by
        intro hfilter
        rcases hcondition with hrefused | hrange
        · exact hrefused filter hfilter
        · exact not_boundsInRange_of_malformed hfilter hmalformed hrange
      cases hresponse with
      | refused => rfl
      | exported hfilter => exact absurd hfilter (hnone _)
      | failed hfilter => exact absurd hfilter (hnone _)

/-- A lower bound in the thirteenth month. -/
def thirteenthMonth : DateTimeText where
  text := js "2024-13-01T00:00:00Z"
  fields := ⟨2024, 13, 1, 0, 0, 0, []⟩
  parse_text := by decide

/-- The schema accepts it, no engine makes a date of it, and the request is
answered 500. -/
theorem not_neverFailsOnDates_thirteenthMonth :
    ¬ (∃ rollsOver, NeverFailsOnDates rollsOver
        (.object [(js "from", .string thirteenthMonth.text)])) ∧
      ∀ rollsOver, ExportLogs rollsOver Database.initial
        (.object [(js "from", .string thirteenthMonth.text)]) Response.globalErrorHandler := by
  have hbound : ExportFilterSchema.fromBound (some (.string thirteenthMonth.text)) =
      .ok (some thirteenthMonth) := ExportFilterSchema.bound_eq_ok_iff.mpr rfl
  have haccepted : ExportFilterSchema.safeParse
      (.object [(js "from", .string thirteenthMonth.text)]) =
        .ok ⟨none, some thirteenthMonth, none⟩ :=
    combine_eq_ok_iff.mpr ⟨none, some thirteenthMonth, none, rfl, hbound, rfl, rfl⟩
  have hthrown (rollsOver : Bool) : (ExportFilter.toWhere rollsOver
      ⟨none, some thirteenthMonth, none⟩).isAccepted = false := by
    cases rollsOver <;> decide
  constructor
  · rintro ⟨rollsOver, hvalid, _⟩
    have hbounds := (boundsInRange_iff haccepted).mpr (hvalid _ haccepted)
    have hrange := hbounds (js "from") (by decide) thirteenthMonth rfl
    exact absurd hrange.1.2 (by decide)
  · exact fun rollsOver => ExportLogs.failed haccepted (hthrown rollsOver)

end TamperEvidentLog.Service
