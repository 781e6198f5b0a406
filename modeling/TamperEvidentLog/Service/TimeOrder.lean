/-
# Queries by time

`findLatest`, `findPrevious` and the bounds of an export know nothing of hashes;
they go by `createdAt`. As long as entries are committed in the order of their time
stamps this comes to the same: the row before another one in time is the row that
its `previousHash` names, and what lies between two bounds is one stretch of the
chain. A stretch says where it goes on from, so it can be checked by itself; but
`verifyEntireChain` takes it for a whole chain and accepts it only from the first
entry on.

The time stamps that the service sends are texts. Sent back as the bounds of an
export they stand for the same instants, up to the years that the schema can read.
-/

import TamperEvidentLog.Protocol.Ascending
import TamperEvidentLog.Service.AuditLog
import TamperEvidentLog.Service.Export
import TamperEvidentLog.Service.Pagination

namespace TamperEvidentLog.Service

open TamperEvidentLog.Text TamperEvidentLog.Time TamperEvidentLog.Crypto
open TamperEvidentLog.Protocol

variable {H : Digest}

/-! ## The row before another one -/

/-- Of rows with ascending time stamps the newest is the last. -/
theorem Database.isNewestOf_iff {rows : List Row}
    (hascending : rows.Pairwise fun first second => first.createdAt.ms < second.createdAt.ms)
    {newest : Option Row} : IsNewestOf rows newest ↔ newest = rows.getLast? := by
  cases rows using List.reverseRecOn with
  | nil => cases newest <;> simp [IsNewestOf]
  | append_singleton rows last =>
    have hlater := (List.pairwise_append.mp hascending).2.2
    rw [List.getLast?_concat]
    cases newest with
    | none => exact iff_of_false (by simp [IsNewestOf]) (by simp)
    | some row =>
      rw [Option.some_inj]
      constructor
      · rintro ⟨hrow, hnewest⟩
        rcases List.mem_append.mp hrow with hrow | hrow
        · have hlt := hlater row hrow last (List.mem_singleton_self _)
          exact absurd (hnewest last (by simp)) (not_le.mpr hlt)
        · exact List.mem_singleton.mp hrow
      · rintro rfl
        refine ⟨by simp, fun other hother => ?_⟩
        rcases List.mem_append.mp hother with hother | hother
        · exact (hlater other hother row (List.mem_singleton_self _)).le
        · rw [List.mem_singleton.mp hother]

namespace World

theorem Ascending.log_ascending {w : World} (hw : w.Ascending H) :
    w.log.Pairwise fun first second => first.createdAt.ms < second.createdAt.ms :=
  List.pairwise_map.mpr hw.ascending

/-- A row of the log names the end of what is before it. -/
theorem previousHash_of_log {w : World} (hconsistent : w.database.Consistent H) {i : ℕ}
    {entry : Row} (hentry : w.log[i]? = some entry) :
    entry.previousHash = some (endOf (w.log.take i)) := by
  rw [log, List.getElem?_map, Option.map_eq_some_iff] at hentry
  obtain ⟨row, hrow, rfl⟩ := hentry
  obtain ⟨hi, hget⟩ := List.getElem?_eq_some_iff.mp hrow
  have hlinked := hconsistent.valid.linked
  rw [← List.take_append_drop i w.database.entries, List.drop_eq_getElem_cons hi, hget,
    List.map_append, List.map_cons, Linkage.linked_append, ← endOf_eq_tipOf] at hlinked
  have hlink : row.asEntry.resolvedPreviousHash = endOf (w.database.entries.take i) :=
    hlinked.2.1
  have hname := hconsistent.previousHash_eq (List.mem_of_getElem? hrow)
  rw [log, ← List.map_take, endOf_map_readBack, ← hlink]
  exact hname

/-- **Before in time is before in the chain.** While entries are appended in the
order of their time stamps, `findLatest` returns the last entry, and `findPrevious`
at the time of an entry returns the one before it, whose hash the entry names. -/
theorem previous_in_time {now : JsDate} {events : List Event} {w : World}
    (hrun : Run (step H) AppendsInOrder (start now) events w) :
    (∀ latest, w.database.FindLatest latest ↔ latest = w.log.getLast?) ∧
      ∀ i entry, w.log[i]? = some entry →
        (∀ previous, w.database.FindPrevious entry.createdAt previous ↔
          previous = (w.log.take i).getLast?) ∧
        entry.previousHash = some (endOf (w.log.take i)) := by
  have hw := ((ascending_start now).of_run hrun).1
  refine ⟨fun latest => Database.isNewestOf_iff hw.log_ascending, fun i entry hentry => ?_⟩
  refine ⟨fun previous => ?_, previousHash_of_log hw.consistent hentry⟩
  have hbefore : (w.log.filter fun row => row.createdAt.ms < entry.createdAt.ms) = w.log.take i :=
    filter_lt_key hw.log_ascending hentry
  rw [Database.FindPrevious, ← log, hbefore]
  exact Database.isNewestOf_iff (hw.log_ascending.sublist (List.take_sublist _ _))

/-- Two entries at different times. -/
theorem previous_in_time_of_two :
    ∃ w events, Run (step sha256) AppendsInOrder (start JsDate.epoch) events w ∧
      w.log.length = 2 ∧ ∀ entry, w.log[1]? = some entry → ∀ previous,
        w.database.FindPrevious entry.createdAt previous →
          previous = w.log.head? ∧
          entry.previousHash = some (previous.elim genesisPreviousHash LogEntry.currentHash) := by
  let dto : CreateLogDto := ⟨js "alice", js "login", .null⟩
  have hexecute : (execute (step sha256) AppendsInOrder (start JsDate.epoch)
      ([.createLogEntry 0 dto] ++ appendEvents 0 (js "1") ++
        [.tick nextMillisecond, .createLogEntry 1 dto] ++ appendEvents 1 (js "2"))).any
      (fun w => decide (w.log.length = 2)) = true := by
    decide +kernel
  obtain ⟨w, hrun, hcheck⟩ := Run.exists_of_execute hexecute
  have htwo : w.log.length = 2 := of_decide_eq_true hcheck
  refine ⟨w, _, hrun, htwo, fun entry hentry previous hprevious => ?_⟩
  obtain ⟨hexact, hname⟩ := (previous_in_time hrun).2 1 entry hentry
  obtain ⟨first, second, hlog⟩ := List.length_eq_two.mp htwo
  rw [hname, (hexact previous).mp hprevious, hlog]
  exact ⟨rfl, rfl⟩

end World

/-! ## Between two bounds -/

namespace LogEntryWhere

/-- Without a condition on the actor the selected times have no gaps. -/
theorem convex_selects {w : LogEntryWhere} (hactor : w.actor = none) :
    Convex (fun row : Row => row.createdAt.ms) w.selects := by
  intro x y z hxy hyz hx hz
  simp only [selects, hactor, Option.all_none, Bool.true_and, Bool.and_eq_true] at hx hz ⊢
  constructor
  · cases hgte : w.gte with
    | none => rfl
    | some bound =>
      have hlow := hx.1
      rw [hgte, Option.all_some, Option.any_eq_true] at hlow
      obtain ⟨d, hd, hle⟩ := hlow
      rw [Option.all_some, Option.any_eq_true]
      exact ⟨d, hd, decide_eq_true ((of_decide_eq_true hle).trans hxy)⟩
  · cases hlte : w.lte with
    | none => rfl
    | some bound =>
      have hhigh := hz.2
      rw [hlte, Option.all_some, Option.any_eq_true] at hhigh
      obtain ⟨d, hd, hle⟩ := hhigh
      rw [Option.all_some, Option.any_eq_true]
      exact ⟨d, hd, decide_eq_true (hyz.trans (of_decide_eq_true hle))⟩

end LogEntryWhere

namespace World

/-- Ascending time stamps leave `findFiltered` no choice. -/
theorem Ascending.eq_of_findFiltered {w : World} (hw : w.Ascending H) {rollsOver : Bool}
    {filter : ExportFilter} {rows : List Row}
    (hrows : w.database.FindFiltered rollsOver filter (some rows)) :
    rows = w.log.filter (filter.toWhere rollsOver).selects := by
  obtain ⟨_, hperm, hsorted⟩ := hrows
  have hselected : (⟨w.database.entries.filter (filter.toWhere rollsOver).selects, none, none⟩ :
      Database).FindAllOrdered rows := ⟨hperm, hsorted⟩
  rw [Database.eq_of_findAllOrdered_of_ascending (hw.ascending.filter _) hselected, log,
    List.filter_map]
  rfl

/-- A stretch of a valid chain verifies by itself exactly if it starts the chain
or is empty. -/
theorem isSuccess_stretch_iff {before rows after : List Row}
    (hvalid : ValidChain H ((before ++ rows ++ after).map LogEntry.asEntry)) :
    (verifyIntegrity H rows).isSuccess = true ↔ before = [] ∨ rows = [] := by
  rw [verifyIntegrity, isSuccess_verifyEntireChain_iff]
  rw [List.map_append, List.map_append] at hvalid
  have hbefore := hvalid.of_append
  constructor
  · intro hrows
    by_contra hne
    rw [not_or] at hne
    obtain ⟨first, rest, rfl⟩ := List.exists_cons_of_ne_nil hne.2
    -- Its first entry names the end of what is before it, which is a digest.
    have hlink := (Linkage.linked_append.mp hbefore.linked).2.1
    rw [← endOf_eq_tipOf, hrows.linked.1] at hlink
    have hlast := List.getLast_mem hne.1
    have hverified := hbefore.verified _
      (List.mem_append_left _ (List.mem_map_of_mem hlast))
    refine currentHash_ne_genesis hverified ?_
    rw [hlink, endOf, List.getLast?_eq_some_getLast hne.1]
    rfl
  · rintro (rfl | rfl)
    · exact hbefore
    · exact validChain_nil

/-- **A time window is a stretch of the chain.** While entries are committed in the
order of their time stamps, an export that does not ask for an actor returns
neighbours: they go on from the end of what is before them, each carries its own
digest, and together they pass for a chain exactly if they start with the first
entry or are none at all. -/
theorem window_is_stretch {now : JsDate} {events : List Event} {w : World}
    (hrun : Run (step H) (fun w e => PlainUse w e ∧ CommitsInOrder w e) (start now) events w)
    {rollsOver : Bool} {filter : ExportFilter} (hactor : ∀ actor ∈ filter.actor, actor = [])
    {rows : List Row} (hrows : ExportAsJson rollsOver w.database filter (some rows)) :
    ∃ before after, w.log = before ++ rows ++ after ∧
      chain.Linked (endOf before) (rows.map LogEntry.asEntry) ∧
      (∀ row ∈ rows, verificationStatus H row.asEntry = true) ∧
      ((verifyIntegrity H rows).isSuccess = true ↔ before = [] ∨ rows = []) := by
  have horderly : w.Orderly H := hrun.invariant (orderly_start now)
    fun _ _ _ hallowed hstep hw => hw.of_step hallowed.1 hallowed.2 hstep
  have hw : w.Ascending H := ⟨horderly.consistent, horderly.ordered.ascending⟩
  have hnone : (filter.toWhere rollsOver).actor = none := by
    rw [ExportFilter.toWhere, Option.filter_eq_none_iff]
    intro actor hmem
    simp [hactor actor hmem]
  have hinfix := filter_isInfix_of_convex (LogEntryWhere.convex_selects hnone)
    (hw.log_ascending.imp fun hlt => hlt.le)
  rw [← hw.eq_of_findFiltered hrows] at hinfix
  obtain ⟨before, after, hlog⟩ := hinfix
  have hvalid : ValidChain H ((before ++ rows ++ after).map LogEntry.asEntry) := by
    rw [hlog]
    exact horderly.consistent.valid.readBack horderly.ordered.payloads
  refine ⟨before, after, hlog.symm, ?_, fun row hrow => ?_, isSuccess_stretch_iff hvalid⟩
  · have hlinked := hvalid.linked
    rw [List.map_append, List.map_append, Linkage.linked_append, Linkage.linked_append,
      ← endOf_eq_tipOf] at hlinked
    exact hlinked.1.2
  · refine hvalid.verified _ (List.mem_map_of_mem ?_)
    exact List.mem_append_left _ (List.mem_append_right _ hrow)

/-- One millisecond behind the epoch. -/
def nextMillisecondText : DateTimeText where
  text := js "1970-01-01T00:00:00.001Z"
  fields := ⟨1970, 1, 1, 0, 0, 0, js "001"⟩
  parse_text := by decide

/-- The second of two entries by itself does not pass for a chain. -/
theorem window_is_stretch_second :
    ∃ w events rows, Run (step sha256) (fun w e => PlainUse w e ∧ CommitsInOrder w e)
        (start JsDate.epoch) events w ∧
      ExportAsJson true w.database ⟨none, some nextMillisecondText, none⟩ (some rows) ∧
      (verifyIntegrity sha256 rows).isSuccess = false ∧
      ∃ before after, w.log = before ++ rows ++ after ∧ before ≠ [] ∧ rows ≠ [] := by
  let dto : CreateLogDto := ⟨js "alice", js "login", .null⟩
  let filter : ExportFilter := ⟨none, some nextMillisecondText, none⟩
  have hexecute : (execute (step sha256) (fun w e => PlainUse w e ∧ CommitsInOrder w e)
      (start JsDate.epoch) ([.createLogEntry 0 dto] ++ appendEvents 0 (js "1") ++
        [.tick nextMillisecond, .createLogEntry 1 dto] ++ appendEvents 1 (js "2"))).any
      (fun w => decide ((w.log.filter (filter.toWhere true).selects).length = 1 ∧
        (verifyIntegrity sha256 (w.log.filter (filter.toWhere true).selects)).isSuccess =
          false)) = true := by
    decide +kernel
  obtain ⟨w, hrun, hcheck⟩ := Run.exists_of_execute hexecute
  obtain ⟨hone, hfails⟩ := of_decide_eq_true hcheck
  have horderly : w.Orderly sha256 := hrun.invariant (orderly_start _)
    fun _ _ _ hallowed hstep hw => hw.of_step hallowed.1 hallowed.2 hstep
  have hw : w.Ascending sha256 := ⟨horderly.consistent, horderly.ordered.ascending⟩
  obtain ⟨rows, hrows⟩ : ∃ rows, w.database.FindFiltered true filter (some rows) :=
    Database.exists_findFiltered (by decide)
  rw [← hw.eq_of_findFiltered hrows] at hone hfails
  obtain ⟨before, after, hlog, _, _, hiff⟩ :=
    window_is_stretch hrun (by simp [filter]) hrows
  rw [hfails] at hiff
  have hne := not_or.mp (mt hiff.mpr Bool.false_ne_true)
  exact ⟨w, _, rows, hrun, hrows, hfails, before, after, hlog, hne⟩

end World

/-! ## The time stamps of entries as bounds -/

/-- The text of a date whose year has four digits, as a bound. -/
theorem ofText_toISOString {d : JsDate} (hyear : 0 ≤ d.civil.year ∧ d.civil.year ≤ 9999)
    (rollsOver : Bool) :
    ∃ bound, DateTimeText.ofText d.toISOString = some bound ∧
      bound.fields.newDate rollsOver = some d := by
  obtain ⟨hparse, hdate⟩ := DateTime.parse_toISOString hyear rollsOver
  let bound : DateTimeText := ⟨d.toISOString, _, hparse⟩
  exact ⟨bound, bound.ofText_text, hdate⟩

/-- The query for an export between two time stamps. -/
def betweenQuery (first last : Row) : Json :=
  .object [(js "from", .string first.createdAt.toISOString),
    (js "to", .string last.createdAt.toISOString)]

namespace World

/-- **Time stamps come back as bounds.** While entries are appended in the order of
their time stamps, an export from the time stamp of one entry to that of another,
as they are printed, is accepted and returns exactly the entries from the one to
the other. -/
theorem between_printed_stamps {now : JsDate} {events : List Event} {w : World}
    (hrun : Run (step H) AppendsInOrder (start now) events w) {i j : ℕ} (hij : i ≤ j)
    {first last : Row} (hfirst : w.log[i]? = some first) (hlast : w.log[j]? = some last)
    (hyears : ∀ row ∈ [first, last], 0 ≤ row.createdAt.civil.year ∧ row.createdAt.civil.year ≤ 9999)
    (rollsOver : Bool) :
    ∃ filter, ExportFilterSchema.safeParse (betweenQuery first last) = .ok filter ∧
      ∀ outcome, ExportAsJson rollsOver w.database filter outcome ↔
        outcome = some ((w.log.drop i).take (j + 1 - i)) := by
  have hw := ((ascending_start now).of_run hrun).1
  obtain ⟨lower, hlower, hlower_date⟩ :=
    ofText_toISOString (hyears first (by simp)) rollsOver
  obtain ⟨upper, hupper, hupper_date⟩ :=
    ofText_toISOString (hyears last (by simp)) rollsOver
  have haccepted : ((ExportFilter.mk none (some lower) (some upper)).toWhere rollsOver).isAccepted =
      true := by
    rw [LogEntryWhere.isAccepted, ExportFilter.gte_toWhere, ExportFilter.lte_toWhere,
      Option.map_some, Option.map_some, hlower_date, hupper_date]
    rfl
  have hselects : w.log.filter
      ((ExportFilter.mk none (some lower) (some upper)).toWhere rollsOver).selects =
        (w.log.drop i).take (j + 1 - i) := by
    rw [← filter_between_keys hw.log_ascending hij hfirst hlast]
    apply List.filter_congr
    intro row _
    rw [LogEntryWhere.selects, ExportFilter.gte_toWhere, ExportFilter.lte_toWhere, Option.map_some,
      Option.map_some, hlower_date, hupper_date]
    simp [ExportFilter.toWhere]
  refine ⟨⟨none, some lower, some upper⟩, ?_, fun outcome => ⟨fun houtcome => ?_, ?_⟩⟩
  · refine combine_eq_ok_iff.mpr ⟨none, some lower, some upper, rfl, ?_, ?_, rfl⟩
    · refine ExportFilterSchema.bound_eq_ok_iff.mpr ?_
      rw [Option.map_some, DateTimeText.text_of_ofText hlower]
      rfl
    · refine ExportFilterSchema.bound_eq_ok_iff.mpr ?_
      rw [Option.map_some, DateTimeText.text_of_ofText hupper]
      rfl
  · cases outcome with
    | none =>
      rw [ExportAsJson, Database.FindFiltered, haccepted] at houtcome
      cases houtcome
    | some rows => rw [hw.eq_of_findFiltered houtcome, hselects]
  · rintro rfl
    obtain ⟨rows, hrows⟩ : ∃ rows, w.database.FindFiltered rollsOver _ (some rows) :=
      Database.exists_findFiltered haccepted
    rw [← hselects, ← hw.eq_of_findFiltered hrows]
    exact hrows

/-- The second of two entries, asked for by its own time stamp. -/
theorem between_printed_stamps_second :
    ∃ w events first second, Run (step sha256) AppendsInOrder (start JsDate.epoch) events w ∧
      w.log = [first, second] ∧
      ∃ filter, ExportFilterSchema.safeParse (betweenQuery second second) = .ok filter ∧
        ∀ outcome, ExportAsJson false w.database filter outcome ↔ outcome = some [second] := by
  let dto : CreateLogDto := ⟨js "alice", js "login", .null⟩
  have hexecute : (execute (step sha256) AppendsInOrder (start JsDate.epoch)
      ([.createLogEntry 0 dto] ++ appendEvents 0 (js "1") ++
        [.tick nextMillisecond, .createLogEntry 1 dto] ++ appendEvents 1 (js "2"))).any
      (fun w => decide (w.log.length = 2 ∧ ∀ row ∈ w.log,
        0 ≤ row.createdAt.civil.year ∧ row.createdAt.civil.year ≤ 9999)) = true := by
    decide +kernel
  obtain ⟨w, hrun, hcheck⟩ := Run.exists_of_execute hexecute
  obtain ⟨htwo, hyears⟩ := of_decide_eq_true hcheck
  obtain ⟨first, second, hlog⟩ := List.length_eq_two.mp htwo
  have hsecond : w.log[1]? = some second := by rw [hlog]; rfl
  have hyear := hyears second (by simp [hlog])
  have hbetween := between_printed_stamps hrun (le_refl 1) hsecond hsecond
    (by simpa using hyear) false
  rw [hlog] at hbetween
  exact ⟨w, _, first, second, hrun, hlog, hbetween⟩

end World

end TamperEvidentLog.Service
