/-
# The log page by page

`findAll` takes one page of the rows, and `buildPaginationMeta` reports how many
pages there are. The two agree: up to that number the pages are the rows, and
behind it there is nothing.

`getAllLogEntries` asks for one page of the rows by ascending `createdAt`. That
time is sampled before the lock is requested, so an entry can be committed with
a time stamp that is not the latest, and then it is inserted among rows that
were listed before.

In a run that commits entries in the order of their time stamps, pages that were
full stay as they are, and a client that walks the pages sees what was committed
before it started exactly once.
-/

import TamperEvidentLog.Protocol.Paging
import TamperEvidentLog.Service.ChainIntegrity

namespace TamperEvidentLog.Service

open TamperEvidentLog.Text TamperEvidentLog.Time TamperEvidentLog.Crypto
open TamperEvidentLog.Protocol

variable {H : Digest}

/-! ## Queries -/

/-- `parseInt(...) || fallback`, where `none` is `NaN`. -/
def parsedOr (parsed : Option ℤ) (fallback : ℤ) : ℤ :=
  match parsed with
  | none => fallback
  | some n => if n = 0 then fallback else n

/-- `parsePagination` in exact arithmetic, given the integers that `parseInt`
reads. -/
def parsePagination (page pageSize : Option ℤ) : ℕ × ℕ :=
  ((max 1 (parsedOr page 1)).toNat, (min 100 (max 1 (parsedOr pageSize 20))).toNat)

/-- A page is counted from 1 and has between 1 and 100 rows. -/
theorem parsePagination_bounds (page pageSize : Option ℤ) :
    1 ≤ (parsePagination page pageSize).1 ∧ 1 ≤ (parsePagination page pageSize).2 ∧
      (parsePagination page pageSize).2 ≤ 100 := by
  rw [parsePagination]
  omega

namespace Database

/-- What `findAll(page, pageSize)` may return. -/
def FindAll (db : Database) (page pageSize : ℕ) (rows : List Row) : Prop :=
  ∃ all, db.FindAllOrdered all ∧ rows = (all.drop ((page - 1) * pageSize)).take pageSize

/-- `count()`. -/
def count (db : Database) : ℕ := db.entries.length

end Database

/-- What `getAllLogEntries` returns. -/
structure LogPage where
  /-- The rows of the page. -/
  data : List Row
  /-- `meta.page`. -/
  page : ℕ
  /-- `meta.pageSize`. -/
  pageSize : ℕ
  /-- `meta.total`. -/
  total : ℕ

/-- The meta object of a list response. -/
structure PaginationMeta where
  /-- Counted from 1. -/
  page : ℕ
  /-- Rows on a page. -/
  pageSize : ℕ
  /-- Rows on all pages. -/
  total : ℕ
  /-- The number of pages. -/
  totalPages : ℕ
  deriving DecidableEq

/-- `buildPaginationMeta(page, pageSize, total)` in exact arithmetic, for pages
that have room for a row: there `|| 0` only replaces 0. -/
def buildPaginationMeta (page pageSize total : ℕ) : PaginationMeta :=
  ⟨page, pageSize, total, ⌈(total : ℚ) / pageSize⌉₊⟩

/-- What `getLogs` adds to a page. -/
def LogPage.paginationMeta (result : LogPage) : PaginationMeta :=
  buildPaginationMeta result.page result.pageSize result.total

/-- What `getAllLogEntries(page, pageSize)` may return when its two queries meet
these two states of the database. -/
def GetAllLogEntries (listed counted : Database) (page pageSize : ℕ) (result : LogPage) : Prop :=
  listed.FindAll page pageSize result.data ∧ result.page = page ∧ result.pageSize = pageSize ∧
    result.total = counted.count

/-! ## The number of pages -/

section Windows

variable {α : Type*}

/-- What `skip` and `take` of `findAll(page, pageSize)` select. -/
def window (page pageSize : ℕ) (rows : List α) : List α :=
  (rows.drop ((page - 1) * pageSize)).take pageSize

theorem Database.findAll_iff {db : Database} {page pageSize : ℕ} {rows : List Row} :
    db.FindAll page pageSize rows ↔
      ∃ all, db.FindAllOrdered all ∧ rows = window page pageSize all :=
  Iff.rfl

/-- Pages are counted from 1. -/
theorem window_eq_pageAt (page pageSize : ℕ) (rows : List α) :
    window page pageSize rows = pageAt pageSize (page - 1) rows := rfl

theorem isPageCount_totalPages (page : ℕ) {pageSize : ℕ} (hpageSize : 1 ≤ pageSize)
    (rows : List α) :
    IsPageCount pageSize (buildPaginationMeta page pageSize rows.length).totalPages rows := by
  intro pages
  have hpos : (0 : ℚ) < pageSize := Nat.cast_pos.mpr hpageSize
  rw [buildPaginationMeta, Nat.ceil_le, div_le_iff₀ hpos]
  exact_mod_cast Iff.rfl

/-- What it means that the number of pages agrees with what is on the pages of
these rows. -/
structure PaginationMeta.Agrees (reported : PaginationMeta) (rows : List α) : Prop where
  /-- The pages up to this number are the rows, in order. -/
  flatten_eq : ((List.range' 1 reported.totalPages).map fun page =>
    window page reported.pageSize rows).flatten = rows
  /-- None of them is empty. -/
  ne_nil : ∀ page, 1 ≤ page → page ≤ reported.totalPages →
    window page reported.pageSize rows ≠ []
  /-- All but the last are full. -/
  length_eq : ∀ page, 1 ≤ page → page < reported.totalPages →
    (window page reported.pageSize rows).length = reported.pageSize
  /-- Behind them there is nothing. -/
  eq_nil : ∀ page, reported.totalPages < page → window page reported.pageSize rows = []
  /-- There are none exactly if there are no rows. -/
  totalPages_eq_zero_iff : reported.totalPages = 0 ↔ rows.length = 0

/-- The pages that are counted from 1. -/
theorem map_window_range' (count pageSize : ℕ) (rows : List α) :
    (List.range' 1 count).map (fun page => window page pageSize rows) =
      (List.range count).map fun index => pageAt pageSize index rows := by
  rw [List.range'_eq_map_range, List.map_map]
  apply List.map_congr_left
  intro index _
  rw [Function.comp_apply, window_eq_pageAt, Nat.add_sub_cancel_left]

/-- **The number of pages agrees with the pages.** -/
theorem buildPaginationMeta_agrees (page : ℕ) {pageSize : ℕ} (hpageSize : 1 ≤ pageSize)
    (rows : List α) : (buildPaginationMeta page pageSize rows.length).Agrees rows := by
  have hcount := isPageCount_totalPages page hpageSize rows
  constructor
  · rw [map_window_range']
    exact hcount.flatten_eq
  · intro listed hone hle hnil
    have hbehind := (hcount.pageAt_eq_nil_iff hpageSize).mp hnil
    omega
  · intro listed hone hlt
    exact hcount.length_pageAt_eq (by omega)
  · intro listed hlt
    exact (hcount.pageAt_eq_nil_iff hpageSize).mpr (Nat.le_sub_one_of_lt hlt)
  · rw [hcount.eq_zero_iff, List.length_eq_zero_iff]

theorem buildPaginationMeta_agrees_three :
    (buildPaginationMeta 1 2 3).totalPages = 2 ∧
      (buildPaginationMeta 1 2 3).Agrees [js "1", js "2", js "3"] :=
  ⟨by decide +kernel, buildPaginationMeta_agrees 1 (by decide) [js "1", js "2", js "3"]⟩

end Windows

/-! ## Growth -/

namespace World

/-- Entries were added behind those that were there. -/
theorem entries_isPrefix_of_step {w t : World} {e : Event} (hallowed : NoTampering w e)
    (hstep : w.step H e = some t) : w.database.entries <+: t.database.entries := by
  rcases entries_of_step hstep with hsame | ⟨_, _, _, _, created, _, hentries⟩ | ⟨edit, rfl, _⟩
  · rw [hsame]
  · rw [hentries]
    exact List.prefix_append ..
  · exact absurd hallowed Bool.true_eq_false.mp

/-- What a run keeps true that commits entries in the order of their time
stamps. -/
structure Ascending (H : Digest) (w : World) : Prop where
  /-- The database is consistent. -/
  consistent : w.database.Consistent H
  /-- Later entries have later time stamps. -/
  ascending : w.database.entries.Pairwise
    fun first second => first.createdAt.ms < second.createdAt.ms

theorem ascending_start (now : JsDate) : (start now).Ascending H :=
  ⟨Database.consistent_initial, List.Pairwise.nil⟩

theorem Ascending.of_step {w t : World} {e : Event} (hw : w.Ascending H)
    (hallowed : NoTampering w e) (horder : CommitsInOrder w e) (hstep : w.step H e = some t) :
    t.Ascending H :=
  ⟨consistent_of_step hw.consistent hallowed hstep,
    ascending_of_step hw.consistent hw.ascending hallowed horder hstep⟩

/-- Entries are committed in the order of their time stamps, and by the service
only. -/
def AppendsInOrder (w : World) (e : Event) : Prop := NoTampering w e ∧ CommitsInOrder w e

instance (w : World) (e : Event) : Decidable (w.AppendsInOrder e) :=
  inferInstanceAs (Decidable (_ ∧ _))

/-- Such a run adds entries at the end. -/
theorem Ascending.of_run {w t : World} {events : List Event} (hw : w.Ascending H)
    (hrun : Run (step H) AppendsInOrder w events t) :
    t.Ascending H ∧ w.database.entries <+: t.database.entries := by
  induction hrun with
  | nil => exact ⟨hw, List.prefix_rfl⟩
  | snoc _ hallowed hstep ih =>
    exact ⟨ih.1.of_step hallowed.1 hallowed.2 hstep,
      ih.2.trans (entries_isPrefix_of_step hallowed.1 hstep)⟩

/-- In such a run a page is a page of the committed rows. -/
theorem Ascending.data_eq {w : World} (hw : w.Ascending H) {counted : Database}
    {page pageSize : ℕ} {result : LogPage}
    (hresult : GetAllLogEntries w.database counted page pageSize result) :
    result.data = pageAt pageSize (page - 1) (w.database.entries.map LogEntry.readBack) := by
  obtain ⟨all, hall, hdata⟩ := hresult.1
  rw [hdata, Database.eq_of_findAllOrdered_of_ascending hw.ascending hall]
  rfl

/-- As many pages as are reported hold the committed rows. -/
theorem Ascending.flatten_data {w : World} (hw : w.Ascending H) {pageSize : ℕ}
    (hpageSize : 1 ≤ pageSize) {results : ℕ → LogPage}
    (hresults : ∀ page, GetAllLogEntries w.database w.database page pageSize (results page))
    (current : ℕ) :
    ((List.range' 1 (results current).paginationMeta.totalPages).map
      fun page => (results page).data).flatten = w.database.entries.map LogEntry.readBack := by
  obtain ⟨_, hpage, hsize, htotal⟩ := hresults current
  have hdata : (fun page => (results page).data) = fun page =>
      window page pageSize (w.database.entries.map LogEntry.readBack) :=
    funext fun page => hw.data_eq (hresults page)
  have hmeta : (results current).paginationMeta = buildPaginationMeta current pageSize
      (w.database.entries.map LogEntry.readBack).length := by
    rw [LogPage.paginationMeta, hpage, hsize, htotal, List.length_map, Database.count]
  rw [hdata, hmeta, map_window_range']
  exact (isPageCount_totalPages current hpageSize _).flatten_eq

/-- Committed rows are told apart by their time stamps. -/
theorem Ascending.nodup {w : World} (hw : w.Ascending H) :
    (w.database.entries.map LogEntry.readBack).Nodup := by
  rw [List.Nodup, List.pairwise_map]
  apply hw.ascending.imp
  intro first second hlt hequal
  have hstamp : first.readBack.createdAt = second.readBack.createdAt :=
    congrArg LogEntry.createdAt hequal
  exact hlt.ne (congrArg JsDate.ms hstamp)

/-! ## Walking the pages -/

/-- A client asks for one page after another while the log goes on. -/
inductive Walk (H : Digest) (pageSize : ℕ) : ℕ → World → List LogPage → World → Prop
  | /-- It stops. -/
    done {page : ℕ} {w : World} : Walk H pageSize page w [] w
  | /-- It asks for a page and for more behind it. -/
    read {page : ℕ} {w s t : World} {events : List Event} {counted : Database} {result : LogPage}
      {later : List LogPage} (hrun : Run (step H) AppendsInOrder w events s)
      (hresult : GetAllLogEntries s.database counted page pageSize result)
      (hlater : Walk H pageSize (page + 1) s later t) :
      Walk H pageSize page w (result :: later) t

/-- The pages of a walk are pages of lists that extend what was there at its
start. -/
theorem Walk.exists_snapshots {pageSize page : ℕ} {w t : World} {results : List LogPage}
    (hwalk : Walk H pageSize page w results t) (hw : w.Ascending H) (hpage : 1 ≤ page) :
    ∃ snapshots : List (List Row), snapshots.length = results.length ∧
      (∀ rows ∈ snapshots, w.database.entries.map LogEntry.readBack <+: rows ∧ rows.Nodup) ∧
      results.map LogPage.data = readPages pageSize (page - 1) snapshots := by
  induction hwalk with
  | done => exact ⟨[], rfl, by simp, rfl⟩
  | @read page w s t events counted result later hrun hresult hlater ih =>
    obtain ⟨hs, hgrown⟩ := hw.of_run hrun
    obtain ⟨snapshots, hlength, hsnapshots, hpages⟩ := ih hs (Nat.le_add_left 1 page)
    refine ⟨s.database.entries.map LogEntry.readBack :: snapshots, by simp [hlength], ?_, ?_⟩
    · intro rows hrows
      have hgrown' := hgrown.map LogEntry.readBack
      rcases List.mem_cons.mp hrows with rfl | hrows
      · exact ⟨hgrown', hs.nodup⟩
      · exact ⟨hgrown'.trans (hsnapshots rows hrows).1, (hsnapshots rows hrows).2⟩
    · rw [List.map_cons, hpages, hs.data_eq hresult, readPages, Nat.add_sub_cancel,
        Nat.sub_add_cancel hpage]

/-- What it means that pages that were full never change, from this state on. -/
def FullPagesStable (H : Digest) (allowed : World → Event → Prop) (s : World) : Prop :=
  ∀ (events : List Event) (t : World), Run (step H) allowed s events t →
    ∀ (query : Option ℤ × Option ℤ) (counted counted' : Database) (first later : LogPage),
      GetAllLogEntries s.database counted (parsePagination query.1 query.2).1
        (parsePagination query.1 query.2).2 first →
      first.data.length = (parsePagination query.1 query.2).2 →
      GetAllLogEntries t.database counted' (parsePagination query.1 query.2).1
        (parsePagination query.1 query.2).2 later →
      later.data = first.data

/-- What it means that a client that walks all pages from this state on neither
misses nor repeats what was committed before. -/
def WalksComplete (H : Digest) (s : World) : Prop :=
  ∀ (pageSize : ℕ) (results : List LogPage) (t : World), Walk H pageSize 1 s results t →
    s.database.entries.length ≤ results.length * pageSize →
    ∃ added : List Row,
      (results.map LogPage.data).flatten =
        s.database.entries.map LogEntry.readBack ++ added ∧
      ∀ row ∈ added, row ∉ s.database.entries.map LogEntry.readBack

/-- **Full pages never change** in a run that commits entries in the order of
their time stamps, and walking the pages sees every entry once. -/
theorem full_pages_stable {now : JsDate} {events : List Event} {s : World}
    (hrun : Run (step H) AppendsInOrder (start now) events s) :
    FullPagesStable H AppendsInOrder s ∧ WalksComplete H s := by
  have hs : s.Ascending H := ((ascending_start now).of_run hrun).1
  constructor
  · intro events' t hlater query counted counted' first later hfirst hfull hlast
    obtain ⟨ht, hgrown⟩ := hs.of_run hlater
    rw [hs.data_eq hfirst] at hfull ⊢
    rw [ht.data_eq hlast]
    exact pageAt_eq_of_isPrefix (hgrown.map LogEntry.readBack) hfull
  · intro pageSize results t hwalk hcover
    obtain ⟨snapshots, hlength, hsnapshots, hpages⟩ := hwalk.exists_snapshots hs le_rfl
    rw [hpages]
    have hcover' : (s.database.entries.map LogEntry.readBack).length ≤
        (0 + snapshots.length) * pageSize := by
      rwa [List.length_map, Nat.zero_add, hlength]
    obtain ⟨added, hflatten, hnew⟩ := flatten_readPages hsnapshots hcover'
    rw [Nat.zero_mul, List.drop_zero] at hflatten
    exact ⟨added, hflatten, hnew⟩

theorem full_pages_stable_sequential :
    ∃ (s : World) (events : List Event), Run (step sha256) AppendsInOrder (start JsDate.epoch)
        events s ∧
      s.database.entries.length = 2 ∧ FullPagesStable sha256 AppendsInOrder s ∧
      WalksComplete sha256 s := by
  let dto : CreateLogDto := ⟨js "alice", js "login", .null⟩
  have hexecute : (execute (step sha256) AppendsInOrder (start JsDate.epoch)
      ([.createLogEntry 0 dto] ++ appendEvents 0 (js "1") ++
        [.tick nextMillisecond, .createLogEntry 1 dto] ++ appendEvents 1 (js "2"))).any
      (fun w => decide (w.database.entries.length = 2)) = true := by
    decide +kernel
  obtain ⟨s, hrun, hcheck⟩ := Run.exists_of_execute hexecute
  exact ⟨s, _, hrun, of_decide_eq_true hcheck, full_pages_stable hrun⟩

/-- The one entry of a full page makes room for one that was requested before it
and committed behind it. -/
theorem not_fullPagesStable_overtaken :
    ∃ (s : World) (events : List Event), Run (step sha256) PlainUse (start JsDate.epoch) events s ∧
      ¬ FullPagesStable sha256 PlainUse s := by
  let dto : CreateLogDto := ⟨js "alice", js "login", .null⟩
  let before : List Event :=
    [.createLogEntry 0 dto, .tick nextMillisecond, .createLogEntry 1 dto] ++ appendEvents 1 (js "1")
  have hbefore : (execute (step sha256) PlainUse (start JsDate.epoch) before).any
      (fun s => decide (s.database.entries.map LogEntry.id = [js "1"] ∧
        (execute (step sha256) PlainUse s (appendEvents 0 (js "2"))).any (fun t =>
          decide (t.database.entries.map LogEntry.id = [js "1", js "2"] ∧
            t.database.entries.reverse.Pairwise
              fun first second => first.createdAt.ms ≤ second.createdAt.ms)) = true)) = true := by
    decide +kernel
  obtain ⟨s, hrun, hcheck⟩ := Run.exists_of_execute hbefore
  obtain ⟨hids, hafter⟩ := of_decide_eq_true hcheck
  obtain ⟨t, hlater, hcheck'⟩ := Run.exists_of_execute hafter
  obtain ⟨hids', hsorted⟩ := of_decide_eq_true hcheck'
  obtain ⟨first, hfirst, hfirstId⟩ := List.map_eq_singleton_iff.mp hids
  obtain ⟨_, _, hentries, _, hrest⟩ := List.map_eq_cons_iff.mp hids'
  obtain ⟨second, rfl, hsecondId⟩ := List.map_eq_singleton_iff.mp hrest
  refine ⟨s, before, hrun, fun hstable => ?_⟩
  have hlisted : GetAllLogEntries s.database s.database 1 1
      ⟨[first.readBack], 1, 1, s.database.count⟩ :=
    ⟨⟨s.database.entries.map LogEntry.readBack, ⟨List.Perm.refl _, by rw [hfirst]; simp⟩,
      by rw [hfirst]; rfl⟩, rfl, rfl, rfl⟩
  have hlisted' : GetAllLogEntries t.database t.database 1 1
      ⟨[second.readBack], 1, 1, t.database.count⟩ := by
    refine ⟨⟨(t.database.entries.map LogEntry.readBack).reverse, ⟨List.reverse_perm _, ?_⟩,
      by rw [hentries]; rfl⟩, rfl, rfl, rfl⟩
    rw [← List.map_reverse, List.pairwise_map]
    exact hsorted
  have hsame := hstable _ t hlater (some 1, some 1) _ _ _ _ hlisted rfl hlisted'
  have hid : second.readBack.id = first.readBack.id :=
    congrArg LogEntry.id (List.singleton_inj.mp hsame)
  have hne : js "2" ≠ js "1" := by decide
  exact hne (hsecondId.symm.trans (hid.trans hfirstId))

end World

end TamperEvidentLog.Service
