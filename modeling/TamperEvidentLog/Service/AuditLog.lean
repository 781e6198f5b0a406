/-
# The service as one append-only log

What clients are promised is a list that only grows and that is read by
identifier. The service keeps it in a table behind a row lock, with copies in
Redis, and serves many calls at once. Here the promise is stated as an object
with two atomic operations, and the service is shown to be that object: a
`createLogEntry` takes effect when its transaction commits, a `getLogById` at its
deciding read.

Nothing is promised about rows that somebody else changed, so tampering is ruled
out. The two stores may answer or fail in any order and at any time, and Redis
may be away for as long as it likes.
-/

import TamperEvidentLog.Protocol.Linearization
import TamperEvidentLog.Service.Cache

namespace TamperEvidentLog.Service

open TamperEvidentLog.Text TamperEvidentLog.Time TamperEvidentLog.Crypto
open TamperEvidentLog.Protocol

variable {H : Digest}

/-! ## The object -/

/-- An operation of the log together with what it answered. -/
inductive Operation
  | /-- Append an entry. -/
    append (dto : CreateLogDto) (createdAt : JsDate) (entry : Row)
  | /-- Read an entry. -/
    read (id : JsString) (answer : Answer)

/-- Is the operation an append? -/
def Operation.isAppend : Operation → Bool
  | append _ _ _ => true
  | read _ _ => false

namespace AuditLog

/-- The answer to a read. -/
def answer (H : Digest) (log : List Row) (id : JsString) : Answer :=
  match log.find? fun row => row.id = id with
  | none => .failed logEntryNotFound
  | some row => .found row.asEntry (verificationStatus H row.asEntry)

/-- Does the log answer so? An appended entry has a new identifier and is chained
to the last one. -/
def Legal (H : Digest) (log : List Row) : ℕ × Operation → Prop
  | (_, .append dto createdAt entry) => ∃ id ∉ log.map LogEntry.id,
      entry = (nextRow H (endOf log) id dto createdAt).readBack
  | (_, .read id given) => given.Agrees (answer H log id)

/-- The log after an operation. -/
def apply (log : List Row) : ℕ × Operation → Option (List Row)
  | (_, .append _ _ entry) => some (log ++ [entry])
  | (_, .read _ _) => some log

end AuditLog

/-! ## Outcomes of calls -/

/-- The operation that a call has performed, if it has. -/
def Call.operation (H : Digest) : Call → Option Operation
  | create dto createdAt (.settingLatest entry) => some (.append dto createdAt entry)
  | create dto createdAt (.enqueueing entry) => some (.append dto createdAt entry)
  | create dto createdAt (.returned entry) => some (.append dto createdAt entry)
  | create _ _ _ => none
  | read id stage => ((read id stage).verdict H).map fun (id, answer) => .read id answer

namespace World

/-- The operation that call `c` has performed. -/
def operation (H : Digest) (w : World) (c : ℕ) : Option Operation :=
  (w.calls c).bind (Call.operation H)

/-- The call that an event resumes. -/
def resumed (w : World) : Event → Option ℕ
  | .createLogEntry c _ => some c
  | .lockChainHead c => some c
  | .cancel c => some c
  | .commit => w.database.transaction.map Transaction.caller
  | .rollback => w.database.transaction.map Transaction.caller
  | .setLatestReply c _ => some c
  | .enqueueReply c _ => some c
  | .enqueueThrow c => some c
  | .getLogById c _ => some c
  | .getReply c _ => some c
  | .findById c => some c
  | .setReply c _ => some c
  | _ => none

/-- The operations of a run in the order in which they take effect. -/
def operations (H : Digest) (w : World) (events : List Event) : List (ℕ × Operation) :=
  effects (step H) resumed (operation H) w events

/-- The log that the table shows. -/
def log (w : World) : List Row := w.database.entries.map LogEntry.readBack

theorem Resumes.resumed_eq {w : World} {c : ℕ} {e : Event} {call : Call} (hw : w.Owned)
    (hresumes : w.Resumes H c e call) : w.resumed e = some c := by
  cases hresumes with
  | commit hcall htx =>
    rw [resumed, htx]
    rfl
  | rollback hcall =>
    obtain ⟨stage, htx⟩ := (hw _ _ _).mp hcall
    rw [resumed, htx]
    rfl
  | _ => rfl

/-- A resumed call performs its operation or keeps the one it has performed. -/
theorem Resumes.operation_eq {w : World} {c : ℕ} {e : Event} {call : Call} {op : Operation}
    (hresumes : w.Resumes H c e call) (hop : w.operation H c = some op) :
    call.operation H = some op := by
  rw [World.operation] at hop
  cases hresumes with
  | setLatestReply hcall | enqueueReply hcall | enqueueThrow hcall | setReply hcall =>
    rw [hcall] at hop
    exact hop
  | createLogEntry hcall | lockChainHead hcall | headMissing hcall | cancel hcall =>
    rw [hcall] at hop
    cases hop
  | commit hcall | rollback hcall | getLogById hcall | getReply hcall | findById hcall =>
    rw [hcall] at hop
    cases hop

/-- Every call takes effect at one step, for good. -/
theorem settles : Settles (step H) resumed (operation H) fun w _ => w.Owned where
  frame := by
    intro w t e c howned hstep hresumed
    rcases call_of_step howned hstep c with hsame | ⟨call, hresumes, _⟩
    · exact congrArg (Option.bind · _) hsame
    · exact absurd (hresumes.resumed_eq howned) hresumed
  final := by
    intro w t e c op howned hstep hop
    rcases call_of_step howned hstep c with hsame | ⟨call, hresumes, hcall⟩
    · rw [operation, hsame]
      exact hop
    · rw [operation, hcall]
      exact hresumes.operation_eq hop

/-- Every event of a run finds the transaction with its call. -/
theorem owned_run {allowed : World → Event → Prop} {now : JsDate} {events : List Event}
    {w : World} (hrun : Run (step H) allowed (start now) events w) :
    Run (step H) (fun w _ => w.Owned) (start now) events w :=
  (hrun.strengthen (owned_start now) fun _ _ _ _ hstep hs => hs.of_step hstep).mono
    fun _ _ hboth => hboth.1

/-! ## The object in the service -/

theorem endOf_log (w : World) : endOf w.log = w.database.tip := by
  rw [log, endOf_map_readBack, endOf_eq_tipOf]
  rfl

theorem ids_log (w : World) : w.log.map LogEntry.id = w.database.entries.map LogEntry.id := by
  have hid : LogEntry.id ∘ LogEntry.readBack = LogEntry.id := rfl
  rw [log, List.map_map, hid]

/-- PostgreSQL answers what the log answers. -/
theorem answer_log (w : World) (id : JsString) :
    AuditLog.answer H w.log id = postgresAnswer H w.database id := by
  have hfind : (w.log.find? fun row => row.id = id) = w.database.findById id := by
    rw [log, List.find?_map, Database.findById]
    rfl
  rw [AuditLog.answer, hfind]
  rfl

/-- What a run without tampering keeps true. -/
structure Intact (H : Digest) (w : World) : Prop where
  /-- Copies are copies of rows that are there. -/
  faithful : w.Faithful
  /-- The tables agree. -/
  consistent : w.database.Consistent H
  /-- The keys hold. -/
  keyed : w.database.Keyed

theorem intact_start (now : JsDate) : (start now).Intact H :=
  ⟨faithful_start now, Database.consistent_initial, Database.keyed_initial⟩

theorem Intact.of_step {w t : World} {e : Event} (hw : w.Intact H) (hallowed : NoTampering w e)
    (hstep : w.step H e = some t) : t.Intact H where
  faithful := hw.faithful.of_step hallowed hstep
  consistent := consistent_of_step hw.consistent hallowed hstep
  keyed := by
    rcases database_of_step hstep with hsame | ⟨e', _, hstep'⟩
    · exact hsame ▸ hw.keyed
    · exact hw.keyed.of_step hstep'

theorem intact_of_run {now : JsDate} {events : List Event} {w : World}
    (hrun : Run (step H) NoTampering (start now) events w) : w.Intact H :=
  hrun.invariant (intact_start now) fun _ _ _ hallowed hstep hw => hw.of_step hallowed hstep

/-- The row that is about to be committed has a new identifier. -/
theorem Intact.id_not_mem {w : World} (hw : w.Intact H) {c : ℕ} {dto : CreateLogDto}
    {createdAt : JsDate} {created : Row}
    (htx : w.database.transaction = some ⟨c, dto, createdAt, .headUpdated created⟩) :
    created.id ∉ w.database.entries.map LogEntry.id := by
  have hkeys := hw.keyed.1
  rw [Database.pendingRow, htx, Option.bind_some, TransactionStage.created?, Option.toList_some,
    List.map_append, List.map_singleton, List.nodup_append] at hkeys
  exact fun hmem => hkeys.2.2 _ hmem _ (List.mem_singleton_self _) rfl

/-- The commit appends what the log would append. -/
theorem Intact.append_legal {w : World} (hw : w.Intact H) {c c' : ℕ} {dto : CreateLogDto}
    {createdAt : JsDate} {created : Row}
    (htx : w.database.transaction = some ⟨c, dto, createdAt, .headUpdated created⟩) :
    AuditLog.Legal H w.log (c', .append dto createdAt created.readBack) := by
  obtain ⟨id, hcreated⟩ := hw.consistent.pending _ htx
  replace hcreated : created = nextRow H w.database.tip id dto createdAt := hcreated
  have hid : created.id = id := by
    rw [hcreated]
    rfl
  refine ⟨id, ?_, ?_⟩
  · rw [ids_log, ← hid]
    exact hw.id_not_mem htx
  · rw [endOf_log, hcreated]

/-- A verdict reached in this step is what the log answers. -/
theorem Intact.read_legal {w t : World} {e : Event} (hw : w.Intact H)
    (hstep : w.step H e = some t) {c : ℕ} {id : JsString} {given : Answer}
    (hbefore : w.verdict H c = none) (hafter : t.verdict H c = some (id, given)) :
    given.Agrees (AuditLog.answer H w.log id) := by
  rcases verdict_of_step hw.faithful.owned hstep hafter with hold | hdecides
  · rw [hbefore] at hold
    cases hold
  · rw [answer_log]
    exact hw.faithful.agrees hdecides

/-- The operation of a read is its verdict. -/
theorem operation_eq_read_iff {w : World} {c : ℕ} {id : JsString} {given : Answer} :
    w.operation H c = some (.read id given) ↔ w.verdict H c = some (id, given) := by
  rw [operation, verdict]
  cases hcall : w.calls c with
  | none => simp
  | some call =>
    cases call with
    | create dto createdAt stage => cases stage <;> simp [Call.operation, Call.verdict]
    | read id stage => simp [Call.operation]

/-- The commit appends the new row. -/
theorem log_of_commit {w t : World} {c : ℕ} {dto : CreateLogDto} {createdAt : JsDate}
    {created : Row} (hstep : w.step H .commit = some t)
    (htx : w.database.transaction = some ⟨c, dto, createdAt, .headUpdated created⟩) :
    t.log = w.log ++ [created.readBack] := by
  cases Step.of_step hstep with
  | commit _ hdb =>
    cases Database.Step.of_step hdb with
    | commit htx' =>
      cases htx.symm.trans htx'
      exact List.map_append

/-- Nothing else changes the table. -/
theorem log_of_ne_commit {w t : World} {e : Event} (hallowed : NoTampering w e)
    (hstep : w.step H e = some t) (hcommit : e ≠ .commit) : t.log = w.log := by
  rcases entries_of_step hstep with hsame | ⟨he, _⟩ | ⟨_, rfl, _⟩
  · exact congrArg (List.map LogEntry.readBack) hsame
  · exact absurd he hcommit
  · cases hallowed

/-- A call performs its operation at a commit or at a read. -/
theorem operation_of_step {w t : World} {e : Event} (hw : w.Owned) (hstep : w.step H e = some t)
    {c : ℕ} {op : Operation} (hbefore : w.operation H c = none)
    (hafter : t.operation H c = some op) :
    (∃ dto createdAt created, e = .commit ∧
        w.database.transaction = some ⟨c, dto, createdAt, .headUpdated created⟩ ∧
        op = .append dto createdAt created.readBack) ∨
      e ≠ .commit ∧ ∃ id given, op = .read id given := by
  rcases call_of_step hw hstep c with hsame | ⟨call, hresumes, hcall⟩
  · rw [operation, hsame] at hafter
    exact absurd (hbefore.symm.trans hafter) (by simp)
  · rw [operation, hcall, Option.bind_some] at hafter
    rw [operation] at hbefore
    cases hresumes with
    | commit _ htx =>
      cases hafter
      exact .inl ⟨_, _, _, rfl, htx, rfl⟩
    | getReply | findById =>
      obtain ⟨⟨id, given⟩, _, hop⟩ := Option.map_eq_some_iff.mp hafter
      exact .inr ⟨by simp, id, given, hop.symm⟩
    | setLatestReply hold | enqueueReply hold | enqueueThrow hold | setReply hold =>
      rw [hold] at hbefore
      cases hbefore
    | _ => cases hafter

/-- **The step.** An effect is a legal operation of the log, and the log after
the step is the log after the operation. -/
theorem Intact.effect_legal {w t : World} {e : Event} (hw : w.Intact H)
    (hallowed : NoTampering w e) (hstep : w.step H e = some t) {d : ℕ × Operation}
    (heffect : effect (step H) resumed (operation H) w e = some d) :
    AuditLog.Legal H w.log d ∧ AuditLog.apply w.log d = some t.log := by
  obtain ⟨c, op⟩ := d
  obtain ⟨_, hbefore, hafter⟩ := (effect_eq_some_iff hstep).mp heffect
  rcases operation_of_step hw.faithful.owned hstep hbefore hafter with
    ⟨dto, createdAt, created, rfl, htx, rfl⟩ | ⟨hcommit, id, given, rfl⟩
  · exact ⟨hw.append_legal htx, congrArg some (log_of_commit hstep htx).symm⟩
  · have hnone : w.verdict H c = none := by
      by_contra hsome
      obtain ⟨v, hv⟩ := Option.ne_none_iff_exists'.mp hsome
      rw [operation_eq_read_iff.mpr hv] at hbefore
      cases hbefore
    exact ⟨hw.read_legal hstep hnone (operation_eq_read_iff.mp hafter),
      congrArg some (log_of_ne_commit hallowed hstep hcommit).symm⟩

/-- The effect of a commit. -/
theorem effect_of_commit {w t : World} (hw : w.Owned) (hstep : w.step H .commit = some t) {c : ℕ}
    {dto : CreateLogDto} {createdAt : JsDate} {created : Row}
    (htx : w.database.transaction = some ⟨c, dto, createdAt, .headUpdated created⟩) :
    effect (step H) resumed (operation H) w .commit =
      some (c, .append dto createdAt created.readBack) := by
  cases Step.of_step hstep with
  | commit htx' =>
    cases htx.symm.trans htx'
    refine (effect_eq_some_iff hstep).mpr ⟨?_, ?_, ?_⟩
    · rw [resumed, htx]
      rfl
    · rw [operation, (hw c dto createdAt).mpr ⟨_, htx⟩]
      rfl
    · rw [operation, calls_setCall_self]
      rfl

/-- A step without an effect leaves the log alone. -/
theorem log_of_no_effect {w t : World} {e : Event} (hw : w.Owned) (hallowed : NoTampering w e)
    (hstep : w.step H e = some t) (hnone : effect (step H) resumed (operation H) w e = none) :
    t.log = w.log := by
  by_cases hcommit : e = .commit
  · subst hcommit
    cases Step.of_step hstep with
    | commit htx hdb =>
      rw [effect_of_commit hw hstep htx] at hnone
      cases hnone
  · exact log_of_ne_commit hallowed hstep hcommit

/-! ## The log from a moment on -/

/-- A step extends the log or leaves it alone. -/
theorem log_prefix_of_step {w t : World} {e : Event} (hallowed : NoTampering w e)
    (hstep : w.step H e = some t) : w.log <+: t.log := by
  by_cases hcommit : e = .commit
  · subst hcommit
    cases Step.of_step hstep with
    | commit htx =>
      rw [log_of_commit hstep htx]
      exact List.prefix_append _ _
  · rw [log_of_ne_commit hallowed hstep hcommit]

/-- The log only grows. -/
theorem log_prefix_of_run {s w : World} {events : List Event}
    (hrun : Run (step H) NoTampering s events w) : s.log <+: w.log := by
  induction hrun with
  | nil => exact List.prefix_refl _
  | snoc _ hallowed hstep ih => exact ih.trans (log_prefix_of_step hallowed hstep)

/-- What calls have appended is in the log. -/
def AppendsLogged (H : Digest) (w : World) : Prop :=
  ∀ c dto createdAt entry, w.operation H c = some (.append dto createdAt entry) → entry ∈ w.log

theorem AppendsLogged.of_step {w t : World} {e : Event} (hlogged : w.AppendsLogged H)
    (hw : w.Intact H) (hallowed : NoTampering w e) (hstep : w.step H e = some t) :
    t.AppendsLogged H := by
  intro c dto createdAt entry hop
  rcases (settles.outcome_of_step hw.faithful.owned hstep c _).mp hop with hold | heffect
  · exact (log_prefix_of_step hallowed hstep).subset (hlogged c dto createdAt entry hold)
  · obtain ⟨_, happly⟩ := hw.effect_legal hallowed hstep heffect
    rw [← Option.some.inj happly]
    exact List.mem_append_right _ (List.mem_singleton_self _)

theorem appendsLogged_of_run {now : JsDate} {events : List Event} {w : World}
    (hrun : Run (step H) NoTampering (start now) events w) : w.AppendsLogged H := by
  induction hrun with
  | nil => simp [AppendsLogged, operation, start]
  | snoc prior hallowed hstep ih => exact ih.of_step (intact_of_run prior) hallowed hstep

/-! ## One append-only log -/

/-- **The service is the log.** While nobody tampers, the operations of the calls
in the order in which they take effect are a history of one append-only log that
ends in the table as it is. Each call is in it at most once, and it is in it with
the answer that the call gives, or not at all if the call has rejected. The order
extends that of every earlier moment, so that a call which had performed its
operation before another one started comes first. -/
theorem linearizable {now : JsDate} {events : List Event} {w : World}
    (hrun : Run (step H) NoTampering (start now) events w) :
    Run AuditLog.apply (AuditLog.Legal H) [] (operations H (start now) events) w.log ∧
      ((operations H (start now) events).map Prod.fst).Nodup ∧
      (∀ c op, w.operation H c = some op ↔ (c, op) ∈ operations H (start now) events) ∧
      ∀ before after s, events = before ++ after → Run (step H) NoTampering (start now) before s →
        operations H (start now) before <+: operations H (start now) events ∧
        ∀ c c' op op', s.operation H c = some op → s.calls c' = none →
          w.operation H c' = some op' →
          [(c, op), (c', op')].Sublist (operations H (start now) events) := by
  have hstart (c : ℕ) : (start now).operation H c = none := rfl
  have howned := owned_run hrun
  have hintact : Run (step H) (fun w e => w.Intact H ∧ NoTampering w e) (start now) events w :=
    hrun.strengthen (intact_start now) fun _ _ _ hallowed hstep hs => hs.of_step hallowed hstep
  refine ⟨?_, settles.effects_nodup hstart howned, settles.outcome_iff_mem hstart howned, ?_⟩
  · exact run_effects hintact
      (fun _ _ _ _ hallowed hstep heffect => hallowed.1.effect_legal hallowed.2 hstep heffect)
      (fun _ _ _ hallowed hstep hnone =>
        log_of_no_effect hallowed.1.faithful.owned hallowed.2 hstep hnone)
  · rintro before after s rfl hbefore
    obtain ⟨s', hbefore', hafter⟩ := howned.split
    obtain rfl := hbefore.unique hbefore'
    refine ⟨⟨_, (hbefore.trace_append after).symm⟩, ?_⟩
    intro c c' op op' hc hnone hc'
    have hc'_before : s.operation H c' = none := by
      rw [operation, hnone]
      rfl
    exact settles.effects_sublist hstart hbefore' hafter hc hc'_before hc'

/-- An entry is appended, read from the table and read from the cache while
another call has not got the lock yet. -/
theorem linearizable_overlapping :
    ∃ w events, Run (step sha256) NoTampering (start JsDate.epoch) events w ∧
      (operations sha256 (start JsDate.epoch) events).map Prod.fst = [1, 2, 3, 0] ∧
      Run AuditLog.apply (AuditLog.Legal sha256) []
        (operations sha256 (start JsDate.epoch) events) w.log := by
  let dto : CreateLogDto := ⟨js "alice", js "login", .null⟩
  let events : List Event := [.createLogEntry 0 dto, .createLogEntry 1 dto] ++
    appendEvents 1 (js "1") ++ readEvents 2 (js "1") ++
    [.getLogById 3 (js "1"), .getReply 3 true] ++ appendEvents 0 (js "2")
  have hexecute : (execute (step sha256) NoTampering (start JsDate.epoch) events).any
      (fun _ => decide ((operations sha256 (start JsDate.epoch) events).map Prod.fst =
        [1, 2, 3, 0])) = true := by
    decide +kernel
  obtain ⟨w, hrun, hcheck⟩ := Run.exists_of_execute hexecute
  exact ⟨w, events, hrun, of_decide_eq_true hcheck, (linearizable hrun).1⟩

end World

end TamperEvidentLog.Service
