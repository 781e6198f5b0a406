/-
# Where verification stops

A record passes at its place when it names what stands before it and verifies.
The walk over a list stops at the first record that does not pass: everything
before it passes, what it reports describes the first check that fails there,
and what stands behind it does not matter.

With that, a list made of records of a valid chain is valid exactly when it is
an initial segment of it, and a forged record is reported at its place or, when
it passes there, at the next one.
-/

import TamperEvidentLog.Service.TamperEvidence

namespace TamperEvidentLog.Service

open TamperEvidentLog.Text TamperEvidentLog.Time TamperEvidentLog.Crypto
open TamperEvidentLog.Protocol

/-- The `totalEntries` field. -/
def VerificationResult.totalEntries : VerificationResult → ℕ
  | success totalEntries => totalEntries
  | failure totalEntries _ => totalEntries

/-! ## One position -/

namespace LogEntry

/-- The record names the record before it; the first one may also leave the
column null. -/
def Follows (entry : Entry) : Option Entry → Prop
  | none => entry.previousHash = some genesisPreviousHash ∨ entry.previousHash = none
  | some prior => entry.previousHash = some prior.currentHash

instance (entry : Entry) : (prior : Option Entry) → Decidable (entry.Follows prior)
  | none => inferInstanceAs (Decidable (_ ∨ _))
  | some _ => inferInstanceAs (Decidable (_ = _))

theorem Follows.resolvedPreviousHash_eq {entry : Entry} {prior : Option Entry}
    (hfollows : entry.Follows prior) :
    entry.resolvedPreviousHash = prior.elim genesisPreviousHash LogEntry.currentHash := by
  cases prior with
  | none => exact resolvedPreviousHash_eq_genesis_iff.mpr hfollows
  | some p =>
    have hprevious : entry.previousHash = some p.currentHash := hfollows
    rw [resolvedPreviousHash, hprevious]
    rfl

variable (H : Digest)

/-- The record passes the checks of its place: it follows what is before it and
its hash is the recomputed one. -/
def Passes (prior : Option Entry) (entry : Entry) : Prop :=
  entry.Follows prior ∧ verificationStatus H entry = true

instance (prior : Option Entry) (entry : Entry) : Decidable (entry.Passes H prior) :=
  inferInstanceAs (Decidable (_ ∧ _))

end LogEntry

/-- What a fault says about the record it names, check by check in the order of
the loop body. -/
inductive Fault.Describes (H : Digest) (prior : Option Entry) (entry : Entry) : Fault → Prop
  | /-- The first record has a previous hash and it is not the marker. -/
    genesisMarker (hprior : prior = none) (hash : JsString)
      (hprevious : entry.previousHash = some hash) (hmarker : hash ≠ genesisPreviousHash) :
      Describes H prior entry ⟨entry.id, .genesisMarker, genesisPreviousHash, hash⟩
  | /-- A later record does not name the record before it. -/
    linkage (before : Entry) (hprior : prior = some before)
      (hprevious : entry.previousHash ≠ some before.currentHash) :
      Describes H prior entry
        ⟨entry.id, .linkage, before.currentHash, entry.previousHash.getD []⟩
  | /-- The record follows what is before it and does not verify. -/
    mismatch (hfollows : entry.Follows prior) (hstatus : verificationStatus H entry = false) :
      Describes H prior entry
        ⟨entry.id, .mismatch, generateHash H (entry.hashData entry.resolvedPreviousHash),
          entry.currentHash⟩

theorem Fault.Describes.brokenEntryId_eq {H : Digest} {prior : Option Entry} {entry : Entry}
    {fault : Fault} (hdescribes : fault.Describes H prior entry) :
    fault.brokenEntryId = entry.id := by
  cases hdescribes <;> rfl

variable {H : Digest} {prior : Option Entry} {entry : Entry} {fault : Fault}

theorem checkHash_eq_some_iff {previousHash : JsString} :
    checkHash H previousHash entry = some fault ↔
      entry.currentHash ≠ generateHash H (entry.hashData previousHash) ∧
        fault = ⟨entry.id, .mismatch, generateHash H (entry.hashData previousHash),
          entry.currentHash⟩ := by
  simp [checkHash, eq_comm]

theorem verificationStatus_eq_false_iff :
    verificationStatus H entry = false ↔
      entry.currentHash ≠ generateHash H (entry.hashData entry.resolvedPreviousHash) := by
  rw [← Bool.not_eq_true, verificationStatus_iff]
  rfl

/-- A record that follows what is before it faces only the last check. -/
theorem checkEntry_of_follows (hfollows : entry.Follows prior) :
    checkEntry H prior entry = checkHash H entry.resolvedPreviousHash entry := by
  rw [hfollows.resolvedPreviousHash_eq]
  cases prior with
  | none =>
    rw [checkEntry, if_neg, Option.elim_none]
    exact fun hne => hfollows.elim hne.1 hne.2
  | some p =>
    rw [checkEntry, if_neg, Option.elim_some]
    exact not_not.mpr hfollows

/-- A record that does not is described by its previous hash. -/
theorem checkEntry_of_not_follows (hfollows : ¬ entry.Follows prior) :
    ∃ fault : Fault, checkEntry H prior entry = some fault ∧ fault.Describes H prior entry ∧
      fault.reason ≠ .mismatch := by
  cases prior with
  | none =>
    have hne : entry.previousHash ≠ some genesisPreviousHash ∧ entry.previousHash ≠ none :=
      not_or.mp hfollows
    obtain ⟨hash, hprevious⟩ := Option.ne_none_iff_exists'.mp hne.2
    refine ⟨_, if_pos hne, ?_, Reason.noConfusion⟩
    rw [hprevious, Option.getD_some]
    apply Fault.Describes.genesisMarker rfl hash hprevious
    rintro rfl
    exact hne.1 hprevious
  | some before =>
    have hne : entry.previousHash ≠ some before.currentHash := hfollows
    exact ⟨_, if_pos hne, .linkage before rfl hne, Reason.noConfusion⟩

/-- The loop body finds no fault in a record exactly when it passes. -/
theorem checkEntry_eq_none_iff_passes :
    checkEntry H prior entry = none ↔ entry.Passes H prior := by
  by_cases hfollows : entry.Follows prior
  · rw [checkEntry_of_follows hfollows, checkHash_eq_none_iff, LogEntry.Passes,
      and_iff_right hfollows]
    exact verificationStatus_iff.symm
  · obtain ⟨fault, hfault, _⟩ := checkEntry_of_not_follows (H := H) hfollows
    rw [hfault]
    exact iff_of_false (Option.some_ne_none fault) fun hpasses => hfollows hpasses.1

/-- What the loop body returns describes the first check that fails. -/
theorem describes_of_checkEntry (hfault : checkEntry H prior entry = some fault) :
    fault.Describes H prior entry := by
  by_cases hfollows : entry.Follows prior
  · rw [checkEntry_of_follows hfollows, checkHash_eq_some_iff] at hfault
    rw [hfault.2]
    exact .mismatch hfollows (verificationStatus_eq_false_iff.mpr hfault.1)
  · obtain ⟨found, hfound, hdescribes, _⟩ := checkEntry_of_not_follows (H := H) hfollows
    rw [hfound, Option.some.injEq] at hfault
    rw [← hfault]
    exact hdescribes

/-! ## The walk -/

/-- The record that the loop compares the record at a position with. -/
def priorAt (entries : List Entry) (i : ℕ) : Option Entry := (entries.take i).getLast?

@[simp]
theorem priorAt_zero (entries : List Entry) : priorAt entries 0 = none := rfl

theorem priorAt_succ {entries : List Entry} {i : ℕ} (hi : i < entries.length) :
    priorAt entries (i + 1) = some entries[i] := by
  rw [priorAt, List.take_succ_eq_append_getElem hi, List.getLast?_concat]

theorem priorAt_append_length (before after : List Entry) :
    priorAt (before ++ after) before.length = before.getLast? := by
  rw [priorAt, List.take_left']
  rfl

/-- The loop stops at the first record that does not pass. -/
theorem firstFault_eq_some_iff (entries : List Entry) :
    firstFault H prior entries = some fault ↔
      ∃ (before : List Entry) (entry : Entry) (after : List Entry),
        entries = before ++ entry :: after ∧ firstFault H prior before = none ∧
          checkEntry H (before.getLast?.or prior) entry = some fault := by
  constructor
  · intro hfault
    induction entries generalizing prior with
    | nil => cases hfault
    | cons head rest ih =>
      rw [firstFault] at hfault
      split at hfault
      case h_1 found hfound =>
        rw [hfault] at hfound
        exact ⟨[], head, rest, rfl, rfl, hfound⟩
      case h_2 hnone =>
        obtain ⟨before, entry, after, rfl, hbefore, hcheck⟩ := ih hfault
        refine ⟨head :: before, entry, after, rfl, ?_, ?_⟩
        · rw [firstFault, hnone]
          exact hbefore
        · cases before with
          | nil => exact hcheck
          | cons next before => simpa [List.getLast?_cons] using hcheck
  · rintro ⟨before, entry, after, rfl, hbefore, hcheck⟩
    rw [firstFault_append, hbefore, Option.none_or, firstFault, hcheck]

/-- The loop over one more record. -/
theorem firstFault_snoc_eq_none_iff (entries : List Entry) :
    firstFault H none (entries ++ [entry]) = none ↔
      firstFault H none entries = none ∧ entry.Passes H entries.getLast? := by
  rw [firstFault_append, Option.or_eq_none_iff, Option.or_none,
    ← checkEntry_eq_none_iff_passes]
  apply and_congr_right
  intro _
  rw [firstFault]
  cases checkEntry H entries.getLast? entry <;> simp [firstFault]

/-- The loop finds no fault exactly when every record passes at its place. -/
theorem firstFault_eq_none_iff_passes (entries : List Entry) :
    firstFault H none entries = none ↔
      ∀ (i : ℕ) (hi : i < entries.length), entries[i].Passes H (priorAt entries i) := by
  induction entries using List.reverseRecOn with
  | nil => simp [firstFault]
  | append_singleton entries entry ih =>
    rw [firstFault_snoc_eq_none_iff, ih]
    have hprior {i : ℕ} (hi : i ≤ entries.length) :
        priorAt (entries ++ [entry]) i = priorAt entries i := by
      rw [priorAt, List.take_append_of_le_length hi, priorAt]
    constructor
    · rintro ⟨hentries, hentry⟩ i hi
      rcases Nat.lt_succ_iff_lt_or_eq.mp (List.length_append ▸ hi) with hlt | rfl
      · rw [hprior hlt.le, List.getElem_append_left hlt]
        exact hentries i hlt
      · rw [priorAt_append_length, List.getElem_concat_length rfl]
        exact hentry
    · intro hall
      refine ⟨fun i hi => ?_, ?_⟩
      · have hpasses := hall i (by rw [List.length_append]; exact Nat.lt_add_right _ hi)
        rwa [hprior hi.le, List.getElem_append_left hi] at hpasses
      · have hpasses := hall entries.length (by simp)
        rwa [priorAt_append_length, List.getElem_concat_length rfl] at hpasses

theorem isSuccess_verifyEntireChain_iff_firstFault {entries : List Entry} :
    (verifyEntireChain H entries).isSuccess = true ↔ firstFault H none entries = none := by
  rw [verifyEntireChain]
  cases firstFault H none entries <;> simp [VerificationResult.isSuccess]

/-- A walk that fails stops between what passes and what it does not look at. -/
theorem verifyEntireChain_eq_failure_iff {entries : List Entry} {total : ℕ} :
    verifyEntireChain H entries = .failure total fault ↔ total = entries.length ∧
      ∃ (before : List Entry) (entry : Entry) (after : List Entry),
        entries = before ++ entry :: after ∧ firstFault H none before = none ∧
          checkEntry H before.getLast? entry = some fault := by
  have hstop := @firstFault_eq_some_iff H none fault entries
  simp only [Option.or_none] at hstop
  rw [← hstop, verifyEntireChain]
  cases firstFault H none entries with
  | none => simp
  | some found => simp [eq_comm]

/-- Every record passes exactly when the first one carries the marker or null,
every later one names its predecessor, and each verifies on its own. -/
theorem forall_passes_iff {entries : List Entry} :
    (∀ (i : ℕ) (hi : i < entries.length), entries[i].Passes H (priorAt entries i)) ↔
      entries = [] ∨ ∃ hne : entries ≠ [],
        ((entries.head hne).previousHash = some genesisPreviousHash ∨
          (entries.head hne).previousHash = none) ∧
        (∀ (i : ℕ) (hi : i + 1 < entries.length),
          entries[i + 1].previousHash = some entries[i].currentHash) ∧
        ∀ entry ∈ entries, verifyEntry H entry
          (some (entry.previousHash.getD genesisPreviousHash)) = true := by
  constructor
  · intro hpasses
    by_cases hempty : entries = []
    · exact .inl hempty
    · have hpositive : 0 < entries.length := List.length_pos_iff.mpr hempty
      refine .inr ⟨hempty, ?_, fun i hi => ?_, fun entry hentry => ?_⟩
      · have hfirst := (hpasses 0 hpositive).1
        rwa [priorAt_zero, ← List.head_eq_getElem hempty] at hfirst
      · have hlater := (hpasses (i + 1) hi).1
        rwa [priorAt_succ (Nat.lt_of_succ_lt hi)] at hlater
      · obtain ⟨i, hi, rfl⟩ := List.getElem_of_mem hentry
        exact (hpasses i hi).2
  · rintro (rfl | ⟨hne, hfirst, hlater, hverified⟩) i hi
    · cases hi
    · refine ⟨?_, hverified _ (List.getElem_mem hi)⟩
      cases i with
      | zero =>
        rw [priorAt_zero, ← List.head_eq_getElem hne]
        exact hfirst
      | succ i =>
        rw [priorAt_succ (Nat.lt_of_succ_lt hi)]
        exact hlater i hi

/-- **Verification decides validity and names the first fault.** -/
theorem verifyEntireChain_spec (H : Digest) (entries : List Entry) :
    ((verifyEntireChain H entries).isSuccess = true ↔
      entries = [] ∨ ∃ hne : entries ≠ [],
        ((entries.head hne).previousHash = some genesisPreviousHash ∨
          (entries.head hne).previousHash = none) ∧
        (∀ (i : ℕ) (hi : i + 1 < entries.length),
          entries[i + 1].previousHash = some entries[i].currentHash) ∧
        ∀ entry ∈ entries, verifyEntry H entry
          (some (entry.previousHash.getD genesisPreviousHash)) = true) ∧
    (verifyEntireChain H entries).totalEntries = entries.length ∧
    ∀ (total : ℕ) (fault : Fault), verifyEntireChain H entries = .failure total fault →
      ∃ (i : ℕ) (hi : i < entries.length),
        fault.brokenEntryId = entries[i].id ∧
        fault.Describes H (priorAt entries i) entries[i] ∧
        (verifyEntireChain H (entries.take (i + 1))).isSuccess = false ∧
        (∀ j ≤ i, (verifyEntireChain H (entries.take j)).isSuccess = true) ∧
        ∀ rest : List Entry, verifyEntireChain H (entries.take (i + 1) ++ rest) =
          .failure (entries.take (i + 1) ++ rest).length fault := by
  refine ⟨?_, ?_, fun total fault hfailure => ?_⟩
  · rw [isSuccess_verifyEntireChain_iff_firstFault, firstFault_eq_none_iff_passes,
      forall_passes_iff]
  · rw [verifyEntireChain]
    cases firstFault H none entries <;> rfl
  · obtain ⟨_, before, entry, after, rfl, hbefore, hcheck⟩ :=
      verifyEntireChain_eq_failure_iff.mp hfailure
    have hdescribes := describes_of_checkEntry hcheck
    have htake : (before ++ entry :: after).take (before.length + 1) = before ++ [entry] := by
      simp [List.take_append]
    have hextension (rest : List Entry) : verifyEntireChain H (before ++ [entry] ++ rest) =
        .failure (before ++ [entry] ++ rest).length fault :=
      verifyEntireChain_eq_failure_iff.mpr
        ⟨rfl, before, entry, rest, List.append_cons .. |>.symm, hbefore, hcheck⟩
    refine ⟨before.length, by simp, ?_, ?_, ?_, fun j hj => ?_, ?_⟩
    · simpa using hdescribes.brokenEntryId_eq
    · simpa [priorAt_append_length] using hdescribes
    · have hstop := hextension []
      rw [List.append_nil] at hstop
      rw [htake, hstop]
      rfl
    · rw [List.take_append_of_le_length hj, isSuccess_verifyEntireChain_iff_firstFault,
        firstFault_eq_none_iff_passes]
      rw [firstFault_eq_none_iff_passes] at hbefore
      intro i hi
      have hij : i < j := (List.length_take .. ▸ hi).trans_le (min_le_left _ _)
      have hpasses := hbefore i (hij.trans_le hj)
      rwa [List.getElem_take, priorAt, List.take_take, min_eq_left hij.le]
    · rw [htake]
      exact hextension

/-! ## Arrangements of a valid chain -/

/-- Records with distinct hashes commit to what is before them. -/
theorem ValidChain.commits_of_nodup {entries : List Entry} (hvalid : ValidChain H entries)
    (hnodup : (entries.map LogEntry.currentHash).Nodup) :
    chain.Commits genesisPreviousHash {entry | entry ∈ entries} where
  link_eq := by
    intro first hfirst second hsecond htip
    rw [List.inj_on_of_nodup_map hnodup hfirst hsecond htip]
  tip_ne := fun entry hentry => currentHash_ne_genesis (hvalid.verified entry hentry)

/-- **Arrangements.** Of the lists made of records of a verified chain, exactly
its initial segments verify. -/
theorem arrangement_verifies_iff_isPrefix {entries arranged : List Entry}
    (hsuccess : (verifyEntireChain H entries).isSuccess = true)
    (hnodup : (entries.map LogEntry.currentHash).Nodup)
    (harranged : ∀ entry ∈ arranged, entry ∈ entries) :
    (verifyEntireChain H arranged).isSuccess = true ↔ arranged <+: entries := by
  rw [isSuccess_verifyEntireChain_iff] at hsuccess ⊢
  rw [← Linkage.linked_iff_isPrefix (hsuccess.commits_of_nodup hnodup) (fun _ hentry => hentry)
    hsuccess.linked harranged]
  apply Iff.intro ValidChain.linked
  intro hlinked
  exact ⟨hlinked, fun entry hentry => hsuccess.verified entry (harranged entry hentry)⟩

/-- A second row, behind `firstRow "a" "b"`. -/
def secondRow : Row where
  id := js "6ba7b810-9dad-11d1-80b4-00c04fd430c8"
  actor := js "c"
  action := js "d"
  payload := .null
  previousHash := some (firstRow "a" "b").currentHash
  currentHash := calculateCurrentHash sha256 (js "c") (js "d") .null
    (firstRow "a" "b").currentHash (.date JsDate.epoch)
  createdAt := JsDate.epoch

/-- A chain of two records. -/
def twoEntries : List Entry := [(firstRow "a" "b").asEntry, secondRow.asEntry]

theorem isSuccess_twoEntries : (verifyEntireChain sha256 twoEntries).isSuccess = true := by
  decide +kernel

theorem arrangement_verifies_iff_isPrefix_swapped :
    (verifyEntireChain sha256 twoEntries.reverse).isSuccess = true ↔
      twoEntries.reverse <+: twoEntries :=
  arrangement_verifies_iff_isPrefix isSuccess_twoEntries (by decide +kernel)
    (fun _ hentry => List.mem_reverse.mp hentry)

/-! ## Forged records -/

namespace VerificationResult

/-- The `reason` field. -/
def reason : VerificationResult → Option Reason
  | success _ => none
  | failure _ fault => some fault.reason

/-- The result names the record at this position of the list. -/
def Blames (result : VerificationResult) (entries : List Entry) (i : ℕ) : Prop :=
  ∃ entry ∈ entries[i]?, result.brokenEntryId = some entry.id

end VerificationResult

/-- With distinct identifiers, what is named is the position where the walk
stopped. -/
theorem blames_iff {before after : List Entry}
    (hnodup : ((before ++ entry :: after).map LogEntry.id).Nodup)
    (hbefore : firstFault H none before = none)
    (hcheck : checkEntry H before.getLast? entry = some fault) (i : ℕ) :
    (verifyEntireChain H (before ++ entry :: after)).Blames (before ++ entry :: after) i ↔
      i = before.length := by
  have hresult := verifyEntireChain_eq_failure_iff.mpr
    ⟨rfl, before, entry, after, rfl, hbefore, hcheck⟩
  have hid := (describes_of_checkEntry hcheck).brokenEntryId_eq
  rw [hresult]
  constructor
  · rintro ⟨named, hnamed, hbroken⟩
    obtain ⟨hi, rfl⟩ := List.getElem?_eq_some_iff.mp hnamed
    have hbroken' : fault.brokenEntryId = (before ++ entry :: after)[i].id :=
      Option.some.inj hbroken
    rw [hid] at hbroken'
    have hposition : i < ((before ++ entry :: after).map LogEntry.id).length := by simpa using hi
    have hstop : before.length < ((before ++ entry :: after).map LogEntry.id).length := by simp
    have hsame : ((before ++ entry :: after).map LogEntry.id)[i] =
        ((before ++ entry :: after).map LogEntry.id)[before.length] := by
      rw [List.getElem_map, List.getElem_map, ← hbroken']
      simp
    exact hnodup.getElem_inj_iff.mp hsame
  · rintro rfl
    exact ⟨entry, by simp, congrArg some hid⟩

/-- A walk over a list that begins with a valid chain does not stop in it. -/
theorem le_of_blames {entries edited : List Entry} (hvalid : ValidChain H entries)
    (hnodup : (edited.map LogEntry.id).Nodup) {k : ℕ}
    (hagree : ∀ j < k, edited[j]? = entries[j]?) {i : ℕ}
    (hblames : (verifyEntireChain H edited).Blames edited i) : k ≤ i := by
  obtain ⟨named, hnamed, hbroken⟩ := id hblames
  cases hresult : verifyEntireChain H edited with
  | success total =>
    rw [hresult] at hbroken
    cases hbroken
  | failure total fault =>
    obtain ⟨_, before, entry, after, rfl, hbefore, hcheck⟩ :=
      verifyEntireChain_eq_failure_iff.mp hresult
    rw [(blames_iff hnodup hbefore hcheck i).mp hblames]
    -- Were the faulty record among those that were kept, it would pass.
    by_contra hlt
    rw [not_le] at hlt
    have hloop := isSuccess_verifyEntireChain_iff_firstFault.mp
      (isSuccess_verifyEntireChain_iff.mpr hvalid)
    rw [firstFault_eq_none_iff_passes] at hloop
    have hentry : entries[before.length]? = some entry := by
      rw [← hagree _ hlt]
      simp
    obtain ⟨hposition, hget⟩ := List.getElem?_eq_some_iff.mp hentry
    have hkept : entries.take before.length = before := by
      apply List.ext_getElem?
      intro j
      by_cases hj : j < before.length
      · rw [List.getElem?_take_of_lt hj, ← hagree j (hj.trans hlt),
          List.getElem?_append_left hj]
      · simp [hj]
    have hpasses := hloop before.length hposition
    rw [hget, priorAt, hkept, ← checkEntry_eq_none_iff_passes, hcheck] at hpasses
    cases hpasses

/-- A walk that stops fails, names the position where it stopped and no other,
and gives the reason that was found there. -/
theorem verifyEntireChain_of_stop {before after : List Entry}
    (hnodup : ((before ++ entry :: after).map LogEntry.id).Nodup)
    (hbefore : firstFault H none before = none)
    (hcheck : checkEntry H before.getLast? entry = some fault) :
    (verifyEntireChain H (before ++ entry :: after)).isSuccess = false ∧
      (verifyEntireChain H (before ++ entry :: after)).reason = some fault.reason ∧
      ∀ j, (verifyEntireChain H (before ++ entry :: after)).Blames (before ++ entry :: after) j ↔
        j = before.length := by
  have hresult := verifyEntireChain_eq_failure_iff.mpr
    ⟨rfl, before, entry, after, rfl, hbefore, hcheck⟩
  exact ⟨by rw [hresult]; rfl, by rw [hresult]; rfl, blames_iff hnodup hbefore hcheck⟩

/-- The record behind one with another hash does not follow it any more. -/
theorem not_follows_of_forged {entries : List Entry} (hvalid : ValidChain H entries) {i : ℕ}
    (hi : i + 1 < entries.length) {forged : Entry}
    (hhash : forged.currentHash ≠ entries[i].currentHash) :
    ¬ entries[i + 1].Follows (some forged) := by
  intro hfollows
  have hloop := isSuccess_verifyEntireChain_iff_firstFault.mp
    (isSuccess_verifyEntireChain_iff.mpr hvalid)
  rw [firstFault_eq_none_iff_passes] at hloop
  have hnamed := (hloop (i + 1) hi).1
  rw [priorAt_succ (Nat.lt_of_succ_lt hi)] at hnamed
  exact hhash (Option.some.inj (hfollows.symm.trans hnamed))

/-- **Forged records are localised.** Exchanging a record that is not the last
one for another with another hash is reported at its place or at the next one,
and at the next one exactly when the forged record passes. Whatever is
exchanged, the report is not before the first record exchanged. -/
theorem forgery_localised {entries : List Entry}
    (hsuccess : (verifyEntireChain H entries).isSuccess = true) :
    (∀ (i : ℕ) (_ : i + 1 < entries.length) (forged : Entry),
      forged.currentHash ≠ entries[i].currentHash →
      ((entries.set i forged).map LogEntry.id).Nodup →
      (verifyEntireChain H (entries.set i forged)).isSuccess = false ∧
      ((verifyEntireChain H (entries.set i forged)).Blames (entries.set i forged) i ∨
        (verifyEntireChain H (entries.set i forged)).Blames (entries.set i forged) (i + 1)) ∧
      (∀ j, (verifyEntireChain H (entries.set i forged)).Blames (entries.set i forged) j →
        j = i ∨ j = i + 1) ∧
      ((verifyEntireChain H (entries.set i forged)).Blames (entries.set i forged) (i + 1) ∧
          (verifyEntireChain H (entries.set i forged)).reason = some .linkage ↔
        forged.Passes H (priorAt entries i))) ∧
    ∀ edited : List Entry, edited.length = entries.length → (edited.map LogEntry.id).Nodup →
      ∀ k : ℕ, (∀ j < k, edited[j]? = entries[j]?) →
        ∀ i : ℕ, (verifyEntireChain H edited).Blames edited i → k ≤ i := by
  rw [isSuccess_verifyEntireChain_iff] at hsuccess
  refine ⟨fun i hi forged hhash hnodup => ?_,
    fun edited _ hnodup k hagree i => le_of_blames hsuccess hnodup hagree⟩
  have hposition : i < entries.length := Nat.lt_of_succ_lt hi
  have hlength : (entries.take i).length = i := List.length_take_of_le hposition.le
  have hset : entries.set i forged =
      entries.take i ++ forged :: entries[i + 1] :: entries.drop (i + 2) := by
    rw [List.set_eq_take_append_cons_drop, if_pos hposition, List.drop_eq_getElem_cons hi]
  have hbefore : firstFault H none (entries.take i) = none := by
    rw [← isSuccess_verifyEntireChain_iff_firstFault, isSuccess_verifyEntireChain_iff]
    rw [← List.take_append_drop i entries] at hsuccess
    exact hsuccess.of_append
  rw [hset] at hnodup ⊢
  cases hforged : checkEntry H (priorAt entries i) forged with
  | some fault =>
    -- The forged record does not pass: the walk stops at it.
    obtain ⟨hfails, _, hblames⟩ := verifyEntireChain_of_stop hnodup hbefore hforged
    rw [hlength] at hblames
    refine ⟨hfails, .inl ((hblames i).mpr rfl), fun j hj => .inl ((hblames j).mp hj), ?_⟩
    rw [← checkEntry_eq_none_iff_passes, hforged]
    apply iff_of_false
    · rintro ⟨hnext, _⟩
      exact Nat.succ_ne_self i ((hblames (i + 1)).mp hnext)
    · exact Option.some_ne_none fault
  | none =>
    -- It passes: the next record names another hash.
    have hkept : firstFault H none (entries.take i ++ [forged]) = none :=
      (firstFault_snoc_eq_none_iff _).mpr ⟨hbefore, checkEntry_eq_none_iff_passes.mp hforged⟩
    have hcheck : checkEntry H (entries.take i ++ [forged]).getLast? entries[i + 1] = some
        ⟨entries[i + 1].id, .linkage, forged.currentHash,
          entries[i + 1].previousHash.getD []⟩ := by
      rw [List.getLast?_concat]
      exact if_pos (not_follows_of_forged hsuccess hi hhash)
    rw [List.append_cons] at hnodup ⊢
    obtain ⟨hfails, hreason, hblames⟩ := verifyEntireChain_of_stop hnodup hkept hcheck
    rw [List.length_append, hlength, List.length_singleton] at hblames
    refine ⟨hfails, .inr ((hblames (i + 1)).mpr rfl), fun j hj => .inr ((hblames j).mp hj), ?_⟩
    apply iff_of_true ⟨(hblames (i + 1)).mpr rfl, hreason⟩
    exact checkEntry_eq_none_iff_passes.mp hforged

/-- Another first record with its own hash is reported at the second. -/
theorem forgery_localised_rewritten :
    (verifyEntireChain sha256 (twoEntries.set 0 (firstRow "a" "c").asEntry)).isSuccess = false ∧
      (verifyEntireChain sha256 (twoEntries.set 0 (firstRow "a" "c").asEntry)).Blames
        (twoEntries.set 0 (firstRow "a" "c").asEntry) 1 := by
  have hforgery := (forgery_localised isSuccess_twoEntries).1 0 (by decide)
    (firstRow "a" "c").asEntry (by decide +kernel) (by decide)
  have hpasses : (firstRow "a" "c").asEntry.Passes sha256 none := by decide +kernel
  exact ⟨hforgery.1, (hforgery.2.2.2.mpr hpasses).1⟩

end TamperEvidentLog.Service
