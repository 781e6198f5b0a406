/-
# What chain verification decides

`verifyEntireChain` succeeds exactly on the valid chains: lists linked from the
genesis marker each of whose records carries the digest of its own fields. This
is the only thing the rest of the development needs to know about its loop.

A record's hash commits to the hash before it. The previous hash is either the
genesis marker or a digest, so it contains no `|` and can be read off the joined
bytes up to the first separator, whatever the other fields contain; and the
marker is too short to be a digest. With that, valid chains are chains in the
sense of `Protocol.HashChain`.
-/

import TamperEvidentLog.Protocol.HashChain
import TamperEvidentLog.Service.HashService

namespace TamperEvidentLog.Service

open TamperEvidentLog.Text TamperEvidentLog.Time TamperEvidentLog.Crypto
open TamperEvidentLog.Protocol

/-! ## The input of the hash -/

/-- The null branch writes what `JSON.stringify` would write. -/
theorem payloadText_eq_stringify (payload : JsonValue) :
    payloadText payload = payload.stringify := by
  unfold payloadText
  split
  case h_1 hnull =>
    rw [JsonValue.stringify, hnull]
    rfl
  case h_2 => rfl

/-- The part of the input behind the previous hash. -/
def HashData.contentText (data : HashData) : JsString :=
  joinWith 0x7C [data.actor, data.action, payloadText data.payload]

theorem hashInput_eq (data : HashData) :
    hashInput data =
      data.previousHash ++ 0x7C :: (data.contentText ++ 0x7C :: stampText data.ts) := by
  simp [hashInput, HashData.contentText]

/-- The bytes of a text around a separator. -/
theorem utf8_append_separator (before after : JsString) :
    utf8 (before ++ 0x7C :: after) = utf8 before ++ 0x7C :: utf8 after := by
  rw [utf8_append_cons (by decide), utf8_cons_ascii (by decide)]
  rfl

/-- The bytes of the input. -/
theorem utf8_hashInput (data : HashData) :
    utf8 (hashInput data) = utf8 data.previousHash ++ 0x7C ::
      (utf8 data.contentText ++ 0x7C :: utf8 (stampText data.ts)) := by
  rw [hashInput_eq, utf8_append_separator, utf8_append_separator]

/-- A text that can stand before the first separator without being confused
with what follows. -/
def IsLinkText (text : JsString) : Prop := ∀ u ∈ text, isAscii u = true ∧ u ≠ 0x7C

theorem isLinkText_genesisPreviousHash : IsLinkText genesisPreviousHash := by
  have hall : genesisPreviousHash.all (fun u => isAscii u && u != 0x7C) = true := by decide
  simpa [IsLinkText] using hall

theorem isLinkText_hex (H : Digest) (bytes : List UInt8) : IsLinkText (H.hex bytes) := by
  intro u hu
  refine ⟨Digest.isAscii_of_mem_hex hu, ?_⟩
  rintro rfl
  exact Digest.not_mem_hex (by decide) bytes hu

theorem IsLinkText.not_mem_utf8 {text : JsString} (htext : IsLinkText text) :
    (0x7C : UInt8) ∉ utf8 text := by
  rw [utf8_ascii fun u hu => (htext u hu).1]
  intro hmem
  obtain ⟨u, hu, hsep⟩ := List.mem_map.mp hmem
  exact (htext u hu).2 (toUInt8_inj_of_ascii (htext u hu).1 (by decide) hsep)

/-- The previous hash can be read off the bytes. -/
theorem previousHash_eq_of_utf8_hashInput_eq {first second : HashData}
    (hfirst : IsLinkText first.previousHash) (hsecond : IsLinkText second.previousHash)
    (hbytes : utf8 (hashInput first) = utf8 (hashInput second)) :
    first.previousHash = second.previousHash := by
  rw [utf8_hashInput, utf8_hashInput] at hbytes
  obtain ⟨hprevious, _⟩ :=
    append_cons_inj_of_left hfirst.not_mem_utf8 hsecond.not_mem_utf8 hbytes
  have hascii {text : JsString} (htext : IsLinkText text) : ∀ u ∈ text, isAscii u = true :=
    fun u hu => (htext u hu).1
  rw [utf8_ascii (hascii hfirst), utf8_ascii (hascii hsecond)] at hprevious
  exact map_toUInt8_inj_of_ascii (hascii hfirst) (hascii hsecond) hprevious

/-! ## Verified records -/

namespace LogEntry

/-- `entry.previousHash ?? GENESIS_PREVIOUS_HASH`. -/
def resolvedPreviousHash (entry : Entry) : JsString :=
  entry.previousHash.getD genesisPreviousHash

/-- The bytes whose digest the record's hash has to be. -/
def hashedBytes (entry : Entry) : List UInt8 :=
  utf8 (hashInput (entry.hashData entry.resolvedPreviousHash))

end LogEntry

/-- The text of a date contains no separator. -/
theorem isLinkText_toISOString (d : JsDate) : IsLinkText d.toISOString := by
  intro u hu
  have hunit := JsDate.isIsoUnit_of_mem_toISOString hu
  refine ⟨JsDate.isAscii_of_isIsoUnit hunit, ?_⟩
  rintro rfl
  exact absurd hunit (by decide)

/-- The bytes of a row: the hash before it, its content, its date. -/
theorem hashedBytes_asEntry (row : Row) :
    row.asEntry.hashedBytes = utf8 row.asEntry.resolvedPreviousHash ++ 0x7C ::
      (utf8 (joinWith 0x7C [row.actor, row.action, row.payload.stringify]) ++
        0x7C :: utf8 row.createdAt.toISOString) := by
  rw [LogEntry.hashedBytes, utf8_hashInput, HashData.contentText, payloadText_eq_stringify]
  rfl

variable (H : Digest)

/-- The check that `getLogById` makes of one record. -/
def verificationStatus (entry : Entry) : Bool :=
  verifyEntry H entry (some entry.resolvedPreviousHash)

variable {H}

theorem verificationStatus_iff {entry : Entry} :
    verificationStatus H entry = true ↔ entry.currentHash = H.hex entry.hashedBytes :=
  beq_iff_eq

theorem genesisPreviousHash_ne_hex (bytes : List UInt8) : H.hex bytes ≠ genesisPreviousHash :=
  Digest.hex_ne_of_length_ne (by decide) bytes

theorem currentHash_ne_genesis {entry : Entry} (hverified : verificationStatus H entry = true) :
    entry.currentHash ≠ genesisPreviousHash := by
  rw [verificationStatus_iff.mp hverified]
  exact genesisPreviousHash_ne_hex _

/-! ## Valid chains -/

/-- Records as blocks: a record names the hash before it and is named by its
own. -/
def chain : Linkage Entry JsString := ⟨LogEntry.resolvedPreviousHash, LogEntry.currentHash⟩

@[simp]
theorem chain_link (entry : Entry) : chain.link entry = entry.resolvedPreviousHash := rfl

@[simp]
theorem chain_tip (entry : Entry) : chain.tip entry = entry.currentHash := rfl

variable (H) in
/-- The records form a chain from the genesis marker and each carries the digest
of its own fields. -/
structure ValidChain (entries : List Entry) : Prop where
  /-- Every record names the one before it. -/
  linked : chain.Linked genesisPreviousHash entries
  /-- Every hash is the digest of the record's fields. -/
  verified : ∀ entry ∈ entries, verificationStatus H entry = true

theorem checkHash_eq_none_iff {previousHash : JsString} {entry : Entry} :
    checkHash H previousHash entry = none ↔
      entry.currentHash = generateHash H (entry.hashData previousHash) := by
  simp [checkHash]

/-- Naming a hash other than the genesis marker takes a `previousHash` that is
not null. -/
theorem previousHash_eq_some_iff (entry : Entry) {hash : JsString}
    (hhash : hash ≠ genesisPreviousHash) :
    entry.previousHash = some hash ↔ entry.resolvedPreviousHash = hash := by
  cases hprevious : entry.previousHash with
  | none => simp [LogEntry.resolvedPreviousHash, hprevious, hhash.symm]
  | some previousHash => simp [LogEntry.resolvedPreviousHash, hprevious]

/-- Naming the genesis marker can also be done with null. -/
theorem resolvedPreviousHash_eq_genesis_iff {entry : Entry} :
    entry.resolvedPreviousHash = genesisPreviousHash ↔
      entry.previousHash = some genesisPreviousHash ∨ entry.previousHash = none := by
  cases hprevious : entry.previousHash <;> simp [LogEntry.resolvedPreviousHash, hprevious]

/-- A record that names the hash before it faces only the last check. -/
theorem checkEntry_of_linked {prior : Option Entry} {entry : Entry}
    (hprior : ∀ p ∈ prior, p.currentHash ≠ genesisPreviousHash)
    (hlink : entry.resolvedPreviousHash = prior.elim genesisPreviousHash LogEntry.currentHash) :
    checkEntry H prior entry = checkHash H entry.resolvedPreviousHash entry := by
  cases prior with
  | none =>
    rw [Option.elim_none] at hlink
    rw [checkEntry, if_neg, hlink]
    rw [resolvedPreviousHash_eq_genesis_iff] at hlink
    tauto
  | some p =>
    rw [Option.elim_some] at hlink
    rw [checkEntry, if_neg, hlink]
    exact not_not.mpr ((previousHash_eq_some_iff entry (hprior p rfl)).mpr hlink)

/-- A record that does not is at fault. -/
theorem checkEntry_ne_none_of_not_linked {prior : Option Entry} {entry : Entry}
    (hprior : ∀ p ∈ prior, p.currentHash ≠ genesisPreviousHash)
    (hlink : entry.resolvedPreviousHash ≠ prior.elim genesisPreviousHash LogEntry.currentHash) :
    checkEntry H prior entry ≠ none := by
  cases prior with
  | none =>
    rw [Option.elim_none, Ne, resolvedPreviousHash_eq_genesis_iff, not_or] at hlink
    rw [checkEntry, if_pos hlink]
    exact Option.some_ne_none _
  | some p =>
    rw [Option.elim_some] at hlink
    rw [checkEntry, if_pos (mt (previousHash_eq_some_iff entry (hprior p rfl)).mp hlink)]
    exact Option.some_ne_none _

/-- The loop body finds no fault in a record exactly when the record names the
hash before it and verifies. -/
theorem checkEntry_eq_none_iff {prior : Option Entry} (entry : Entry)
    (hprior : ∀ p ∈ prior, p.currentHash ≠ genesisPreviousHash) :
    checkEntry H prior entry = none ↔
      entry.resolvedPreviousHash = prior.elim genesisPreviousHash LogEntry.currentHash ∧
        verificationStatus H entry = true := by
  by_cases hlink : entry.resolvedPreviousHash =
      prior.elim genesisPreviousHash LogEntry.currentHash
  · rw [checkEntry_of_linked hprior hlink, checkHash_eq_none_iff, verificationStatus_iff]
    exact (and_iff_right hlink).symm
  · exact iff_of_false (checkEntry_ne_none_of_not_linked hprior hlink) fun h => hlink h.1

/-- The loop finds no fault exactly in the records that continue a valid
chain. -/
theorem firstFault_eq_none_iff {prior : Option Entry} (entries : List Entry)
    (hprior : ∀ p ∈ prior, p.currentHash ≠ genesisPreviousHash) :
    firstFault H prior entries = none ↔
      chain.Linked (prior.elim genesisPreviousHash LogEntry.currentHash) entries ∧
        ∀ entry ∈ entries, verificationStatus H entry = true := by
  induction entries generalizing prior with
  | nil => simp [firstFault]
  | cons entry rest ih =>
    have hcheck := checkEntry_eq_none_iff (H := H) entry hprior
    rw [firstFault]
    split
    case h_1 fault hfault =>
      rw [hfault] at hcheck
      simp only [reduceCtorEq, false_iff] at hcheck ⊢
      rintro ⟨hlinked, hverified⟩
      exact hcheck ⟨hlinked.1, hverified entry (by simp)⟩
    case h_2 hnone =>
      obtain ⟨hlink, hverified⟩ := hcheck.mp hnone
      have hentry : ∀ p ∈ some entry, p.currentHash ≠ genesisPreviousHash := by
        intro p hp
        cases hp
        exact currentHash_ne_genesis hverified
      have hrest := ih hentry
      rw [hrest]
      simp [hlink, hverified]

/-- **Verification decides validity.** -/
theorem verifyEntireChain_eq_success_iff {entries : List Entry} {total : ℕ} :
    verifyEntireChain H entries = .success total ↔
      total = entries.length ∧ ValidChain H entries := by
  have hstart : ∀ p ∈ (none : Option Entry), p.currentHash ≠ genesisPreviousHash := by simp
  have hloop := firstFault_eq_none_iff (H := H) entries hstart
  rw [verifyEntireChain]
  split
  case h_1 fault hfault =>
    rw [hfault] at hloop
    simp only [reduceCtorEq, false_iff] at hloop ⊢
    rintro ⟨_, hvalid⟩
    exact hloop ⟨hvalid.linked, hvalid.verified⟩
  case h_2 hnone =>
    obtain ⟨hlinked, hverified⟩ := hloop.mp hnone
    rw [VerificationResult.success.injEq, eq_comm]
    exact ⟨fun htotal => ⟨htotal, hlinked, hverified⟩, And.left⟩

theorem isSuccess_verifyEntireChain_iff {entries : List Entry} :
    (verifyEntireChain H entries).isSuccess = true ↔ ValidChain H entries := by
  cases hresult : verifyEntireChain H entries with
  | success total =>
    exact iff_of_true rfl (verifyEntireChain_eq_success_iff.mp hresult).2
  | failure total fault =>
    apply iff_of_false Bool.false_ne_true
    intro hvalid
    rw [verifyEntireChain_eq_success_iff.mpr ⟨rfl, hvalid⟩] at hresult
    cases hresult

/-! ## Valid chains as chains of blocks -/

/-- A valid chain links texts that can be read off the bytes. -/
theorem ValidChain.isLinkText {entries : List Entry} (hvalid : ValidChain H entries)
    {entry : Entry} (hentry : entry ∈ entries) : IsLinkText entry.resolvedPreviousHash := by
  rcases hvalid.linked.link_eq_root_or_tip hentry with hroot | ⟨prior, hprior, htip⟩
  · rw [chain_link] at hroot
    rw [hroot]
    exact isLinkText_genesisPreviousHash
  · rw [chain_link, chain_tip, verificationStatus_iff.mp (hvalid.verified prior hprior)] at htip
    rw [htip]
    exact isLinkText_hex H _

/-- Records that verify and link such texts commit to what is before them, as
long as their inputs do not collide. -/
theorem commits_of_collisionFreeOn {among : Set Entry}
    (hverified : ∀ entry ∈ among, verificationStatus H entry = true)
    (hlinks : ∀ entry ∈ among, IsLinkText entry.resolvedPreviousHash)
    (hfree : H.CollisionFreeOn (LogEntry.hashedBytes '' among)) :
    chain.Commits genesisPreviousHash among where
  link_eq := by
    intro first hfirst second hsecond htip
    rw [chain_tip, chain_tip, verificationStatus_iff.mp (hverified first hfirst),
      verificationStatus_iff.mp (hverified second hsecond)] at htip
    have hbytes := hfree (Set.mem_image_of_mem _ hfirst) (Set.mem_image_of_mem _ hsecond) htip
    exact previousHash_eq_of_utf8_hashInput_eq (hlinks first hfirst) (hlinks second hsecond) hbytes
  tip_ne := fun entry hentry => currentHash_ne_genesis (hverified entry hentry)

/-- The records of a valid chain. -/
theorem ValidChain.commits {entries : List Entry} (hvalid : ValidChain H entries)
    (hfree : H.CollisionFreeOn (LogEntry.hashedBytes '' {entry | entry ∈ entries})) :
    chain.Commits genesisPreviousHash {entry | entry ∈ entries} :=
  commits_of_collisionFreeOn hvalid.verified (fun _ => hvalid.isLinkText) hfree

theorem validChain_nil : ValidChain H [] := ⟨trivial, by simp⟩

/-- Appending a record asks only for its link and its hash. -/
theorem validChain_snoc {entries : List Entry} {entry : Entry} :
    ValidChain H (entries ++ [entry]) ↔ ValidChain H entries ∧
      entry.resolvedPreviousHash = chain.tipOf genesisPreviousHash entries ∧
      verificationStatus H entry = true := by
  constructor
  · rintro ⟨hlinked, hverified⟩
    rw [Linkage.linked_snoc] at hlinked
    exact ⟨⟨hlinked.1, fun x hx => hverified x (by simp [hx])⟩, hlinked.2,
      hverified entry (by simp)⟩
  · rintro ⟨hvalid, hlink, hverified⟩
    refine ⟨Linkage.linked_snoc.mpr ⟨hvalid.linked, hlink⟩, fun x hx => ?_⟩
    rcases List.mem_append.mp hx with hx | hx
    · exact hvalid.verified x hx
    · rw [List.mem_singleton.mp hx]
      exact hverified

/-- The first records of a valid chain. -/
theorem ValidChain.of_append {first second : List Entry}
    (hvalid : ValidChain H (first ++ second)) : ValidChain H first :=
  ⟨(Linkage.linked_append.mp hvalid.linked).1, fun x hx => hvalid.verified x (by simp [hx])⟩

/-- A chain ends in the hash of its last record. -/
theorem tipOf_eq_elim_getLast? (entries : List Entry) :
    chain.tipOf genesisPreviousHash entries =
      entries.getLast?.elim genesisPreviousHash LogEntry.currentHash := by
  cases entries using List.reverseRecOn with
  | nil => rfl
  | append_singleton entries entry => simp

/-! ## Where a walk stops -/

/-- The loop over two lists is the loop over the first and, if that finds no
fault, over the second. -/
theorem firstFault_append (prior : Option Entry) (first second : List Entry) :
    firstFault H prior (first ++ second) =
      (firstFault H prior first).or (firstFault H (first.getLast?.or prior) second) := by
  induction first generalizing prior with
  | nil => simp [firstFault]
  | cons entry first ih =>
    rw [List.cons_append, firstFault, firstFault]
    split
    case h_1 => rfl
    case h_2 =>
      rw [ih]
      cases first with
      | nil => simp
      | cons next first => simp [List.getLast?_cons]

end TamperEvidentLog.Service
