import Comenq.Store.FileSystem
import Mathlib.Data.List.Sort
import Mathlib.Data.Prod.Lex
import Mathlib.Data.String.Basic

/-!
# Bounded queue-entry reads, admission, and list materialization

The model of `store/bounds.rs` and of the entry lookups of `store.rs`: the directory scan with its
count and byte limits, the headroom reserved for later updates of an entry, the sorted list of
pending entries, and the checks made before an entry file is written.
-/

namespace Comenq

open Saturating JsonText

/-! ## Accounting -/

/-- Reject an entry size above its durable per-file limit. -/
def ensureEntrySize (size limit : Nat) : Except StoreError Unit :=
  if size > limit then .error (.entryTooLarge size limit) else .ok ()

/-- Reject a write whose persisted bytes and remaining reservations exceed the budget. -/
def ensureQueueBytes (used requested : Nat) : Except StoreError Unit :=
  if addNat used requested > maxQueueBytes then
    .error (.queueByteBudgetExceeded used requested maxQueueBytes)
  else .ok ()

/-- The pretty-printed UUID field is absent in legacy records and adds 57 bytes. -/
def incarnationGrowth (entry : StoredEntry) : Nat := if entry.incarnation = "" then 57 else 0

/-- Remaining reservation for the only fields changed after enqueue. -/
def entryHeadroom (entry : StoredEntry) : Nat :=
  let orderGrowth := (decimal entry.order.toInt).length - 1
  let claimGrowth := match entry.claimToken with
    | none => 0
    | some token => (quote token).length - 4
  addNat (entryMutationHeadroomBytes - orderGrowth - claimGrowth) (incarnationGrowth entry)

/-- Worst-case growth for order, claim and incarnation updates. -/
def maximumMutationGrowth (entry : StoredEntry) : Nat :=
  let orderGrowth := 20 - (decimal entry.order.toInt).length
  let claimBytes := match entry.claimToken with
    | none => 4
    | some token => (quote token).length
  let claimGrowth := 38 - claimBytes
  addNat (addNat orderGrowth claimGrowth) (incarnationGrowth entry)

/-- Metadata needed to enforce the durable limits before retaining entry data. -/
structure QueueUsage where
  count : Nat
  bytes : Nat
  headroomBytes : Nat
deriving DecidableEq, Repr

/-! ## Reading entries -/

/-- A regular file found by the directory scan. -/
structure EntryFile where
  stem : String
  bytes : Bytes
deriving DecidableEq, Repr

/-- Collect the regular entry files, enforcing the count and aggregate limits as they appear. -/
def scanFrom : List (Σ _ : String, Node) → List EntryFile → Nat →
    Except StoreError (List EntryFile × Nat)
  | [], paths, bytes => .ok (paths, bytes)
  | ⟨_, .other⟩ :: rest, paths, bytes => scanFrom rest paths bytes
  | ⟨stem, .file b⟩ :: rest, paths, bytes =>
    if paths.length = maxQueueEntries then .error (.queueFull maxQueueEntries)
    else
      match ensureQueueBytes bytes b.length with
      | .error e => .error e
      | .ok () => scanFrom rest (paths ++ [⟨stem, b⟩]) (addNat bytes b.length)

def scanEntryFiles (fs : QueueFs) : Except StoreError (List EntryFile × QueueUsage) :=
  match scanFrom fs.entries.entries [] 0 with
  | .error e => .error e
  | .ok (paths, bytes) => .ok (paths, ⟨paths.length, bytes, 0⟩)

/-- Posting order: the order key, then the enqueue time, then the identifier. -/
def StoredEntry.key (e : StoredEntry) : ℤ ×ₗ ℕ ×ₗ String :=
  toLex (e.order.toInt, toLex (e.enqueuedAt.toNat, e.id))

def sortEntries (es : List StoredEntry) : List StoredEntry :=
  es.insertionSort fun a b => a.key ≤ b.key

section Reader

variable (J : SerdeJson)

/-- Deserialize one entry file of acceptable size. -/
def readEntryBytes (bytes : Bytes) : Except StoreError StoredEntry :=
  match ensureEntrySize bytes.length maxEntryBytes with
  | .error e => .error e
  | .ok () =>
    match J.entry bytes with
    | none => .error .serde
    | some entry => .ok entry

def readEntry (fs : QueueFs) (stem : String) : Except StoreError StoredEntry :=
  match fs.entries.lookup stem with
  | none => .error (.io .notFound)
  | some .other => .error (.io .invalidData)
  | some (.file bytes) => readEntryBytes J bytes

/-- Retain the readable entries whose identifier is safe and names their file. -/
def collectFrom : List EntryFile → List StoredEntry → Nat →
    Except StoreError (List StoredEntry × Nat)
  | [], entries, headroom => .ok (entries, headroom)
  | f :: rest, entries, headroom =>
    match readEntryBytes J f.bytes with
    | .error _ => collectFrom rest entries headroom
    | .ok entry =>
      if !isValidId entry.id then collectFrom rest entries headroom
      else if f.stem = entry.id then
        let required := addNat f.bytes.length (maximumMutationGrowth entry)
        if required > maxEntryBytes then .error (.entryTooLarge required maxEntryBytes)
        else collectFrom rest (entries ++ [entry]) (addNat headroom (entryHeadroom entry))
      else collectFrom rest entries headroom

/-- Read a bounded directory snapshot and retain its metadata for admission. -/
def entriesWithUsage (fs : QueueFs) : Except StoreError (List StoredEntry × QueueUsage) :=
  match scanEntryFiles fs with
  | .error e => .error e
  | .ok (files, usage) =>
    match collectFrom J files [] usage.headroomBytes with
    | .error e => .error e
    | .ok (entries, headroom) =>
      .ok (sortEntries entries, { usage with headroomBytes := headroom })

/-- Pending entries in posting order, skipping unreadable records. -/
def entries (fs : QueueFs) : Except StoreError (List StoredEntry) :=
  (entriesWithUsage J fs).map Prod.fst

/-- Read one entry by identifier, preserving typed missing-entry errors. -/
def find (fs : QueueFs) (id : String) : Except StoreError StoredEntry :=
  if isValidId id then
    match readEntry J fs id with
    | .error (.io .notFound) => .error (.unknownId id)
    | .error e => .error e
    | .ok entry => if entry.id = id then .ok entry else .error (.invalidId entry.id)
  else .error (.invalidId id)

/-! ## Writing entries -/

/-- Size of the file an entry write replaces, when there is one. -/
def previousBytes (fs : QueueFs) (id : String) : Except StoreError (Option Nat) :=
  match fs.entries.lookup id with
  | none => .ok none
  | some .other => .error (.io .invalidData)
  | some (.file bytes) => .ok (some bytes.length)

/-- Reservation of the entry a write replaces. -/
def previousHeadroom (fs : QueueFs) (id : String) : Option Nat → Except StoreError Nat
  | none => .ok 0
  | some _ => (readEntry J fs id).map entryHeadroom

/-- The checks made before an entry is persisted, against a scanned metadata snapshot. -/
def admitEntry (fs : QueueFs) (entry : StoredEntry) (usage : QueueUsage) :
    Except StoreError Unit :=
  if isValidId entry.id then
    match previousBytes fs entry.id with
    | .error e => .error e
    | .ok previous =>
      let newBytes := entry.toVecPretty.length
      let count := usage.count + (if previous.isNone then 1 else 0)
      let entryLimit :=
        if previous.isNone then maxEntryBytes - entryMutationHeadroomBytes else maxEntryBytes
      if count > maxQueueEntries then .error (.queueFull maxQueueEntries)
      else
        match ensureEntrySize newBytes entryLimit with
        | .error e => .error e
        | .ok () =>
          match previousHeadroom J fs entry.id previous with
          | .error e => .error e
          | .ok replaced =>
            let usedBytes := usage.bytes - previous.getD 0
            let otherHeadroom := usage.headroomBytes - replaced
            let requestedBytes := addNat (addNat newBytes otherHeadroom) (entryHeadroom entry)
            ensureQueueBytes usedBytes requestedBytes
  else .error (.invalidId entry.id)

/-- Persist an entry using a previously scanned store metadata snapshot. -/
def writeEntryWithUsage (entry : StoredEntry) (usage : QueueUsage) : Store Unit := do
  Traced.read fun fs => admitEntry J fs entry usage
  Traced.emit (.writeAtomic (.entry entry.id) entry.toVecPretty)

/-- Persist an updated entry after rechecking the durable capacity. -/
def writeEntry (entry : StoredEntry) : Store Unit := do
  let (_, usage) ← Traced.read (entriesWithUsage J)
  writeEntryWithUsage J entry usage

/-- Validate startup data after bounded entry reads account for reservations. -/
def validateExistingLimits (fs : QueueFs) : Except StoreError Unit :=
  match entriesWithUsage J fs with
  | .error e => .error e
  | .ok (_, usage) => ensureQueueBytes usage.bytes usage.headroomBytes

end Reader

end Comenq
