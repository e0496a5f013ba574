import Comenq.Store.History
import Comenq.Store.Scheduling

/-!
# Deletion markers, completion journal and startup

The model of `store/await_deletions.rs` and `store/completion.rs`, with the deletion and the
opening of a store from `store.rs`. A completion is journalled before the queue is touched;
`reconcileCompletion` finishes whatever journal it finds.
-/

namespace Comenq

open JsonText

section Operations

variable (J : SerdeJson)

/-! ## Deletion markers -/

/-- Whether the latest queue lifetime was deleted without posting. -/
def awaitLifetimeWasDeleted (fs : QueueFs) (id : String) : Except StoreError Bool :=
  if isValidId id then .ok (fs.awaitDeletions.lookup id).isSome else .error (.invalidId id)

/-- Record a deletion before removing its entry so stale successes stay hidden. -/
def writeAwaitDeletion (entry : StoredEntry) : Store Unit :=
  if isValidId entry.id then
    Traced.emit (.writeAtomic (.awaitDeletion entry.id)
      (AwaitDeletionRecord.toVec ⟨entry.incarnation⟩))
  else Traced.fail (.invalidId entry.id)

/-- Whether the entry queued under `id`, if any, has this incarnation. -/
def currentMatches (fs : QueueFs) (id incarnation : String) : Except StoreError Bool :=
  match find J fs id with
  | .ok entry => .ok (entry.incarnation == incarnation)
  | .error (.unknownId _) => .ok false
  | .error e => .error e

/-- Remove a deletion marker when the posting belongs to it or its successor. -/
def clearAwaitDeletion (id incarnation : String) : Store Unit :=
  if isValidId id then Traced.inspect fun fs =>
    match fs.awaitDeletions.lookup id with
    | none => pure ()
    | some bytes =>
      match J.deletion bytes with
      | none => Traced.fail .serde
      | some marker => do
        let current ← Traced.read fun fs => currentMatches J fs id incarnation
        if marker.incarnation != incarnation && !current then pure ()
        else do
          Traced.emit (.removeFile (.awaitDeletion id))
          Traced.emit (.syncDir .awaitDeletions)
  else Traced.fail (.invalidId id)

/-- Remove the markers of queued entries; the flag tells whether one was removed. -/
def removeMarkers : List StoredEntry → Bool → Store Bool
  | [], removed => pure removed
  | e :: es, removed => Traced.inspect fun fs =>
    match awaitLifetimeWasDeleted fs e.id with
    | .error err => Traced.fail err
    | .ok true => do
      Traced.emit (.removeFile (.awaitDeletion e.id))
      removeMarkers es true
    | .ok false => removeMarkers es removed

/-- Clear a deletion marker left before a crash that did not remove its entry. -/
def reconcileAwaitDeletions : Store Unit := do
  let all ← Traced.read (entries J)
  let removed ← removeMarkers all false
  Traced.when removed (Traced.emit (.syncDir .awaitDeletions))

/-- Remove the identified entry from the queue. -/
def del (id : String) : Store Unit := do
  let entry ← Traced.read fun fs => find J fs id
  writeAwaitDeletion entry
  Traced.emit (.removeFile (.entry id))

/-! ## Completion -/

/-- Whether finishing a completion removes the queued entry: its claim is the journalled one. -/
def removesEntry (fs : QueueFs) (record : CompletionRecord) : Except StoreError Bool :=
  match find J fs record.id with
  | .ok entry =>
    match record.claimToken with
    | none => .ok true
    | some token => .ok (entry.claimToken == some token)
  | .error (.unknownId _) => .ok false
  | .error e => .error e

/-- Log the post of a journalled completion and clear the deletion marker it makes obsolete. -/
def recordCompletion (record : CompletionRecord) : Store Unit :=
  match record.history with
  | none => pure ()
  | some history => do
    appendOnce J history (record.historyOffset.getD 0)
    clearAwaitDeletion J record.id history.incarnation

/-- Carry out a journalled completion. -/
def finishCompletion (record : CompletionRecord) : Store Unit :=
  if isValidId record.id then do
    recordCompletion J record
    let removeEntry ← Traced.read fun fs => removesEntry J fs record
    Traced.when removeEntry (Traced.emit (.removeFile (.entry record.id)))
    Traced.emit (.writeAtomic .lastPost (decimalU64 record.postedAt))
    Traced.emit (.removeFile .completion)
    Traced.emit (.syncDir .root)
  else Traced.fail (.invalidId record.id)

/-- Finish a persisted completion record, if a previous cleanup stopped early. -/
def reconcileCompletion : Store Unit := Traced.inspect fun fs =>
  match fs.completion with
  | none => pure ()
  | some bytes =>
    match decodeUtf8 bytes with
    | none => Traced.fail (.io .invalidData)
    | some _ =>
      match J.completion bytes with
      | none => Traced.fail .serde
      | some record => finishCompletion J record

/-- The journal of a post of `entry`, for a history log of the given length. -/
def completionRecord (entry : StoredEntry) (tokenHash : String) (now : UInt64)
    (commentUrl : Option String) (attempt : Uuid) (historyLength : Nat) : CompletionRecord where
  id := entry.id
  postedAt := now
  claimToken := entry.claimToken
  history := some (.succeeded attempt entry tokenHash now commentUrl)
  historyOffset := some historyLength

/-- Complete a claimed post and persist its token identity for rotation. -/
def completeClaimWithToken (entry : StoredEntry) (tokenHash : String) (now : UInt64)
    (commentUrl : Option String) (attempt : Uuid) : Store Unit := do
  Traced.when entry.claimToken.isNone (Traced.read fun fs => (find J fs entry.id).map fun _ => ())
  Traced.inspect fun fs => Traced.emit (.writeAtomic .completion
    (completionRecord entry tokenHash now commentUrl attempt fs.historyBytes.length).toVec)
  reconcileCompletion J

/-- Reconcile an interrupted completion before reclaiming claims from an earlier worker. -/
def recoverWorkerState (fresh : String → Uuid) : Store Unit := do
  reconcileCompletion J
  reclaimClaims J fresh

/-- Open the store: finish a journalled completion, check the limits, then normalize. -/
def openStore (fresh : String → Uuid) : Store Unit := do
  reconcileCompletion J
  Traced.read (validateExistingLimits J)
  reclaimClaims J fresh
  reconcileAwaitDeletions J

end Operations

end Comenq
