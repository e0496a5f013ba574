import Comenq.Store.Identifier

/-!
# Queue scheduling and atomic enqueue projection

The model of `store/scheduling.rs` and of the reordering operations of `store.rs`. Operations that
draw a UUID take it as an argument; `reclaimClaims` takes one for each identifier.
-/

namespace Comenq

open Saturating JsonText

/-! ## Time markers -/

/-- Read a persisted Unix time; a missing file is no time. -/
def readMarker (invalid : ParseIntError → StoreError) :
    Option Bytes → Except StoreError (Option UInt64)
  | none => .ok none
  | some bytes =>
    match decodeUtf8 bytes with
    | none => .error (.io .invalidData)
    | some text =>
      match parseU64 (trim text) with
      | .error e => .error (invalid e)
      | .ok time => .ok (some time)

def lastPost (fs : QueueFs) : Except StoreError (Option UInt64) :=
  readMarker .lastPost fs.lastPost

def lastAttempt (fs : QueueFs) : Except StoreError (Option UInt64) :=
  readMarker .lastAttempt fs.lastAttempt

/-- The later of two optional times. -/
def latest : Option UInt64 → Option UInt64 → Option UInt64
  | none, b => b
  | a, none => a
  | some a, some b => some (maxU a b)

/-- Latest completed post or failed attempt, used as the cooldown anchor. -/
def previousActivity (fs : QueueFs) : Except StoreError (Option UInt64) := do
  let post ← lastPost fs
  let attempt ← lastAttempt fs
  pure (latest post attempt)

/-! ## Projection -/

/-- When an entry may post after the previous activity: the cooldown and its flutter later. -/
def dueAfter (cooldown now : UInt64) (e : StoredEntry) : Option UInt64 → UInt64
  | none => now
  | some previous => add (add previous cooldown) e.flutterSeconds

/-- The projected posting time of an entry. -/
def postAt (cooldown now : UInt64) (previous : Option UInt64) (e : StoredEntry) : UInt64 :=
  maxU (maxU (dueAfter cooldown now e previous) e.notBefore) now

/-- Project ordered entries onto their earliest posting times, as seconds from `now`. -/
def projectedSchedule (cooldown now : UInt64) :
    List StoredEntry → Option UInt64 → List (StoredEntry × UInt64)
  | [], _ => []
  | e :: es, previous =>
    let time := postAt cooldown now previous e
    (e, sub time now) :: projectedSchedule cooldown now es (some time)

/-- The wait listed for an identifier. -/
def etaOf (schedule : List (StoredEntry × UInt64)) (id : String) : UInt64 :=
  match schedule.find? fun p => p.1.id = id with
  | none => 0
  | some (_, eta) => eta

section Operations

variable (J : SerdeJson)

/-! ## Enqueueing -/

/-- The entry `put` appends to a queue. -/
def newEntry (request : CommentRequest) (options : PutOptions) (now : UInt64) (incarnation : Uuid)
    (id : String) (queue : List StoredEntry) : StoredEntry where
  id := id
  incarnation := incarnation.text
  order := match queue.getLast? with
    | none => 0
    | some tail => addI tail.order 1
  flutterSeconds := options.flutterSeconds
  enqueuedAt := now
  notBefore :=
    if options.immediate then 0 else add (add now options.cooldown) options.flutterSeconds
  claimToken := none
  request := request

/-- Enqueue `request` and return the persisted entry with its stable ETA. -/
def putWithEta (request : CommentRequest) (options : PutOptions) (now : UInt64)
    (incarnation : Uuid) : Store (StoredEntry × UInt64) := Traced.inspect fun fs =>
  match resolveEntryId J fs request now with
  | none => Traced.diverge
  | some (.error e) => Traced.fail e
  | some (.ok (id, existing)) => do
    let (queue, usage) ← Traced.read (entriesWithUsage J)
    let previous ← Traced.read previousActivity
    match existing with
    | some entry =>
      pure (entry, etaOf (projectedSchedule options.cooldown now queue previous) entry.id)
    | none =>
      if queue.length ≥ maxQueueEntries then Traced.fail (.queueFull maxQueueEntries)
      else do
        let entry := newEntry request options now incarnation id queue
        let eta :=
          etaOf (projectedSchedule options.cooldown now (queue ++ [entry]) previous) entry.id
        writeEntryWithUsage J entry usage
        pure (entry, eta)

/-! ## Reordering -/

/-- Apply an order-key change and atomically replace the entry's file. -/
def reorder (id : String) (newOrder : StoredEntry → List StoredEntry → Int64) : Store Unit := do
  let all ← Traced.read (entries J)
  let entry ← Traced.read fun fs => find J fs id
  writeEntry J { entry with order := newOrder entry all }

/-- The order key that puts an entry before the head of the queue. -/
def headOrder (entry : StoredEntry) (all : List StoredEntry) : Int64 :=
  match all.head? with
  | none => entry.order
  | some head => if head.id = entry.id then entry.order else subI head.order 1

/-- The order key that puts an entry behind the tail of the queue. -/
def tailOrder (entry : StoredEntry) (all : List StoredEntry) : Int64 :=
  match all.getLast? with
  | none => entry.order
  | some tail => if tail.id = entry.id then entry.order else addI tail.order 1

/-- Move the identified entry to the head of the queue. -/
def bump (id : String) : Store Unit := reorder J id headOrder

/-- Move the identified entry to the tail of the queue. -/
def bust (id : String) : Store Unit := reorder J id tailOrder

/-! ## Claims -/

/-- Pending entries paired with their estimated seconds until posting. -/
def schedule (cooldown now : UInt64) (fs : QueueFs) :
    Except StoreError (List (StoredEntry × UInt64)) := do
  let queue ← entries J fs
  let previous ← previousActivity fs
  pure (projectedSchedule cooldown now queue previous)

/-- The head entry and its wait; nothing while an entry is being posted. -/
def nextDue (cooldown now : UInt64) (fs : QueueFs) :
    Except StoreError (Option (StoredEntry × UInt64)) := do
  let planned ← schedule J cooldown now fs
  if planned.any fun p => p.1.claimToken.isSome then pure none
  else pure planned.head?

/-- Claim a due entry, or report how long the head has to wait. -/
def claimNextDue (cooldown now : UInt64) (token : Uuid) :
    Store (Option (StoredEntry × UInt64)) := do
  match ← Traced.read (nextDue J cooldown now) with
  | none => pure none
  | some (entry, wait) =>
    if wait > 0 then pure (some (entry, wait))
    else do
      let claimed := { entry with claimToken := some token.text }
      writeEntry J claimed
      pure (some (claimed, 0))

/-- Release a failed post's claim so the worker can retry it later. -/
def releaseClaim (id claimToken : String) (attemptedAt : UInt64) : Store Unit :=
  Traced.inspect fun fs =>
    match find J fs id with
    | .error (.unknownId _) => pure ()
    | .error e => Traced.fail e
    | .ok entry =>
      if entry.claimToken = some claimToken then do
        let previous ← Traced.read lastAttempt
        let latestAttempt := maxU (previous.getD 0) attemptedAt
        Traced.emit (.writeAtomic .lastAttempt (decimalU64 latestAttempt))
        writeEntry J { entry with claimToken := none }
      else pure ()

/-- An entry without its claim, and with a lifetime when it had none. -/
def StoredEntry.reclaimed (e : StoredEntry) (fresh : String → Uuid) : StoredEntry :=
  { e with
    claimToken := none
    incarnation := if e.incarnation = "" then (fresh e.id).text else e.incarnation }

def reclaimFrom (fresh : String → Uuid) : List StoredEntry → Store Unit
  | [] => pure ()
  | e :: es => do
    Traced.when (e.claimToken.isSome || e.incarnation == "") (writeEntry J (e.reclaimed fresh))
    reclaimFrom fresh es

/-- Clear interrupted claims and assign stable lifetimes to legacy entries. -/
def reclaimClaims (fresh : String → Uuid) : Store Unit := do
  let all ← Traced.read (entries J)
  reclaimFrom J fresh all

end Operations

end Comenq
