import Comenq.Store.Completion
import Comenq.Store.Recent

/-!
# Pending-first lookup of an entry's posting outcome

The model of `store/await_lookup.rs`. A wait first looks for a queued entry; the first pending
answer carries a cursor (the length of the history log and the entry's incarnation), and later
lookups with that cursor only see this lifetime of the identifier.
-/

namespace Comenq

open JsonText LineLog

/-- The history boundary and lifetime selected by the first pending lookup. -/
structure AwaitCursor where
  /-- Byte boundary before attempts belonging to the selected wait. -/
  offset : Nat
  incarnation : String
deriving DecidableEq, Repr

/-- Current durable outcome of a wait. -/
inductive AwaitState
  | pending (etaSeconds : UInt64) (cursor : AwaitCursor)
  | posted (commentUrl : Option String) (postedAt : UInt64)
  | unknown
deriving DecidableEq, Repr

section Lookup

variable (J : SerdeJson)

/-- A success of `id`, of the cursor's incarnation when there is a cursor. -/
def isCompletionOf (id : String) (cursor : Option AwaitCursor) (record : HistoryRecord) : Bool :=
  record.id == id && record.success &&
    match cursor with
    | none => true
    | some cursor => record.incarnation == cursor.incarnation

/-- Find the newest success, excluding attempts from older incarnations. -/
def latestCompletion (fs : QueueFs) (id : String) (cursor : Option AwaitCursor) :
    Option HistoryRecord :=
  match fs.history with
  | none => none
  | some log =>
    let minimum := match cursor with
      | none => 0
      | some cursor => cursor.offset
    (scanReverse J (fun (s : Unit) _ record => (s, isCompletionOf id cursor record))
      log log.length minimum ()).2

/-- A pending answer keeps the given cursor, or starts one at the end of the log. -/
def pendingAwaitState (fs : QueueFs) (entry : StoredEntry) (cursor : Option AwaitCursor)
    (etaSeconds : UInt64) : AwaitState :=
  match cursor with
  | some cursor => .pending etaSeconds cursor
  | none => .pending etaSeconds ⟨fs.historyBytes.length, entry.incarnation⟩

/-- Resolve a matching queued lifetime without consulting the history log. -/
def resolveAwaitPendingWithEta (fs : QueueFs) (id : String) (cursor : Option AwaitCursor)
    (eta : StoredEntry → Except StoreError UInt64) : Except StoreError (Option AwaitState) :=
  match find J fs id with
  | .ok entry =>
    if (match cursor with
      | none => true
      | some cursor => cursor.incarnation == entry.incarnation) then
      match eta entry with
      | .error e => .error e
      | .ok etaSeconds => .ok (some (pendingAwaitState fs entry cursor etaSeconds))
    else .ok none
  | .error (.unknownId _) => .ok none
  | .error e => .error e

/-- Resolve durable completion. Without a cursor, a deletion marker hides older posts. -/
def resolveAwaitCompletion (fs : QueueFs) (id : String) (cursor : Option AwaitCursor) :
    Except StoreError AwaitState := do
  let hidden ← match cursor with
    | none => awaitLifetimeWasDeleted fs id
    | some _ => pure false
  if hidden then pure .unknown
  else match latestCompletion J fs id cursor with
    | none => pure .unknown
    | some record => pure (.posted record.commentUrl record.postedAt)

def resolveAwaitWithEta (fs : QueueFs) (id : String) (cursor : Option AwaitCursor)
    (eta : StoredEntry → Except StoreError UInt64) : Except StoreError AwaitState := do
  match ← resolveAwaitPendingWithEta J fs id cursor eta with
  | some pending => pure pending
  | none => resolveAwaitCompletion J fs id cursor

/-- The wait the schedule lists for an entry. -/
def scheduledEta (fs : QueueFs) (cooldown now : UInt64) (entry : StoredEntry) :
    Except StoreError UInt64 := do
  let planned ← schedule J cooldown now fs
  pure (etaOf planned entry.id)

/-- Resolve pending entries before history, binding repeat lookups to one lifetime. -/
def resolveAwait (fs : QueueFs) (id : String) (cursor : Option AwaitCursor)
    (cooldown now : UInt64) : Except StoreError AwaitState :=
  resolveAwaitWithEta J fs id cursor (scheduledEta J fs cooldown now)

end Lookup

section Cases

variable {J : SerdeJson} {fs : QueueFs} {id : String} {cursor : Option AwaitCursor}
  {eta : StoredEntry → Except StoreError UInt64}

/-- The lookup is for any lifetime, or for the one of the entry. -/
def cursorSelects (cursor : Option AwaitCursor) (entry : StoredEntry) : Bool :=
  match cursor with
  | none => true
  | some cursor => cursor.incarnation == entry.incarnation

theorem resolveAwaitPending_of_ok {e : StoredEntry} (hf : find J fs id = .ok e) :
    resolveAwaitPendingWithEta J fs id cursor eta =
      if cursorSelects cursor e then
        (eta e).map fun etaSeconds => some (pendingAwaitState fs e cursor etaSeconds)
      else .ok none := by
  unfold resolveAwaitPendingWithEta
  rw [hf]
  by_cases hs : cursorSelects cursor e = true
  · rw [if_pos hs]
    refine (if_pos hs).trans ?_
    cases eta e <;> rfl
  · rw [if_neg hs]
    exact if_neg hs

/-- The answer when no entry is found: nothing is pending, or the lookup fails. -/
def notPending : StoreError → Except StoreError (Option AwaitState)
  | .unknownId _ => .ok none
  | err => .error err

theorem resolveAwaitPending_of_error {err : StoreError} (hf : find J fs id = .error err) :
    resolveAwaitPendingWithEta J fs id cursor eta = notPending err := by
  unfold resolveAwaitPendingWithEta
  rw [hf]
  cases err <;> rfl

end Cases

end Comenq
