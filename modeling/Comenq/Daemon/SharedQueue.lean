import Comenq.Lib.Signals
import Comenq.Store.Operations

/-!
# The queue shared by the daemon's tasks

The model of `queue/store_access.rs` and of the locked part of `queue/await_lookup.rs`. Store calls
run under one lock. A call whose operation name is on the list of mutations and that succeeds drops
the cached projection and publishes a new state version before it gives the lock back; the version
is a 64-bit number that wraps around.

Await lookups share one projection of the schedule for each version and clock second. The projection
maps identifiers to waits and is built by collecting the schedule into a hash map, in which the last
of several pairs with one key wins.
-/

namespace Comenq

open Traced Signals

/-! ## State -/

/-- One projection shared by all waiters for a state version and clock second. -/
structure AwaitSchedule where
  builtAt : UInt64
  etas : List (String × UInt64)
deriving DecidableEq

/-- What the lock protects: the store and the cached projection. -/
structure QueueState where
  fs : QueueFs
  awaitSchedule : Option AwaitSchedule

structure SharedQueue where
  state : QueueState
  stateVersion : Watch UInt64

/-- A queue that has just been opened. -/
def SharedQueue.new (fs : QueueFs) : SharedQueue := ⟨⟨fs, none⟩, ⟨0, 0⟩⟩

/-! ## Store calls -/

/-- Operations that can alter an await lookup or its projected schedule. -/
def Op.isStateMutation : Op → Bool
  | .put .. | .bump _ | .bust _ | .del _ | .claimNextDue .. | .completeClaim .. | .releaseClaim ..
  | .recoverWorkerState _ => true
  | .reopen _ | .appendHistory _ => false

/-- The calls of the daemon's tasks on an open queue: client mutations, the worker's calls for
entries it was handed, and records of failed attempts. -/
def Op.Served : Op → Prop
  | .reopen _ => False
  | .appendHistory record => record.success = false
  | op => op.Sound

theorem Op.Served.sound {op : Op} (h : op.Served) : op.Sound := by
  cases op <;> first | exact h | trivial

/-- Drop the projection and publish a new state version. -/
def SharedQueue.publish (q : SharedQueue) : SharedQueue :=
  ⟨⟨q.state.fs, none⟩, q.stateVersion.sendModify (· + 1)⟩

/-- What `with_state` does with the result of a call before it gives the lock back. -/
def SharedQueue.settle (q : SharedQueue) (op : Op) : Outcome StoreError Reply → SharedQueue
  | .ok _ => if op.isStateMutation then q.publish else q
  | _ => q

/-- Replace the directory. -/
def SharedQueue.withFs (q : SharedQueue) (fs : QueueFs) : SharedQueue :=
  { q with state := { q.state with fs := fs } }

section Calls

variable (J : SerdeJson)

/-- Run a store call under the lock. -/
def SharedQueue.withStore (q : SharedQueue) (op : Op) : SharedQueue :=
  (q.withFs (final (op.exec J) q.state.fs)).settle op (op.exec J q.state.fs).outcome

/-! ## Await lookups under the lock -/

/-- The projection, collected into a map. -/
def collectEtas (planned : List (StoredEntry × UInt64)) : List (String × UInt64) :=
  planned.map fun p => (p.1.id, p.2)

/-- The wait a projection lists for an identifier, zero when it lists none. -/
def AwaitSchedule.eta (projection : AwaitSchedule) (id : String) : UInt64 :=
  (projection.etas.reverse.lookup id).getD 0

/-- Build the projection; on an error the cache stays as it is. -/
def rebuildEta (fs : QueueFs) (cache : Option AwaitSchedule) (id : String) (cooldown now : UInt64) :
    Except StoreError UInt64 × Option AwaitSchedule :=
  match schedule J cooldown now fs with
  | .error e => (.error e, cache)
  | .ok planned =>
    let projection : AwaitSchedule := ⟨now, collectEtas planned⟩
    (.ok (projection.eta id), some projection)

/-- Refresh at most once per version and clock second. -/
def cachedEta (fs : QueueFs) (cache : Option AwaitSchedule) (id : String) (cooldown now : UInt64) :
    Except StoreError UInt64 × Option AwaitSchedule :=
  match cache with
  | none => rebuildEta J fs none id cooldown now
  | some projection =>
    if projection.builtAt = now then (.ok (projection.eta id), some projection)
    else rebuildEta J fs (some projection) id cooldown now

/-- The queued entry a lookup projects, if it selects one. -/
def selectedEntry (fs : QueueFs) (id : String) (cursor : Option AwaitCursor) : Option StoredEntry :=
  match find J fs id with
  | .error _ => none
  | .ok entry => if cursorSelects cursor entry then some entry else none

/-- Resolve only the selected pending lifetime while the queue is locked. -/
def resolvePending (s : QueueState) (id : String) (cursor : Option AwaitCursor)
    (cooldown now : UInt64) : Except StoreError (Option AwaitState) × QueueState :=
  let eta := fun entry : StoredEntry => cachedEta J s.fs s.awaitSchedule entry.id cooldown now
  (resolveAwaitPendingWithEta J s.fs id cursor fun entry => (eta entry).1,
    match selectedEntry J s.fs id cursor with
    | none => s
    | some entry => { s with awaitSchedule := (eta entry).2 })

/-- What a locked observation of `resolve_await` returns: the state version and the pending
answer. -/
structure AwaitSnapshot where
  generation : UInt64
  pending : Option AwaitState
deriving DecidableEq

/-- Observe the queue under the lock. -/
def SharedQueue.observeAwaitState (q : SharedQueue) (id : String) (cursor : Option AwaitCursor)
    (cooldown now : UInt64) : Except StoreError AwaitSnapshot × SharedQueue :=
  let (pending, state) := resolvePending J q.state id cursor cooldown now
  (pending.map fun pending => ⟨q.stateVersion.value, pending⟩, { q with state := state })

end Calls

end Comenq
