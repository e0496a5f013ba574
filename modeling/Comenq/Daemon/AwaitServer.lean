import Comenq.Daemon.AwaitHandler
import Comenq.Daemon.SharedQueue

/-!
# Await connections beside the daemon's other tasks

The model of `await_entry` in `listener/await_handler.rs` and of the lookup loop of
`queue/await_lookup.rs`, interleaved with the store calls of other tasks. A store call takes the
queue lock, performs its file-system events one by one (an append may arrive in pieces) and
publishes the result before it gives the lock back. A lookup observes the queue under the lock, then
reads the deletion marker and the history log without it, at two moments of its own, and observes
the queue again; it starts over when the state version has changed in between.

Calls of other tasks either succeed or are rejected before they change anything.

A waiter keeps, besides what the handler keeps, what the statements speak of: the state version at
which its latest lookup began and at which that lookup last found nothing pending, how many
mutations its deciding round overlapped, the clock values it used, and the directories the queue had
while the lookup was under way and the lock was free.
-/

namespace Comenq

open Traced Signals

/-! ## Store calls of other tasks -/

/-- A call that holds the lock: what it still has to do, how it ends, and the length of the history
log when it took the lock. -/
structure Running where
  op : Op
  todo : List FsEvent
  outcome : Outcome StoreError Reply
  logged : Nat

/-- What all tasks share. -/
structure Shared where
  queue : SharedQueue
  running : Option Running

namespace Shared

abbrev fs (s : Shared) : QueueFs := s.queue.state.fs

/-- How many mutations have been published. -/
abbrev commits (s : Shared) : Nat := s.queue.stateVersion.sends

/-- The directory a locked lookup would read now. -/
def moment (s : Shared) : Set QueueFs := { fs | s.running = none ∧ fs = s.fs }

inductive Step (J : SerdeJson) (s : Shared) : Shared → Prop
  | acquire {op : Op} (free : s.running = none) (served : op.Served)
      (accepted : (∃ reply, (op.exec J s.fs).outcome = .ok reply) ∨ (op.exec J s.fs).trace = []) :
      Step J s ⟨s.queue, some ⟨op, (op.exec J s.fs).trace, (op.exec J s.fs).outcome,
        s.fs.historyBytes.length⟩⟩
  | perform {r : Running} {ev : FsEvent} {todo : List FsEvent} (running : s.running = some r)
      (next : r.todo = ev :: todo) :
      Step J s ⟨s.queue.withFs (s.fs.step ev), some { r with todo := todo }⟩
  /-- Part of an append arrives. -/
  | tear {r : Running} {a b : Bytes} {todo : List FsEvent} (running : s.running = some r)
      (next : r.todo = .appendHistory (a ++ b) :: todo) :
      Step J s ⟨s.queue.withFs (s.fs.step (.appendHistory a)),
        some { r with todo := .appendHistory b :: todo }⟩
  | release {r : Running} (running : s.running = some r) (finished : r.todo = []) :
      Step J s ⟨s.queue.settle r.op r.outcome, none⟩

end Shared

/-! ## Waiters -/

/-- Where a handler is. The stages from `observing` to `rechecking` are within `resolve_await`. -/
inductive AwaitStage
  | opened
  /-- At the top of the loop, before the check for shutdown. -/
  | looping
  | observing
  /-- Nothing was pending at this version; the marker is read next. -/
  | scanning (generation : UInt64)
  /-- No marker hides older posts; the log is read next. -/
  | marked (generation : UInt64)
  | rechecking (generation : UInt64) (completed : Except StoreError AwaitState)
  /-- `resolve_await` has returned. -/
  | resolved (result : Except StoreError AwaitState)
  | parked
  | finished

/-- Within `resolve_await`. -/
def AwaitStage.looking : AwaitStage → Bool
  | observing | scanning _ | marked _ | rechecking .. => true
  | _ => false

structure Waiter where
  id : String
  token : Option AwaitCursor
  stage : AwaitStage
  /-- The version last marked as seen. -/
  seen : Nat
  sent : List AwaitEvent
  /-- The version when the latest lookup began. -/
  began : Nat
  /-- The version when the current round of the lookup found nothing pending. -/
  first : Nat
  /-- The mutations published between the two observations of the deciding round. -/
  gap : Nat
  /-- The clock value of the latest observation. -/
  asked : UInt64
  /-- The clock values of the latest lookup's observations. -/
  clocks : Set UInt64
  /-- The directories of the queue, while the lock was free, since the latest lookup began. -/
  moments : Set QueueFs

namespace Waiter

/-- A handler for `id`; a caller of the use case may bring a token it was given before. -/
def start (id : String) (token : Option AwaitCursor) : Waiter where
  id := id
  token := token
  stage := .opened
  seen := 0
  sent := []
  began := 0
  first := 0
  gap := 0
  asked := 0
  clocks := ∅
  moments := ∅

/-- Another task's step has left the shared state as `s`. -/
def witness (w : Waiter) (s : Shared) : Waiter :=
  if w.stage.looking then { w with moments := w.moments ∪ s.moment } else w

/-- The end of the handler with a terminal frame. -/
def close (w : Waiter) (event : AwaitEvent) : Waiter :=
  { w with stage := .finished, sent := w.sent ++ [event] }

/-- Whether a deletion marker hides older posts from this lookup. -/
def hidden (fs : QueueFs) (id : String) : Option AwaitCursor → Except StoreError Bool
  | none => awaitLifetimeWasDeleted fs id
  | some _ => .ok false

/-- The newest matching completion of the log. -/
def newest (J : SerdeJson) (fs : QueueFs) (id : String) (token : Option AwaitCursor) : AwaitState :=
  match latestCompletion J fs id token with
  | none => .unknown
  | some record => .posted record.commentUrl record.postedAt

/-- After the first observation of a round, made at version `version`. -/
def observed (w : Waiter) (now : UInt64) (version : Nat) : Except StoreError AwaitSnapshot → Waiter
  | .error err =>
    { w with
      stage := .resolved (.error err), gap := 0, asked := now, clocks := insert now w.clocks }
  | .ok ⟨_, some pending⟩ =>
    { w with
      stage := .resolved (.ok pending), gap := 0, asked := now, clocks := insert now w.clocks }
  | .ok ⟨generation, none⟩ =>
    { w with
      stage := .scanning generation, first := version, asked := now, clocks := insert now w.clocks }

/-- After the marker was read. -/
def markerRead (w : Waiter) (generation : UInt64) : Except StoreError Bool → Waiter
  | .error err => { w with stage := .rechecking generation (.error err) }
  | .ok true => { w with stage := .rechecking generation (.ok .unknown) }
  | .ok false => { w with stage := .marked generation }

/-- After the second observation of a round: the scan counts if the version is the same. -/
def rechecked (w : Waiter) (generation : UInt64) (completed : Except StoreError AwaitState)
    (now : UInt64) (version : Nat) : Except StoreError AwaitSnapshot → Waiter
  | .error err =>
    { w with
      stage := .resolved (.error err), gap := 0, asked := now, clocks := insert now w.clocks }
  | .ok ⟨_, some pending⟩ =>
    { w with
      stage := .resolved (.ok pending), gap := 0, asked := now, clocks := insert now w.clocks }
  | .ok ⟨current, none⟩ =>
    if current = generation then
      { w with
        stage := .resolved completed, gap := version - w.first, asked := now
        clocks := insert now w.clocks }
    else { w with stage := .observing, asked := now, clocks := insert now w.clocks }

/-- After a frame was sent. -/
def replied (w : Waiter) : AwaitEvent × Option AwaitCursor → Waiter
  | (event, none) => w.close event
  | (event, some selected) =>
    { w with stage := .parked, token := some selected, sent := w.sent ++ [event] }

/-- A step of one waiter, with the queue it leaves behind; only observations touch the queue. -/
inductive Step (J : SerdeJson) (cooldown : UInt64) (s : Shared) (w : Waiter) :
    SharedQueue → Waiter → Prop
  | subscribe (opened : w.stage = .opened) :
      Step J cooldown s w s.queue { w with stage := .looping, seen := s.commits }
  /-- All permits are taken. -/
  | refuse (opened : w.stage = .opened) : Step J cooldown s w s.queue (w.close capacityEvent)
  | shutdown (idle : w.stage = .looping ∨ w.stage = .parked) :
      Step J cooldown s w s.queue (w.close shutdownEvent)
  /-- A frame could not be sent. -/
  | gone (sending : w.stage = .opened ∨ w.stage = .looping ∨ w.stage = .parked ∨
        ∃ result, w.stage = .resolved result) :
      Step J cooldown s w s.queue { w with stage := .finished }
  | lookup (looping : w.stage = .looping) :
      Step J cooldown s w s.queue
        { w with stage := .observing, began := s.commits, clocks := ∅, moments := s.moment }
  | observe (now : UInt64) (observing : w.stage = .observing) (free : s.running = none) :
      Step J cooldown s w (s.queue.observeAwaitState J w.id w.token cooldown now).2
        (w.observed now s.commits (s.queue.observeAwaitState J w.id w.token cooldown now).1)
  | readMarker {generation : UInt64} (scanning : w.stage = .scanning generation) :
      Step J cooldown s w s.queue (w.markerRead generation (hidden s.fs w.id w.token))
  | readHistory {generation : UInt64} (marked : w.stage = .marked generation) :
      Step J cooldown s w s.queue
        { w with stage := .rechecking generation (.ok (newest J s.fs w.id w.token)) }
  | recheck {generation : UInt64} {completed : Except StoreError AwaitState} (now : UInt64)
      (rechecking : w.stage = .rechecking generation completed) (free : s.running = none) :
      Step J cooldown s w (s.queue.observeAwaitState J w.id w.token cooldown now).2
        (w.rechecked generation completed now s.commits
          (s.queue.observeAwaitState J w.id w.token cooldown now).1)
  | reply {result : Except StoreError AwaitState} (resolved : w.stage = .resolved result) :
      Step J cooldown s w s.queue (w.replied (respond w.token (result.mapError .ofStore)))
  /-- The subscription is ready; `changed` marks the version it returns for. -/
  | wake (parked : w.stage = .parked) (ready : s.queue.stateVersion.Ready w.seen) :
      Step J cooldown s w s.queue { w with stage := .looping, seen := s.commits }
  | heartbeat (parked : w.stage = .parked) :
      Step J cooldown s w s.queue { w with stage := .looping }

end Waiter

/-! ## The system -/

structure AwaitServer (ι : Type) where
  shared : Shared
  waiters : ι → Waiter

namespace AwaitServer

variable {ι : Type} [DecidableEq ι]

def start (fs : QueueFs) (ids : ι → String) (tokens : ι → Option AwaitCursor) : AwaitServer ι :=
  ⟨⟨.new fs, none⟩, fun i => .start (ids i) (tokens i)⟩

inductive Step (J : SerdeJson) (cooldown : UInt64) (s : AwaitServer ι) : AwaitServer ι → Prop
  | task {shared : Shared} (step : s.shared.Step J shared) :
      Step J cooldown s ⟨shared, fun i => (s.waiters i).witness shared⟩
  | waiter {queue : SharedQueue} {w : Waiter} (i : ι)
      (step : (s.waiters i).Step J cooldown s.shared queue w) :
      Step J cooldown s ⟨⟨queue, s.shared.running⟩, Function.update s.waiters i w⟩

/-- The states of a daemon that opened any directory. Tokens lie within the log: they are handed out
by pending lookups, with the length of the log. -/
inductive Reachable (J : SerdeJson) (cooldown : UInt64) : AwaitServer ι → Prop
  | start {fs : QueueFs} {ids : ι → String} {tokens : ι → Option AwaitCursor}
      (within : ∀ i, ∀ token ∈ tokens i, token.offset ≤ fs.historyBytes.length) :
      Reachable J cooldown (start fs ids tokens)
  | step {s s' : AwaitServer ι} : Reachable J cooldown s → s.Step J cooldown s' →
      Reachable J cooldown s'

end AwaitServer

end Comenq
