import Comenq.Lib.Signals
import Comenq.Store.System

/-!
# The waits of the posting worker

The model of the waits of `run_worker` in `worker.rs` and of the change signal of `queue.rs`. A
client mutation commits under the queue lock, refreshes the gauges and then calls `notify_one`; in
between, other tasks run. The worker claims; when there is nothing to post it waits for a change of
the queue, when the head is not due it waits for a change or for the head, and after a failed post
it waits for its retry deadline and consumes the notifications that arrive meanwhile.

A wait first polls the signal (`register`): it consumes a buffered permit or registers the worker.
-/

namespace Comenq

open Traced Signals

/-! ## States -/

/-- What the worker waits for. `scheduled` keeps the head it was told about, its wait in seconds and
the clock value at which it asked. -/
inductive Wait
  | empty
  | scheduled (head : StoredEntry) (seconds now : UInt64)
  | retry
deriving DecidableEq

/-- Where the worker is with respect to its waits. -/
inductive Station
  | running
  /-- About to poll the signal. -/
  | entering (w : Wait)
  /-- Registered with the signal. -/
  | parked (w : Wait)
  /-- The wait has been notified and will end when the worker is polled. -/
  | woken (w : Wait)
deriving DecidableEq

namespace Station

/-- The worker is in the wait and has not been notified. -/
def Waits (s : Station) (w : Wait) : Prop := s = .entering w ∨ s = .parked w

/-- Where a claim attempt at `now` sends the worker. -/
def afterClaim (now : UInt64) : Option (StoredEntry × UInt64) → Station
  | none => .entering .empty
  | some (head, seconds) =>
    if seconds > 0 then .entering (.scheduled head seconds now) else .running

/-- A notified worker leaves its wait; the retry wait only starts over. -/
def resumed : Wait → Station
  | .retry => .entering .retry
  | _ => .running

end Station

structure Daemon where
  world : World
  changed : Notify
  /-- Mutations that have committed and not yet called `notify_one`. -/
  unsent : Nat
  station : Station
  /-- The directory the last claim attempt read. -/
  seen : QueueFs

def Daemon.start : Daemon := ⟨World.start, .empty, 0, .running, QueueFs.empty⟩

/-! ## Steps -/

/-- Call `notify_one`. -/
def Daemon.notifyOne (d : Daemon) : Daemon :=
  { d with
    changed := d.changed.notifyOne
    station := match d.changed, d.station with
      | .waiting, .parked w => .woken w
      | _, station => station }

/-- Poll the signal at the start of a wait. -/
def Daemon.register (d : Daemon) (w : Wait) : Daemon :=
  { d with
    changed := d.changed.poll
    station := if d.changed = .permit then .woken w else .parked w }

/-- What the worker does between its waits, apart from claiming. -/
def Action.isWork : Action → Bool
  | .recover _ | .complete .. | .recordFailure .. | .release _ => true
  | _ => false

inductive Daemon.Step (J : SerdeJson) (cooldown : UInt64) (d : Daemon) : Daemon → Prop
  /-- A client's mutation succeeds under the lock. -/
  | commit {op : Op} {reply : Reply} (call : Calls d.world.phase (.listen op) op)
      (fresh : ∀ u ∈ op.draws, u ∉ d.world.used) (ok : (op.exec J d.world.fs).outcome = .ok reply) :
      Daemon.Step J cooldown d
        { d with
          world := ⟨final (op.exec J) d.world.fs, d.world.phase, op.draws ++ d.world.used⟩
          unsent := d.unsent + 1 }
  /-- A client's mutation is rejected; nobody is notified. -/
  | reject {op : Op} {err : StoreError} (call : Calls d.world.phase (.listen op) op)
      (fresh : ∀ u ∈ op.draws, u ∉ d.world.used)
      (error : (op.exec J d.world.fs).outcome = .error err) :
      Daemon.Step J cooldown d
        { d with world := ⟨final (op.exec J) d.world.fs, d.world.phase, op.draws ++ d.world.used⟩ }
  /-- A committed mutation, its gauges refreshed, notifies the worker. -/
  | notify (unsent : 0 < d.unsent) :
      Daemon.Step J cooldown d { d.notifyOne with unsent := d.unsent - 1 }
  | claim {now : UInt64} {token : Uuid} {due : Option (StoredEntry × UInt64)}
      (running : d.station = .running) (ready : d.world.phase = .up .ready)
      (fresh : token.text ∉ d.world.used)
      (ok : (claimNextDue J cooldown now token d.world.fs).outcome = .ok due) :
      Daemon.Step J cooldown d
        { d with
          world := ⟨final (claimNextDue J cooldown now token) d.world.fs,
            d.world.phase.returned (.claimNextDue cooldown now token) (.due due),
            token.text :: d.world.used⟩
          station := .afterClaim now due
          seen := d.world.fs }
  /-- A claim attempt fails part way and ends the worker's run. -/
  | claimFailed {now : UInt64} {token : Uuid} {fs' : QueueFs} (running : d.station = .running)
      (ready : d.world.phase = .up .ready) (fresh : token.text ∉ d.world.used)
      (leaves : (Op.claimNextDue cooldown now token).Leaves J d.world.fs fs') :
      Daemon.Step J cooldown d
        { d with world := ⟨fs', .up .stopped, token.text :: d.world.used⟩ }
  | work {a : Action} {w' : World} (running : d.station = .running) (act : a.isWork = true)
      (step : Comenq.Step J d.world a w') : Daemon.Step J cooldown d { d with world := w' }
  /-- A post has failed and its claim is released. -/
  | retry (running : d.station = .running) (ready : d.world.phase = .up .ready) :
      Daemon.Step J cooldown d { d with station := .entering .retry }
  | register {w : Wait} (entering : d.station = .entering w) :
      Daemon.Step J cooldown d (d.register w)
  | resume {w : Wait} (woken : d.station = .woken w) :
      Daemon.Step J cooldown d { d with station := .resumed w }
  /-- The timer of a wait elapses; only the empty-queue wait has none. -/
  | elapse {w : Wait} (waits : d.station = .parked w ∨ (d.station = .entering w ∧ w = .retry))
      (timed : w ≠ .empty) :
      Daemon.Step J cooldown d { d with station := .running, changed := d.changed.cancel }
  /-- The worker's run is ended; a notification it had not taken up is passed on or dropped. -/
  | leave {worker : Worker} {changed : Notify} (up : d.world.phase = .up worker)
      (signal : changed = d.changed.cancel ∨ changed = .permit) :
      Daemon.Step J cooldown d
        { d with
          world := { d.world with phase := .up .stopped }, station := .running, changed := changed }
  /-- The process dies and a new one opens the queue. -/
  | die : Daemon.Step J cooldown d
      { d with
        world := { d.world with phase := .down }, station := .running, changed := d.changed.cancel }
  | boot {fresh : String → Uuid} {w' : World} (running : d.station = .running)
      (step : Comenq.Step J d.world (.openQueue fresh) w') :
      Daemon.Step J cooldown d ⟨w', .empty, 0, .running, w'.fs⟩

inductive Daemon.Reachable (J : SerdeJson) (cooldown : UInt64) : Daemon → Prop
  | start : Daemon.Reachable J cooldown Daemon.start
  | step {d d' : Daemon} : Daemon.Reachable J cooldown d → Daemon.Step J cooldown d d' →
      Daemon.Reachable J cooldown d'

end Comenq
