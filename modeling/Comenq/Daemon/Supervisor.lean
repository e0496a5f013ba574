import Comenq.Lib.Saturating
import Mathlib.Tactic

/-!
# Supervised tasks

The model of `supervise_task` in `supervisor.rs`: the loop that restarts a failed listener or worker
after a delay and leaves it stopped after a normal end or a shutdown. A step is one branch of its
`select!`; the events of a run are the ends of the task, the ends of its delays and of the grace
period, and the shutdown signal. Times are milliseconds.

Every delay sequence that `backoff` builds is jittered, so the sequences are given: `delays n k` is
the `k`-th delay of the `n`-th sequence built. The log of restarts is the loop's output
(`log_task_restart`); what every run says about it is in `Verify.Supervision`.
-/

namespace Comenq

open Saturating

/-- Used if a delay sequence is exhausted. -/
def backoffFallbackDelay : Nat := 1000

/-- A task must run this long before a later failure resets its restart backoff. -/
def stableTaskRun : Nat := 60 * 1000

/-- How a task ended; panics and cancellation count as failures. -/
inductive TaskEnd
  | completed
  | failed
deriving DecidableEq, Repr

/-- What is logged for a restart. -/
structure TaskRestart where
  attempt : Nat
  delay : Nat
  stableRunDuration : Nat
  backoffReset : Bool
deriving DecidableEq, Repr

/-- Where the loop is: at its `select!`, in the delay before a restart, in the grace period of a
shutdown, or left. -/
inductive TaskPhase
  | running (startedAt : Nat)
  | delaying (deadline : Nat)
  | stopping
  | stopped (aborted : Bool)
deriving DecidableEq, Repr

/-- The loop's variables: which delay sequence it uses, how much of it is taken, the number of the
last restart; with the restarts logged and the number of tasks spawned. -/
structure Supervisor where
  built : Nat
  taken : Nat
  restartAttempt : Nat
  log : List TaskRestart
  spawned : Nat
  phase : TaskPhase
deriving DecidableEq, Repr

inductive TaskEvent
  | shutdown
  | ended (how : TaskEnd) (now : Nat)
  | slept (now : Nat)
  | graceOver
deriving DecidableEq, Repr

namespace Supervisor

/-- The first task is spawned by the caller. -/
def start (now : Nat) : Supervisor := ⟨0, 0, 0, [], 1, .running now⟩

variable (delays : Nat → Nat → Option Nat)

/-- A failure at `now` of a task that ran for `duration`: take the next delay, from a new sequence
after a stable run. -/
def restart (s : Supervisor) (now duration : Nat) : Supervisor :=
  let reset := decide (stableTaskRun ≤ duration)
  let built := if reset then s.built + 1 else s.built
  let taken := if reset then 0 else s.taken
  let attempt := addNat s.restartAttempt 1
  let delay := (delays built taken).getD backoffFallbackDelay
  { s with
    built := built, taken := taken + 1, restartAttempt := attempt,
    log := s.log ++ [⟨attempt, delay, duration, reset⟩], phase := .delaying (now + delay) }

/-- One branch of the loop; other events do not occur at that place. -/
def step (s : Supervisor) (event : TaskEvent) : Option Supervisor :=
  match s.phase, event with
  | .running _, .shutdown => some { s with phase := .stopping }
  | .running _, .ended .completed _ => some { s with phase := .stopped false }
  | .running startedAt, .ended .failed now =>
    if startedAt ≤ now then some (s.restart delays now (now - startedAt)) else none
  | .delaying _, .shutdown => some { s with phase := .stopped false }
  | .delaying deadline, .slept now =>
    if deadline ≤ now then some { s with spawned := s.spawned + 1, phase := .running now } else none
  | .stopping, .ended _ _ => some { s with phase := .stopped false }
  | .stopping, .graceOver => some { s with phase := .stopped true }
  | _, _ => none

/-- The loop over a list of events. -/
def superviseTask (s : Supervisor) : List TaskEvent → Option Supervisor
  | [] => some s
  | event :: events => (s.step delays event).bind fun s' => s'.superviseTask events

end Supervisor

end Comenq
