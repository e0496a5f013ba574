import Comenq.Verify.QueueRuns

/-!
# The daemon

One queue directory is shared by the socket listener and the posting worker (`run_worker` of
`worker.rs`). Each store call runs under the queue lock, so calls do not overlap; a call may end
early with an error after any of its file-system steps, and the process may die at any of them.

A worker run starts with `recoverWorkerState`, then claims entries one at a time and completes or
releases each claim before it takes the next; an error ends the run and a later run starts over.
A failure to record a failed attempt is only logged. `used` keeps the UUIDs drawn so far, so that
every draw can be assumed fresh.
-/

namespace Comenq

open Traced CrashTrace

/-! ## States and actions -/

/-- Where the posting worker is. -/
inductive Worker
  | stopped
  | ready
  | holding (claim : StoredEntry)
deriving DecidableEq

inductive Phase
  | down
  | up (worker : Worker)
deriving DecidableEq

structure World where
  fs : QueueFs
  phase : Phase
  used : List String

/-- Before the first start: an empty directory and no process. -/
def World.start : World := ⟨QueueFs.empty, .down, []⟩

inductive Action
  | listen (op : Op)
  | recover (fresh : String → Uuid)
  | claim (cooldown now : UInt64) (token : Uuid)
  | complete (tokenHash : String) (now : UInt64) (commentUrl : Option String) (attempt : Uuid)
  | recordFailure (tokenHash : String) (now : UInt64) (error : String) (attempt : Uuid)
  | release (now : UInt64)
  | stop
  | die
  | openQueue (fresh : String → Uuid)
  | tamper (log : Option Bytes)

/-- The requests of clients that change the queue. -/
def Op.isRequest : Op → Bool
  | .put .. | .bump _ | .bust _ | .del _ => true
  | _ => false

/-- The UUIDs a call draws for the entry, claim or attempt it creates. -/
def Op.draws : Op → List String
  | .put _ _ _ incarnation => [incarnation.text]
  | .claimNextDue _ _ token => [token.text]
  | .completeClaim _ _ _ _ attempt => [attempt.text]
  | .appendHistory record => [record.attemptId]
  | _ => []

/-- The store call an action makes in a phase that allows it. -/
inductive Calls : Phase → Action → Op → Prop
  | listen {worker : Worker} {op : Op} (request : op.isRequest = true) :
      Calls (.up worker) (.listen op) op
  | recover (fresh : String → Uuid) :
      Calls (.up .stopped) (.recover fresh) (.recoverWorkerState fresh)
  | claim (cooldown now : UInt64) (token : Uuid) :
      Calls (.up .ready) (.claim cooldown now token) (.claimNextDue cooldown now token)
  | complete (e : StoredEntry) (tokenHash : String) (now : UInt64) (commentUrl : Option String)
      (attempt : Uuid) :
      Calls (.up (.holding e)) (.complete tokenHash now commentUrl attempt)
        (.completeClaim e tokenHash now commentUrl attempt)
  | recordFailure (e : StoredEntry) (tokenHash : String) (now : UInt64) (error : String)
      (attempt : Uuid) :
      Calls (.up (.holding e)) (.recordFailure tokenHash now error attempt)
        (.appendHistory (.failed attempt e tokenHash now error))
  | release {e : StoredEntry} {token : String} (now : UInt64) (claim : e.claimToken = some token) :
      Calls (.up (.holding e)) (.release now) (.releaseClaim e.id token now)
  | openQueue (fresh : String → Uuid) : Calls .down (.openQueue fresh) (.reopen fresh)

/-- The phase after a call that returned. -/
def Phase.returned (phase : Phase) : Op → Reply → Phase
  | .recoverWorkerState _, _ => .up .ready
  | .claimNextDue .., .due (some (e, wait)) => if wait = 0 then .up (.holding e) else phase
  | .completeClaim .., _ => .up .ready
  | .releaseClaim .., _ => .up .ready
  | .reopen _, _ => .up .stopped
  | _, _ => phase

/-- The phase after a call that failed: a worker run ends, a client gets an error reply. -/
def Phase.failed (phase : Phase) : Op → Phase
  | .recoverWorkerState _ | .claimNextDue .. | .completeClaim .. | .releaseClaim .. => .up .stopped
  | .reopen _ => .down
  | _ => phase

/-! A client's request leaves the worker where it is. -/

theorem Calls.isRequest {phase : Phase} {op op' : Op} (h : Calls phase (.listen op') op) :
    op.isRequest = true := by
  cases h with
  | listen hr => exact hr

theorem Phase.returned_request {phase : Phase} {op : Op} {reply : Reply} (h : op.isRequest = true) :
    phase.returned op reply = phase := by
  cases op <;> first | rfl | cases h

theorem Phase.failed_request {phase : Phase} {op : Op} (h : op.isRequest = true) :
    phase.failed op = phase := by
  cases op <;> first | rfl | cases h

/-! ## Steps and runs -/

/-- What an action may do. A failed or killed call has done any part of its work. -/
inductive Step (J : SerdeJson) (w : World) (a : Action) : World → Prop
  | returned {op : Op} {reply : Reply} (call : Calls w.phase a op)
      (fresh : ∀ u ∈ op.draws, u ∉ w.used) (ok : (op.exec J w.fs).outcome = .ok reply) :
      Step J w a ⟨final (op.exec J) w.fs, w.phase.returned op reply, op.draws ++ w.used⟩
  | failed {op : Op} {fs' : QueueFs} (call : Calls w.phase a op)
      (fresh : ∀ u ∈ op.draws, u ∉ w.used) (leaves : op.Leaves J w.fs fs') :
      Step J w a ⟨fs', w.phase.failed op, op.draws ++ w.used⟩
  | killed {op : Op} {fs' : QueueFs} (call : Calls w.phase a op)
      (fresh : ∀ u ∈ op.draws, u ∉ w.used) (leaves : op.Leaves J w.fs fs') :
      Step J w a ⟨fs', .down, op.draws ++ w.used⟩
  | stop {worker : Worker} (act : a = .stop) (up : w.phase = .up worker) :
      Step J w a { w with phase := .up .stopped }
  | die (act : a = .die) : Step J w a { w with phase := .down }
  | tamper {log : Option Bytes} (act : a = .tamper log) :
      Step J w a { w with fs := { w.fs with history := log } }

/-- A run from one state to another in which every step is as `P` says. -/
inductive Run (J : SerdeJson) (P : World → Action → Prop) (w : World) : World → Prop
  | refl : Run J P w w
  | step {w₁ w₂ : World} {a : Action} : Run J P w w₁ → P w₁ a → Step J w₁ a w₂ → Run J P w w₂

/-- The states of the daemon. -/
def World.Reachable (J : SerdeJson) (w : World) : Prop := Run J (fun _ _ => True) World.start w

/-- An invariant of all states that every permitted step keeps holds along a run. -/
theorem Run.invariant {J : SerdeJson} {P : World → Action → Prop} {I : World → Prop} {w w' : World}
    (hstep : ∀ w₁ a w₂, I w₁ → P w₁ a → Step J w₁ a w₂ → I w₂) (h : Run J P w w') (h0 : I w) :
    I w' := by
  induction h with
  | refl => exact h0
  | step _ hp hs ih => exact hstep _ _ _ ih hp hs

theorem Run.mono {J : SerdeJson} {P P' : World → Action → Prop} {w w' : World}
    (hP : ∀ w a, P w a → P' w a) (h : Run J P w w') : Run J P' w w' := by
  induction h with
  | refl => exact .refl
  | step _ hp hs ih => exact .step ih (hP _ _ hp) hs

theorem Run.trans {J : SerdeJson} {P : World → Action → Prop} {w w₁ w₂ : World}
    (h : Run J P w w₁) (h' : Run J P w₁ w₂) : Run J P w w₂ := by
  induction h' with
  | refl => exact h
  | step _ hp hs ih => exact .step ih hp hs

theorem World.Reachable.run {J : SerdeJson} {P : World → Action → Prop} {w w' : World}
    (h : w.Reachable J) (hr : Run J P w w') : w'.Reachable J :=
  Run.trans h (hr.mono fun _ _ _ => trivial)

theorem World.Reachable.step {J : SerdeJson} {w w' : World} {a : Action} (h : w.Reachable J)
    (hs : Step J w a w') : w'.Reachable J :=
  Run.step h trivial hs

/-! ## Simulation -/

/-- The call of an action, computed. -/
def Phase.call : Phase → Action → Option Op
  | .up _, .listen op => if op.isRequest then some op else none
  | .up .stopped, .recover fresh => some (.recoverWorkerState fresh)
  | .up .ready, .claim cooldown now token => some (.claimNextDue cooldown now token)
  | .up (.holding e), .complete tokenHash now commentUrl attempt =>
    some (.completeClaim e tokenHash now commentUrl attempt)
  | .up (.holding e), .recordFailure tokenHash now error attempt =>
    some (.appendHistory (.failed attempt e tokenHash now error))
  | .up (.holding e), .release now => e.claimToken.map fun token => .releaseClaim e.id token now
  | .down, .openQueue fresh => some (.reopen fresh)
  | _, _ => none

theorem Phase.calls_of_call {phase : Phase} {a : Action} {op : Op} (h : phase.call a = some op) :
    Calls phase a op := by
  unfold Phase.call at h
  split at h
  · split at h
    · next hreq => exact Option.some.inj h ▸ .listen hreq
    · cases h
  · exact Option.some.inj h ▸ .recover _
  · exact Option.some.inj h ▸ .claim _ _ _
  · exact Option.some.inj h ▸ .complete _ _ _ _ _
  · exact Option.some.inj h ▸ .recordFailure _ _ _ _ _
  · obtain ⟨token, ht, rfl⟩ := Option.map_eq_some_iff.1 h
    exact .release _ ht
  · exact Option.some.inj h ▸ .openQueue _
  · cases h

/-- Carry out an action in which no call is cut off. -/
def World.perform (J : SerdeJson) (w : World) (a : Action) : Option World :=
  match w.phase.call a with
  | some op =>
    if ∀ u ∈ op.draws, u ∉ w.used then
      match (op.exec J w.fs).outcome with
      | .ok reply => some ⟨final (op.exec J) w.fs, w.phase.returned op reply, op.draws ++ w.used⟩
      | _ => none
    else none
  | none =>
    match a, w.phase with
    | .stop, .up _ => some { w with phase := .up .stopped }
    | .die, _ => some { w with phase := .down }
    | .tamper log, _ => some { w with fs := { w.fs with history := log } }
    | _, _ => none

theorem World.step_of_perform {J : SerdeJson} {w w' : World} {a : Action}
    (h : w.perform J a = some w') : Step J w a w' := by
  unfold World.perform at h
  split at h
  · next op hcall =>
    split at h
    · next hfresh =>
      split at h
      · next reply hok => exact Option.some.inj h ▸ .returned (Phase.calls_of_call hcall) hfresh hok
      · cases h
    · cases h
  · split at h
    · next hup _ => exact Option.some.inj h ▸ .stop rfl hup
    · exact Option.some.inj h ▸ .die rfl
    · exact Option.some.inj h ▸ .tamper rfl
    · cases h

/-- The state after an action that can be carried out. -/
def World.performed (J : SerdeJson) (w : World) (a : Action) : World := (w.perform J a).getD w

theorem World.step_performed {J : SerdeJson} {w : World} {a : Action}
    (h : (w.perform J a).isSome = true) : Step J w a (w.performed J a) := by
  obtain ⟨w', hw'⟩ := Option.isSome_iff_exists.1 h
  unfold World.performed
  rw [hw']
  exact World.step_of_perform hw'

/-- The state after carrying out actions that are as `P` says, if all of them can be. -/
def World.after (J : SerdeJson) (P : World → Action → Prop) [∀ w a, Decidable (P w a)] (w : World)
    (as : List Action) : World :=
  (as.foldlM (fun w a => if P w a then w.perform J a else none) w).getD w

theorem World.run_after (J : SerdeJson) (P : World → Action → Prop) [∀ w a, Decidable (P w a)]
    (w : World) (as : List Action) : Run J P w (w.after J P as) := by
  have hfold : ∀ (as : List Action) (w w' : World),
      as.foldlM (fun w a => if P w a then w.perform J a else none) w = some w' → Run J P w w' := by
    intro as
    induction as with
    | nil => intro w w' h; exact Option.some.inj h ▸ .refl
    | cons a as ih =>
      intro w w' h
      rw [List.foldlM_cons, Option.bind_eq_bind, Option.bind_eq_some_iff] at h
      obtain ⟨w₁, h₁, h₂⟩ := h
      split at h₁
      · next hP => exact Run.trans (.step .refl hP (World.step_of_perform h₁)) (ih w₁ w' h₂)
      · cases h₁
  unfold World.after
  cases h : as.foldlM (fun w a => if P w a then w.perform J a else none) w with
  | none => exact .refl
  | some w' => exact hfold as w w' h

/-- The state after carrying out any actions from the start. -/
def World.afterStart (J : SerdeJson) (as : List Action) : World :=
  World.start.after J (fun _ _ => True) as

theorem World.reachable_afterStart (J : SerdeJson) (as : List Action) :
    (World.afterStart J as).Reachable J :=
  World.run_after J _ _ as

def sampleUuidStart : List Char := "00000000-0000-4000-8000-00000000000".toList

/-- UUIDs for sample runs, told apart by their last digit. -/
def sampleUuid (n : Nat) : Uuid where
  text := String.ofList (sampleUuidStart ++ [Nat.digitChar (n % 10)])
  length_eq := by
    rw [String.toList_ofList, List.length_append]
    rfl
  chars := by
    intro c hc
    rw [String.toList_ofList, List.mem_append, List.mem_singleton] at hc
    rcases hc with hc | rfl
    · have hall : sampleUuidStart.all isUuidChar = true := by decide +kernel
      exact List.all_eq_true.1 hall c hc
    · have hdigit : ∀ d < 10, isUuidChar (Nat.digitChar d) = true := by decide
      exact hdigit _ (Nat.mod_lt n (by decide))

def sampleRequest : CommentRequest := ⟨"octocat", "hello", 7, "ping"⟩

/-- Start the daemon and its worker. -/
def sampleBoot : List Action := [.openQueue fun _ => sampleUuid 0, .recover fun _ => sampleUuid 0]

end Comenq
