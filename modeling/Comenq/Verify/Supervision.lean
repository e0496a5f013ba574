import Comenq.Daemon.Supervisor

/-!
# Restarts of a supervised task

What holds along every run of the supervisor's loop. The restarts it logs are numbered without gaps,
and each takes the next delay of the sequence in use; a sequence is left exactly after a stable run
(`restart_delays_follow_backoff`). If the sequences never end and their delays are at least the
configured minimum, restarts are no more frequent than that (`restarts_rate_limited`). After a
normal end or a shutdown no task is spawned (`no_restart_after_end`).

The first two are invariants of one step, `Follows` and `Paced`, carried along a run by
`superviseTask_invariant`.
-/

namespace Comenq

open Saturating

namespace Supervisor

variable {delays : Nat → Nat → Option Nat} {s s' : Supervisor} {event : TaskEvent}

/-! ## One step -/

/-- Everything a step can do. -/
theorem step_cases (h : s.step delays event = some s') :
    (∃ startedAt now, s.phase = .running startedAt ∧ event = .ended .failed now ∧ startedAt ≤ now ∧
      s' = s.restart delays now (now - startedAt)) ∨
    (∃ deadline now, s.phase = .delaying deadline ∧ event = .slept now ∧ deadline ≤ now ∧
      s' = { s with spawned := s.spawned + 1, phase := .running now }) ∨
    (∃ startedAt, s.phase = .running startedAt ∧ event = .shutdown ∧
      s' = { s with phase := .stopping }) ∨
    ∃ aborted, s' = { s with phase := .stopped aborted } := by
  unfold step at h
  split at h
  · next startedAt hw =>
    cases h
    exact Or.inr (Or.inr (Or.inl ⟨startedAt, hw, rfl, rfl⟩))
  · cases h
    exact Or.inr (Or.inr (Or.inr ⟨false, rfl⟩))
  · next startedAt now hw =>
    split at h
    · next hle =>
      cases h
      exact Or.inl ⟨startedAt, now, hw, rfl, hle, rfl⟩
    · cases h
  · cases h
    exact Or.inr (Or.inr (Or.inr ⟨false, rfl⟩))
  · next deadline now hw =>
    split at h
    · next hle =>
      cases h
      exact Or.inr (Or.inl ⟨deadline, now, hw, rfl, hle, rfl⟩)
    · cases h
  · cases h
    exact Or.inr (Or.inr (Or.inr ⟨false, rfl⟩))
  · cases h
    exact Or.inr (Or.inr (Or.inr ⟨true, rfl⟩))
  · cases h

/-- What every step keeps holds after every run. -/
theorem superviseTask_invariant {I : Supervisor → Prop} {events : List TaskEvent}
    (hstep : ∀ {s event s'}, I s → s.step delays event = some s' → I s') (hs : I s)
    (h : s.superviseTask delays events = some s') : I s' := by
  induction events generalizing s with
  | nil => cases h; exact hs
  | cons event events ih =>
    obtain ⟨s₁, hone, hrest⟩ := Option.bind_eq_some_iff.1 h
    exact ih (hstep hs hone) hrest

theorem superviseTask_append {events events' : List TaskEvent} :
    s.superviseTask delays (events ++ events') =
      (s.superviseTask delays events).bind fun s₁ => s₁.superviseTask delays events' := by
  induction events generalizing s with
  | nil => rfl
  | cons event events ih =>
    change (s.step delays event).bind _ = ((s.step delays event).bind _).bind _
    rw [Option.bind_assoc]
    congr 1
    funext s₁
    exact ih

/-! ## The delays of the restarts -/

end Supervisor

/-- The delay sequence of the `i`-th restart: one more after each stable run. -/
def sequenceOf (log : List TaskRestart) (i : Nat) : Nat :=
  (log.take (i + 1)).countP TaskRestart.backoffReset

/-- How many of the first `i` restarts took a delay of sequence `n`. -/
def takenFrom (log : List TaskRestart) (i n : Nat) : Nat :=
  (List.range i).countP fun k => sequenceOf log k == n

section Log

variable {log : List TaskRestart} {r : TaskRestart} {i n : Nat}

theorem sequenceOf_concat_lt (h : i < log.length) :
    sequenceOf (log ++ [r]) i = sequenceOf log i := by
  unfold sequenceOf
  rw [List.take_append_of_le_length h]

theorem sequenceOf_concat_length :
    sequenceOf (log ++ [r]) log.length = (log ++ [r]).countP TaskRestart.backoffReset := by
  unfold sequenceOf
  rw [List.take_of_length_le (by simp)]

theorem sequenceOf_le : sequenceOf log i ≤ log.countP TaskRestart.backoffReset :=
  (List.take_sublist (i + 1) log).countP_le

theorem takenFrom_concat_le (h : i ≤ log.length) :
    takenFrom (log ++ [r]) i n = takenFrom log i n := by
  apply List.countP_congr
  intro k hk
  rw [sequenceOf_concat_lt ((List.mem_range.1 hk).trans_le h)]

theorem takenFrom_succ :
    takenFrom log (i + 1) n = takenFrom log i n + if sequenceOf log i = n then 1 else 0 := by
  unfold takenFrom
  rw [List.range_succ, List.countP_append, List.countP_singleton]
  simp only [beq_iff_eq]

/-- A sequence not started yet has given no delay. -/
theorem takenFrom_eq_zero (h : log.countP TaskRestart.backoffReset < n) :
    takenFrom log i n = 0 := by
  apply List.countP_eq_zero.2
  intro k _ hk
  have hle := @sequenceOf_le log k
  rw [beq_iff_eq.1 hk] at hle
  omega

end Log

/-- The `i`-th restart of a log has its number and its delay. -/
def TaskRestart.Follows (delays : Nat → Nat → Option Nat) (log : List TaskRestart) (i : Nat)
    (r : TaskRestart) : Prop :=
  r.attempt = min (i + 1) maxU64 ∧
  r.backoffReset = decide (stableTaskRun ≤ r.stableRunDuration) ∧
  r.delay =
    (delays (sequenceOf log i) (takenFrom log i (sequenceOf log i))).getD backoffFallbackDelay

namespace Supervisor

variable {delays : Nat → Nat → Option Nat} {s s' : Supervisor} {event : TaskEvent}

/-- The loop's variables are where the log says. -/
structure Follows (delays : Nat → Nat → Option Nat) (s : Supervisor) : Prop where
  attempt : s.restartAttempt = min s.log.length maxU64
  built : s.built = s.log.countP TaskRestart.backoffReset
  taken : s.taken = takenFrom s.log s.log.length s.built
  restarts : ∀ (i : Nat) (r : TaskRestart), s.log[i]? = some r → r.Follows delays s.log i

theorem follows_start (now : Nat) : (start now).Follows delays := by
  refine ⟨rfl, rfl, rfl, ?_⟩
  intro i r hr
  cases hr

/-- A failure keeps the variables in step with the log it extends. -/
theorem Follows.restart (h : s.Follows delays) (now duration : Nat) :
    (s.restart delays now duration).Follows delays := by
  set reset := decide (stableTaskRun ≤ duration) with hreset
  set built := if reset then s.built + 1 else s.built with hbuilt
  set taken := if reset then 0 else s.taken with htaken
  set r : TaskRestart := ⟨addNat s.restartAttempt 1, (delays built taken).getD backoffFallbackDelay,
    duration, reset⟩ with hr
  have hlog : (s.restart delays now duration).log = s.log ++ [r] := rfl
  have hcount : (s.log ++ [r]).countP TaskRestart.backoffReset = built := by
    rw [List.countP_append, List.countP_singleton, ← h.built, hbuilt]
    cases hv : reset <;> simp [hr, hv]
  have hprior : takenFrom s.log s.log.length built = taken := by
    rw [htaken, hbuilt]
    cases hv : reset with
    | true =>
      -- the new sequence is behind all that the log has used
      simp only [if_true]
      exact takenFrom_eq_zero (by rw [← h.built]; omega)
    | false =>
      simp only [Bool.false_eq_true, if_false]
      exact h.taken.symm
  have hattempt : addNat s.restartAttempt 1 = min (s.log.length + 1) maxU64 := by
    rw [h.attempt]
    unfold addNat
    omega
  have hnew : r.Follows delays (s.log ++ [r]) s.log.length := by
    refine ⟨hattempt, rfl, ?_⟩
    rw [sequenceOf_concat_length, hcount, takenFrom_concat_le (Nat.le_refl _), hprior]
  refine ⟨?_, hcount.symm, ?_, ?_⟩
  · rw [hlog, List.length_append]
    exact hattempt
  · change taken + 1 = takenFrom (s.log ++ [r]) (s.log ++ [r]).length built
    rw [List.length_append, List.length_singleton, takenFrom_succ,
      takenFrom_concat_le (Nat.le_refl _), hprior, sequenceOf_concat_length, hcount, if_pos rfl]
  · intro i x hx
    rw [hlog] at hx ⊢
    rcases Nat.lt_or_ge i s.log.length with hi | hi
    · rw [List.getElem?_append_left hi] at hx
      obtain ⟨ha, hd, hdelay⟩ := h.restarts i x hx
      refine ⟨ha, hd, ?_⟩
      rw [sequenceOf_concat_lt hi, takenFrom_concat_le hi.le]
      exact hdelay
    · rw [List.getElem?_append_right hi, List.getElem?_singleton] at hx
      split at hx
      · next hzero =>
        obtain rfl := Option.some.inj hx
        obtain rfl : i = s.log.length := by omega
        exact hnew
      · cases hx

theorem Follows.step (h : s.Follows delays) (hs : s.step delays event = some s') :
    s'.Follows delays := by
  obtain ⟨startedAt, now, -, -, -, rfl⟩ | ⟨_, _, -, -, -, rfl⟩ | ⟨_, -, -, rfl⟩ | ⟨_, rfl⟩ :=
    step_cases hs
  · exact h.restart now (now - startedAt)
  · exact ⟨h.attempt, h.built, h.taken, h.restarts⟩
  · exact ⟨h.attempt, h.built, h.taken, h.restarts⟩
  · exact ⟨h.attempt, h.built, h.taken, h.restarts⟩

end Supervisor

/-- In every run the restarts are numbered from one on, the delay sequence is replaced exactly when
the task had run for a minute, and each restart takes the first delay of its sequence that no
earlier one took. -/
theorem restart_delays_follow_backoff {delays : Nat → Nat → Option Nat} {now : Nat}
    {events : List TaskEvent} {s : Supervisor}
    (h : (Supervisor.start now).superviseTask delays events = some s) {i : Nat} {r : TaskRestart}
    (hr : s.log[i]? = some r) :
    r.attempt = min (i + 1) maxU64 ∧
    r.backoffReset = decide (stableTaskRun ≤ r.stableRunDuration) ∧
    r.delay =
      (delays (sequenceOf s.log i) (takenFrom s.log i (sequenceOf s.log i))).getD
        backoffFallbackDelay :=
  (Supervisor.superviseTask_invariant Supervisor.Follows.step
    (Supervisor.follows_start now) h).restarts i r hr

/-- A task that fails, fails again at once, and then after a minute. -/
def sampleFailures : List TaskEvent :=
  [.ended .failed 10, .slept 110, .ended .failed 120, .slept 320, .ended .failed 60320]

def sampleSupervised : Supervisor where
  built := 1
  taken := 1
  restartAttempt := 3
  log := [⟨1, 100, 10, false⟩, ⟨2, 200, 10, false⟩, ⟨3, 100, 60000, true⟩]
  spawned := 3
  phase := .delaying 60420

/-- The delays of a sequence without jitter. -/
def sampleDelays (_ k : Nat) : Option Nat := some (100 * 2 ^ k)

theorem restart_delays_follow_backoff_sample :
    (Supervisor.start 0).superviseTask sampleDelays sampleFailures = some sampleSupervised ∧
    sampleSupervised.log[2]? = some ⟨3, 100, 60000, true⟩ ∧
    (sampleDelays (sequenceOf sampleSupervised.log 2)
      (takenFrom sampleSupervised.log 2 (sequenceOf sampleSupervised.log 2))).getD
        backoffFallbackDelay = 100 := by
  have hrun : (Supervisor.start 0).superviseTask sampleDelays sampleFailures =
      some sampleSupervised := by
    decide
  exact ⟨hrun, rfl, (restart_delays_follow_backoff hrun (i := 2) rfl).2.2.symm⟩

/-! ## How often a task is restarted -/

namespace Supervisor

variable {delays : Nat → Nat → Option Nat} {s s' : Supervisor} {event : TaskEvent} {m first : Nat}

/-- Every task but the first was preceded by a delay of at least `m`. -/
def Paced (m first : Nat) (s : Supervisor) : Prop :=
  match s.phase with
  | .running startedAt => first + s.spawned * m ≤ startedAt + m
  | .delaying deadline => first + s.spawned * m ≤ deadline
  | .stopping => True
  | .stopped _ => True

theorem paced_start (m now : Nat) : (start now).Paced m now := by
  change now + 1 * m ≤ now + m
  omega

theorem Paced.step (hmin : ∀ n k, ∃ d, delays n k = some d ∧ m ≤ d) (h : s.Paced m first)
    (hs : s.step delays event = some s') : s'.Paced m first := by
  unfold Paced at h
  obtain ⟨startedAt, now, hw, -, hle, rfl⟩ | ⟨deadline, now, hw, -, hle, rfl⟩ |
      ⟨_, -, -, rfl⟩ | ⟨_, rfl⟩ := step_cases hs
  · rw [hw] at h
    obtain ⟨d, hd, hmd⟩ := hmin
      (if decide (stableTaskRun ≤ now - startedAt) then s.built + 1 else s.built)
      (if decide (stableTaskRun ≤ now - startedAt) then 0 else s.taken)
    change first + s.spawned * m ≤ now + (delays _ _).getD backoffFallbackDelay
    rw [hd, Option.getD_some]
    omega
  · rw [hw] at h
    change first + (s.spawned + 1) * m ≤ now + m
    rw [Nat.add_mul, Nat.one_mul]
    omega
  · trivial
  · trivial

end Supervisor

/-- If the delay sequences never end and keep to the minimum `m`, a task running since `startedAt`
that is the `n`-th one spawned has been preceded by `n - 1` delays of at least `m`. -/
theorem restarts_rate_limited {delays : Nat → Nat → Option Nat} {m now : Nat}
    (hmin : ∀ n k, ∃ d, delays n k = some d ∧ m ≤ d) {events : List TaskEvent} {s : Supervisor}
    (h : (Supervisor.start now).superviseTask delays events = some s) {startedAt : Nat}
    (hw : s.phase = .running startedAt) : now + s.spawned * m ≤ startedAt + m := by
  have hpaced := Supervisor.superviseTask_invariant (I := Supervisor.Paced m now)
    (fun hs => Supervisor.Paced.step hmin hs) (Supervisor.paced_start m now) h
  unfold Supervisor.Paced at hpaced
  rw [hw] at hpaced
  exact hpaced

theorem restarts_rate_limited_sample :
    (∀ n k, ∃ d, sampleDelays n k = some d ∧ 100 ≤ d) ∧
    ∃ s, (Supervisor.start 0).superviseTask sampleDelays (sampleFailures ++ [.slept 60420]) =
        some s ∧
      s.spawned = 4 ∧ 0 + s.spawned * 100 ≤ 60420 + 100 := by
  have hmin : ∀ n k, ∃ d, sampleDelays n k = some d ∧ 100 ≤ d :=
    fun _ k => ⟨100 * 2 ^ k, rfl, Nat.le_mul_of_pos_right 100 (Nat.two_pow_pos k)⟩
  have hrun : (Supervisor.start 0).superviseTask sampleDelays (sampleFailures ++ [.slept 60420]) =
      some { sampleSupervised with spawned := 4, phase := .running 60420 } := by decide
  exact ⟨hmin, _, hrun, rfl, restarts_rate_limited hmin hrun rfl⟩

/-! ## The end of the loop -/

namespace Supervisor

variable {delays : Nat → Nat → Option Nat} {s s' : Supervisor} {event : TaskEvent}

/-- The loop has been left. -/
theorem step_stopped {aborted : Bool} (h : s.phase = .stopped aborted) (event : TaskEvent) :
    s.step delays event = none := by
  unfold step
  rw [h]

/-- From the grace period the loop is left, with nothing spawned. -/
theorem step_stopping (h : s.phase = .stopping) (hs : s.step delays event = some s') :
    ∃ aborted, s' = { s with phase := .stopped aborted } := by
  unfold step at hs
  rw [h] at hs
  cases event with
  | shutdown => cases hs
  | ended how now => cases hs; exact ⟨false, rfl⟩
  | slept now => cases hs
  | graceOver => cases hs; exact ⟨true, rfl⟩

/-- A shutdown or a normal end leads to the grace period or out of the loop. -/
theorem step_final (hevent : event = .shutdown ∨ ∃ now, event = .ended .completed now)
    (hs : s.step delays event = some s') :
    s' = { s with phase := .stopping } ∨ ∃ aborted, s' = { s with phase := .stopped aborted } := by
  obtain ⟨_, now, -, rfl, -, -⟩ | ⟨_, now, -, rfl, -, -⟩ | ⟨_, -, -, rfl⟩ | ⟨aborted, rfl⟩ :=
    step_cases hs
  · rcases hevent with hevent | ⟨_, hevent⟩ <;> cases hevent
  · rcases hevent with hevent | ⟨_, hevent⟩ <;> cases hevent
  · exact Or.inl rfl
  · exact Or.inr ⟨aborted, rfl⟩

/-- Once left, the loop takes no event. -/
theorem superviseTask_stopped {aborted : Bool} {events : List TaskEvent}
    (h : s.phase = .stopped aborted) (hs : s.superviseTask delays events = some s') :
    events = [] ∧ s' = s := by
  cases events with
  | nil => exact ⟨rfl, (Option.some.inj hs).symm⟩
  | cons event events =>
    obtain ⟨s₁, hone, -⟩ := Option.bind_eq_some_iff.1 hs
    rw [step_stopped h] at hone
    cases hone

end Supervisor

/-- After a shutdown signal or a normal end, at whatever point of a run it is taken, the loop takes
at most one more event, and it neither spawns a task nor logs a restart. -/
theorem no_restart_after_end {delays : Nat → Nat → Option Nat} {now : Nat}
    {before after : List TaskEvent} {event : TaskEvent} {s : Supervisor}
    (hevent : event = .shutdown ∨ ∃ endedAt, event = .ended .completed endedAt)
    (h : (Supervisor.start now).superviseTask delays (before ++ event :: after) = some s) :
    ∃ s₀, (Supervisor.start now).superviseTask delays before = some s₀ ∧
      s.spawned = s₀.spawned ∧ s.log = s₀.log ∧ after.length ≤ 1 := by
  rw [Supervisor.superviseTask_append] at h
  obtain ⟨s₀, hbefore, hrest⟩ := Option.bind_eq_some_iff.1 h
  obtain ⟨s₁, hone, hafter⟩ := Option.bind_eq_some_iff.1 hrest
  refine ⟨s₀, hbefore, ?_⟩
  rcases Supervisor.step_final hevent hone with rfl | ⟨aborted, rfl⟩
  · cases after with
    | nil =>
      cases hafter
      exact ⟨rfl, rfl, Nat.zero_le 1⟩
    | cons last after =>
      obtain ⟨s₂, htwo, hend⟩ := Option.bind_eq_some_iff.1 hafter
      obtain ⟨aborted, rfl⟩ := Supervisor.step_stopping rfl htwo
      obtain ⟨rfl, rfl⟩ := Supervisor.superviseTask_stopped rfl hend
      exact ⟨rfl, rfl, Nat.le_refl 1⟩
  · obtain ⟨rfl, rfl⟩ := Supervisor.superviseTask_stopped rfl hafter
    exact ⟨rfl, rfl, Nat.zero_le 1⟩

theorem no_restart_after_end_sample :
    ∃ s s₀, (Supervisor.start 0).superviseTask sampleDelays (sampleFailures ++ [.shutdown]) =
        some s ∧
      (Supervisor.start 0).superviseTask sampleDelays sampleFailures = some s₀ ∧
      s.spawned = s₀.spawned := by
  have hrun : (Supervisor.start 0).superviseTask sampleDelays (sampleFailures ++ [.shutdown]) =
      some { sampleSupervised with phase := .stopped false } := by decide
  obtain ⟨s₀, hbefore, hspawned, -⟩ := no_restart_after_end (Or.inl rfl) hrun
  exact ⟨_, s₀, hrun, hbefore, hspawned⟩

end Comenq
