import Comenq.Daemon.WorkerLoop
import Comenq.Verify.Claims

/-!
# The worker never sleeps through a change of the queue

The invariant (`Daemon.Alert`) of the worker's waits: while the worker waits for a change and has
not been notified, the directory is the one its last claim attempt read, or a permit is buffered, or
some committed mutation has still to notify. A registered worker leaves no room for a permit, so one
that is parked while no notification is outstanding has seen the present queue.
-/

namespace Comenq

open Traced CrashTrace Signals Saturating

/-! ## What a claim attempt saw -/

/-- What the worker knows of the directory when it starts to wait. -/
def Wait.Saw (J : SerdeJson) (cooldown : UInt64) (fs : QueueFs) : Wait → Prop
  | .empty => entries J fs = .ok []
  | .scheduled head seconds now =>
    nextDue J cooldown now fs = .ok (some (head, seconds)) ∧ 0 < seconds
  | .retry => True

/-- The wait of the head at a later clock value: it is due when it was due before, or at once. -/
theorem nextDue_later {J : SerdeJson} {cooldown now t : UInt64} {fs : QueueFs} {head : StoredEntry}
    {seconds : UInt64} (h : nextDue J cooldown now fs = .ok (some (head, seconds)))
    (hpos : 0 < seconds) (ht : now.toNat ≤ t.toNat) :
    ∃ rest, nextDue J cooldown t fs = .ok (some (head, rest)) ∧
      t.toNat + rest.toNat = max t.toNat (now.toNat + seconds.toNat) := by
  obtain ⟨previous, hw, hprev, hdue⟩ := nextDue_ok h
  have hsched : ∀ clock, schedule J cooldown clock fs =
      .ok (projectedSchedule cooldown clock (sortEntries (queued J fs)) previous) := by
    intro clock
    unfold schedule
    rw [entries_eq hw, hprev]
    rfl
  have hany : ∀ clock, (projectedSchedule cooldown clock (sortEntries (queued J fs)) previous).any
      (fun p => p.1.claimToken.isSome) =
      (sortEntries (queued J fs)).any fun e => e.claimToken.isSome := by
    intro clock
    conv_rhs => rw [← map_fst_projectedSchedule cooldown clock (sortEntries _) previous,
      List.any_map]
    rfl
  by_cases hclaimed : (sortEntries (queued J fs)).any (fun e => e.claimToken.isSome) = true
  · rw [if_pos hclaimed] at hdue
    cases hdue
  · rw [if_neg hclaimed] at hdue
    obtain ⟨e, es, hes⟩ : ∃ e es, sortEntries (queued J fs) = e :: es := by
      cases hs : sortEntries (queued J fs) with
      | nil => rw [hs] at hdue; cases hdue
      | cons e es => exact ⟨e, es, rfl⟩
    rw [hes] at hdue
    obtain ⟨rfl, rfl⟩ : head = e ∧ seconds = sub (postAt cooldown now previous e) now := by
      simpa [projectedSchedule] using hdue
    refine ⟨sub (postAt cooldown t previous head) t, ?_, ?_⟩
    · unfold nextDue
      rw [hsched]
      simp only [bind, Except.bind, pure, Except.pure, hany, hclaimed]
      rw [hes]
      rfl
    · have hpos' : 0 < (sub (postAt cooldown now previous head) now).toNat := hpos
      rw [toNat_sub] at hpos' ⊢
      rw [toNat_sub]
      unfold postAt at hpos' ⊢
      cases previous with
      | none =>
        simp only [dueAfter, toNat_maxU] at hpos' ⊢
        omega
      | some p =>
        simp only [dueAfter, toNat_maxU] at hpos' ⊢
        omega

/-! ## Rejected requests -/

/-- A request that is rejected has not touched the directory. -/
theorem Clean.request_error {J : SerdeJson} {fs : QueueFs} (h : Clean J fs) {op : Op}
    (hr : op.isRequest = true) {err : StoreError} (he : (op.exec J fs).outcome = .error err) :
    final (op.exec J) fs = fs := by
  have hquiet : (op.exec J fs).trace = [] → final (op.exec J) fs = fs := by
    intro ht
    unfold final
    rw [ht]
    rfl
  apply hquiet
  have hreorder : ∀ (id : String) (newOrder : StoredEntry → List StoredEntry → Int64),
      ((fun _ => Reply.done) <$> reorder J id newOrder : Store Reply) fs =
        ⟨((fun _ => Reply.done) <$> reorder J id newOrder : Store Reply) fs |>.outcome, []⟩ ∨
      (((fun _ => Reply.done) <$> reorder J id newOrder : Store Reply) fs).outcome = .ok .done := by
    intro id newOrder
    rw [run_map]
    cases hf : find J fs id with
    | ok e =>
      rw [h.accounted.covered.reorder_run hf]
      exact Or.inr rfl
    | error err =>
      rw [h.accounted.covered.reorder_error hf]
      exact Or.inl rfl
  cases op with
  | put request options now incarnation =>
    change (((fun p => Reply.stored p.1 p.2) <$> putWithEta J request options now incarnation :
      Store Reply) fs).trace = []
    change (((fun p => Reply.stored p.1 p.2) <$> putWithEta J request options now incarnation :
      Store Reply) fs).outcome = _ at he
    rw [trace_map]
    rw [outcome_map] at he
    rcases @put_cases J fs request options now incarnation with ⟨hput, -⟩ | ⟨id, eta, -, -, hput⟩
    · exact hput
    · rw [hput] at he
      cases he
  | bump id =>
    rcases hreorder id headOrder with ht | hok
    · exact congrArg Ran.trace ht
    · exact absurd (he.symm.trans hok) (by simp)
  | bust id =>
    rcases hreorder id tailOrder with ht | hok
    · exact congrArg Ran.trace ht
    · exact absurd (he.symm.trans hok) (by simp)
  | del id =>
    change (((fun _ => Reply.done) <$> del J id : Store Reply) fs).trace = []
    change (((fun _ => Reply.done) <$> del J id : Store Reply) fs).outcome = _ at he
    rw [trace_map]
    rw [outcome_map] at he
    cases hf : find J fs id with
    | ok e =>
      rw [del_run hf] at he
      cases he
    | error err => rw [del_error hf]
  | _ => cases hr

/-! ## The invariant -/

/-- The worker knows the queue it waits on, or a notification is on its way. -/
structure Daemon.Alert (J : SerdeJson) (cooldown : UInt64) (d : Daemon) : Prop where
  reachable : d.world.Reachable J
  waiting : d.changed = .waiting ↔ ∃ w, d.station = .parked w
  saw : ∀ {w}, d.station.Waits w → w.Saw J cooldown d.seen
  current : ∀ {w}, d.station.Waits w → w ≠ .retry →
    d.world.fs = d.seen ∨ d.changed = .permit ∨ 0 < d.unsent

namespace Daemon.Alert

variable {J : SerdeJson} {cooldown : UInt64} {d : Daemon}

theorem start (J : SerdeJson) (cooldown : UInt64) : Daemon.Alert J cooldown Daemon.start where
  reachable := .refl
  waiting := by simp [Daemon.start]
  saw := by rintro w (h | h) <;> cases h
  current := by rintro w (h | h) <;> cases h

/-- A worker that is not in a wait only needs a signal nobody waits on. -/
theorem of_running {d : Daemon} (hw : d.world.Reachable J) (hs : d.station = .running)
    (hc : d.changed ≠ .waiting) : Daemon.Alert J cooldown d where
  reachable := hw
  waiting := by
    constructor
    · intro h
      exact absurd h hc
    · rintro ⟨w, h⟩
      rw [hs] at h
      cases h
  saw := by rintro w (h | h) <;> (rw [hs] at h; cases h)
  current := by rintro w (h | h) <;> (rw [hs] at h; cases h)

theorem not_waiting (h : Daemon.Alert J cooldown d) (hs : ∀ w, d.station ≠ .parked w) :
    d.changed ≠ .waiting := by
  intro hc
  obtain ⟨w, hw⟩ := h.waiting.1 hc
  exact hs w hw

theorem step_commit (h : Daemon.Alert J cooldown d) {op : Op} {reply : Reply}
    (call : Calls d.world.phase (.listen op) op) (fresh : ∀ u ∈ op.draws, u ∉ d.world.used)
    (ok : (op.exec J d.world.fs).outcome = .ok reply) :
    Daemon.Alert J cooldown
      { d with
        world := ⟨final (op.exec J) d.world.fs, d.world.phase, op.draws ++ d.world.used⟩
        unsent := d.unsent + 1 } where
  reachable := by
    have hstep := h.reachable.step (.returned call fresh ok)
    rw [Phase.returned_request call.isRequest] at hstep
    exact hstep
  waiting := h.waiting
  saw := h.saw
  current := fun _ _ => Or.inr (Or.inr (Nat.succ_pos _))

theorem step_reject (h : Daemon.Alert J cooldown d) {op : Op} {err : StoreError}
    (call : Calls d.world.phase (.listen op) op) (fresh : ∀ u ∈ op.draws, u ∉ d.world.used)
    (error : (op.exec J d.world.fs).outcome = .error err) :
    Daemon.Alert J cooldown
      { d with
        world := ⟨final (op.exec J) d.world.fs, d.world.phase, op.draws ++ d.world.used⟩ } := by
  have hstep := h.reachable.step (.failed call fresh (op.leaves_final J d.world.fs))
  rw [Phase.failed_request call.isRequest] at hstep
  have hsame := h.reachable.owned.clean.request_error call.isRequest error
  refine ⟨hstep, h.waiting, h.saw, ?_⟩
  intro w hw hne
  rcases h.current hw hne with hfs | hsignal
  · exact Or.inl (hsame.trans hfs)
  · exact Or.inr hsignal

/-- A notification wakes the parked worker or is kept as a permit. -/
theorem step_notify (h : Daemon.Alert J cooldown d) :
    Daemon.Alert J cooldown { d.notifyOne with unsent := d.unsent - 1 } := by
  by_cases hc : d.changed = .waiting
  · obtain ⟨w, hw⟩ := h.waiting.1 hc
    have hstation : d.notifyOne.station = .woken w := by
      unfold Daemon.notifyOne
      rw [hc, hw]
    refine ⟨h.reachable, ?_, ?_, ?_⟩
    · change d.changed.notifyOne = .waiting ↔ ∃ w, d.notifyOne.station = .parked w
      rw [hstation, hc]
      simp [Notify.notifyOne]
    · rintro w' (hw' | hw')
      · exact absurd (hstation.symm.trans hw') (by simp)
      · exact absurd (hstation.symm.trans hw') (by simp)
    · rintro w' (hw' | hw')
      · exact absurd (hstation.symm.trans hw') (by simp)
      · exact absurd (hstation.symm.trans hw') (by simp)
  · have hstation : d.notifyOne.station = d.station := by
      unfold Daemon.notifyOne
      simp only
      split
      · next hw _ => exact absurd hw hc
      · rfl
    have hpermit : d.notifyOne.changed = .permit := Notify.notifyOne_of_ne hc
    refine ⟨h.reachable, ?_, ?_, ?_⟩
    · change d.notifyOne.changed = .waiting ↔ ∃ w, d.notifyOne.station = .parked w
      rw [hpermit, hstation, ← h.waiting]
      simp [hc]
    · intro w hw
      change d.notifyOne.station.Waits w at hw
      rw [hstation] at hw
      exact h.saw hw
    · exact fun _ _ => Or.inr (Or.inl hpermit)

/-- A claim attempt that hands out nothing leaves the worker with what it read. -/
theorem saw_afterClaim (h : Daemon.Alert J cooldown d) (ready : d.world.phase = .up .ready)
    {now : UInt64} {token : Uuid} {due : Option (StoredEntry × UInt64)}
    (ok : (claimNextDue J cooldown now token d.world.fs).outcome = .ok due) {w : Wait}
    (hw : (Station.afterClaim now due).Waits w) :
    w.Saw J cooldown d.world.fs ∧
      final (claimNextDue J cooldown now token) d.world.fs = d.world.fs := by
  have hclean := h.reachable.owned.clean
  rcases hclean.accounted.covered.claimNextDue_cases cooldown now token with
    ⟨err, -, hrun⟩ | ⟨due', hd, hpos, hrun⟩ | ⟨e, -, hrun⟩
  · rw [hrun] at ok
    cases ok
  · have hempty : due = none → queued J d.world.fs = [] := by
      rintro rfl
      exact hclean.queued_eq_nil (h.reachable.claims.ready ready) ok
    rw [hrun] at ok
    obtain rfl := Outcome.ok.inj ok
    refine ⟨?_, by unfold final; rw [hrun]; rfl⟩
    cases due' with
    | none =>
      rcases hw with hw | hw
      · cases hw
        change entries J d.world.fs = _
        rw [hclean.entries_eq, hempty rfl]
        rfl
      · cases hw
    | some p =>
      obtain ⟨head, seconds⟩ := p
      have hlt := hpos head seconds rfl
      unfold Station.afterClaim at hw
      simp only [gt_iff_lt] at hw hlt
      rw [if_pos hlt] at hw
      rcases hw with hw | hw
      · cases hw
        exact ⟨hd, hlt⟩
      · cases hw
  · rw [hrun] at ok
    obtain rfl := Outcome.ok.inj ok
    rcases hw with hw | hw
    · cases hw
    · cases hw

theorem step_claim (h : Daemon.Alert J cooldown d) {now : UInt64} {token : Uuid}
    {due : Option (StoredEntry × UInt64)} (running : d.station = .running)
    (ready : d.world.phase = .up .ready) (fresh : token.text ∉ d.world.used)
    (ok : (claimNextDue J cooldown now token d.world.fs).outcome = .ok due) :
    Daemon.Alert J cooldown
      { d with
        world := ⟨final (claimNextDue J cooldown now token) d.world.fs,
          d.world.phase.returned (.claimNextDue cooldown now token) (.due due),
          token.text :: d.world.used⟩
        station := .afterClaim now due
        seen := d.world.fs } := by
  have hcall : Calls d.world.phase (.claim cooldown now token)
      (.claimNextDue cooldown now token) := by
    rw [ready]
    exact .claim cooldown now token
  have hok : ((Op.claimNextDue cooldown now token).exec J d.world.fs).outcome = .ok (.due due) := by
    change ((Reply.due <$> claimNextDue J cooldown now token : Store Reply) d.world.fs).outcome = _
    rw [outcome_map, ok]
    rfl
  have hfresh : ∀ u ∈ (Op.claimNextDue cooldown now token).draws, u ∉ d.world.used := by
    intro u hu
    rw [List.mem_singleton.1 hu]
    exact fresh
  have hstep := h.reachable.step (.returned hcall hfresh hok)
  have hfinal : final ((Op.claimNextDue cooldown now token).exec J) d.world.fs =
      final (claimNextDue J cooldown now token) d.world.fs := final_map _ _ _
  rw [hfinal] at hstep
  have hnot : ∀ w, Station.afterClaim now due ≠ .parked w := by
    intro w
    unfold Station.afterClaim
    split
    · simp
    · split <;> simp
  have hchanged : d.changed ≠ .waiting := h.not_waiting (by rw [running]; simp)
  refine ⟨hstep, ?_, fun hw => (h.saw_afterClaim ready ok hw).1, ?_⟩
  · constructor
    · intro hc
      exact absurd hc hchanged
    · rintro ⟨w, hw⟩
      exact absurd hw (hnot w)
  · intro w hw _
    exact Or.inl (h.saw_afterClaim ready ok hw).2

theorem step_register (h : Daemon.Alert J cooldown d) {w : Wait}
    (entering : d.station = .entering w) : Daemon.Alert J cooldown (d.register w) := by
  by_cases hc : d.changed = .permit
  · have hstation : (d.register w).station = .woken w := if_pos hc
    refine ⟨h.reachable, ?_, ?_, ?_⟩
    · rw [hstation]
      change d.changed.poll = .waiting ↔ _
      rw [hc]
      simp [Notify.poll]
    · rintro w' (hw' | hw')
      · exact absurd (hstation.symm.trans hw') (by simp)
      · exact absurd (hstation.symm.trans hw') (by simp)
    · rintro w' (hw' | hw')
      · exact absurd (hstation.symm.trans hw') (by simp)
      · exact absurd (hstation.symm.trans hw') (by simp)
  · have hstation : (d.register w).station = .parked w := if_neg hc
    have hwaits : ∀ {w'}, (d.register w).station.Waits w' → w' = w := by
      rintro w' (hw' | hw')
      · exact absurd (hstation.symm.trans hw') (by simp)
      · exact (Station.parked.inj (hstation.symm.trans hw')).symm
    refine ⟨h.reachable, ?_, ?_, ?_⟩
    · rw [hstation]
      constructor
      · intro _
        exact ⟨w, rfl⟩
      · intro _
        exact Notify.poll_eq_waiting_iff.2 hc
    · intro w' hw'
      rw [hwaits hw']
      exact h.saw (Or.inl entering)
    · intro w' hw' hne
      rw [hwaits hw'] at hne
      rcases h.current (Or.inl entering) hne with hfs | hpermit | hunsent
      · exact Or.inl hfs
      · exact absurd hpermit hc
      · exact Or.inr (Or.inr hunsent)

theorem step_resume (h : Daemon.Alert J cooldown d) {w : Wait} (woken : d.station = .woken w) :
    Daemon.Alert J cooldown { d with station := .resumed w } := by
  have hchanged : d.changed ≠ .waiting := h.not_waiting (by rw [woken]; simp)
  cases w with
  | empty => exact of_running h.reachable rfl hchanged
  | scheduled head seconds now => exact of_running h.reachable rfl hchanged
  | retry =>
    refine ⟨h.reachable, ?_, ?_, ?_⟩
    · simp [Station.resumed, hchanged]
    · rintro w' (hw' | hw')
      · cases hw'
        trivial
      · cases hw'
    · rintro w' (hw' | hw') hne
      · cases hw'
        exact absurd rfl hne
      · cases hw'

theorem step {d' : Daemon} (h : Daemon.Alert J cooldown d) (hs : Daemon.Step J cooldown d d') :
    Daemon.Alert J cooldown d' := by
  cases hs with
  | commit call fresh ok => exact h.step_commit call fresh ok
  | reject call fresh error => exact h.step_reject call fresh error
  | notify _ => exact h.step_notify
  | claim running ready fresh ok => exact h.step_claim running ready fresh ok
  | @claimFailed now token fs' running ready fresh leaves =>
    refine of_running ?_ running (h.not_waiting (by rw [running]; simp))
    have hcall : Calls d.world.phase (.claim cooldown now token)
        (.claimNextDue cooldown now token) := by
      rw [ready]
      exact .claim cooldown now token
    refine h.reachable.step (.failed hcall ?_ leaves)
    intro u hu
    rw [List.mem_singleton.1 hu]
    exact fresh
  | work running _ step =>
    exact of_running (h.reachable.step step) running (h.not_waiting (by rw [running]; simp))
  | retry running _ =>
    have hchanged : d.changed ≠ .waiting := h.not_waiting (by rw [running]; simp)
    refine ⟨h.reachable, by simp [hchanged], ?_, ?_⟩
    · rintro w (hw | hw)
      · cases hw
        trivial
      · cases hw
    · rintro w (hw | hw) hne
      · cases hw
        exact absurd rfl hne
      · cases hw
  | register entering => exact h.step_register entering
  | resume woken => exact h.step_resume woken
  | elapse _ _ => exact of_running h.reachable rfl (Notify.cancel_ne_waiting _)
  | leave up signal =>
    refine of_running (h.reachable.step (.stop rfl up)) rfl ?_
    rcases signal with rfl | rfl
    · exact Notify.cancel_ne_waiting _
    · simp
  | die => exact of_running (h.reachable.step (.die rfl)) rfl (Notify.cancel_ne_waiting _)
  | boot _ step => exact of_running (h.reachable.step step) rfl (by simp)

end Daemon.Alert

theorem Daemon.Reachable.alert {J : SerdeJson} {cooldown : UInt64} {d : Daemon}
    (h : Daemon.Reachable J cooldown d) : Daemon.Alert J cooldown d := by
  induction h with
  | start => exact Daemon.Alert.start J cooldown
  | step _ hs ih => exact ih.step hs

/-! ## No lost wake-up -/

/-- A worker that waits while no permit is buffered and no mutation has still to notify waits on the
present queue: it is empty, or its head is due when the worker expects it to be. -/
theorem worker_waits_on_present_queue {J : SerdeJson} {cooldown : UInt64} {d : Daemon}
    (h : Daemon.Reachable J cooldown d) (hpermit : d.changed ≠ .permit) (hunsent : d.unsent = 0) :
    (d.station.Waits .empty → d.world.fs = d.seen ∧ entries J d.world.fs = .ok []) ∧
    ∀ head seconds now, d.station.Waits (.scheduled head seconds now) →
      d.world.fs = d.seen ∧ nextDue J cooldown now d.world.fs = .ok (some (head, seconds)) ∧
      ∀ t : UInt64, now.toNat ≤ t.toNat → ∃ rest,
        nextDue J cooldown t d.world.fs = .ok (some (head, rest)) ∧
        t.toNat + rest.toNat = max t.toNat (now.toNat + seconds.toNat) := by
  have hinv := h.alert
  have hsame : ∀ {w}, d.station.Waits w → w ≠ .retry → d.world.fs = d.seen := by
    intro w hw hne
    rcases hinv.current hw hne with hfs | hsignal | hpending
    · exact hfs
    · exact absurd hsignal hpermit
    · omega
  constructor
  · intro hw
    have hfs := hsame hw (by simp)
    exact ⟨hfs, hfs ▸ hinv.saw hw⟩
  · intro head seconds now hw
    have hfs := hsame hw (by simp)
    obtain ⟨hdue, hpos⟩ := hinv.saw hw
    rw [← hfs] at hdue
    exact ⟨hfs, hdue, fun t ht => nextDue_later hdue hpos ht⟩

/-- A client has put a deferred entry and notified the worker, which has not claimed yet. -/
def sampleNotified : Daemon where
  world :=
    let ready := World.afterStart serdeJson sampleBoot
    let put := Op.put sampleRequest ⟨900, 0, false⟩ 1000 (sampleUuid 1)
    ⟨final (put.exec serdeJson) ready.fs, ready.phase, put.draws ++ ready.used⟩
  changed := .permit
  unsent := 0
  station := .running
  seen := (World.afterStart serdeJson (sampleBoot.take 1)).fs

/-- The entry it put. -/
def sampleHead : StoredEntry :=
  newEntry sampleRequest ⟨900, 0, false⟩ 1000 (sampleUuid 1)
    (sampleNotified.world.fs.entries.keys.headD "") []

/-- What the worker waits for. -/
def sampleWait : Wait := .scheduled sampleHead 900 1000

theorem sampleNotified_reachable : Daemon.Reachable serdeJson 900 sampleNotified := by
  have hboot : Daemon.Reachable serdeJson 900
      ⟨World.afterStart serdeJson (sampleBoot.take 1), .empty, 0, .running, _⟩ :=
    .step .start (.boot rfl (World.step_performed (by decide +kernel)))
  have hready : Daemon.Reachable serdeJson 900
      ⟨World.afterStart serdeJson sampleBoot, .empty, 0, .running, _⟩ :=
    .step hboot (.work (a := .recover fun _ => sampleUuid 0) rfl rfl
      (World.step_performed (by decide +kernel)))
  have hphase : (World.afterStart serdeJson sampleBoot).phase = .up .ready := by decide +kernel
  have hcall : Calls (World.afterStart serdeJson sampleBoot).phase
      (.listen (.put sampleRequest ⟨900, 0, false⟩ 1000 (sampleUuid 1)))
      (.put sampleRequest ⟨900, 0, false⟩ 1000 (sampleUuid 1)) := by
    rw [hphase]
    exact .listen rfl
  have hput : ((Op.put sampleRequest ⟨900, 0, false⟩ 1000 (sampleUuid 1)).exec serdeJson
      (World.afterStart serdeJson sampleBoot).fs).outcome = .ok (.stored sampleHead 900) := by
    decide +kernel
  have hcommit := hready.step (.commit hcall (by decide +kernel) hput)
  exact hcommit.step (.notify (by decide))

/-- The worker claims and starts to wait for the head. -/
def Daemon.sampleAsk (d : Daemon) (n : Nat) : Daemon :=
  { d with
    world := ⟨final (claimNextDue serdeJson 900 1000 (sampleUuid n)) d.world.fs,
      d.world.phase.returned (.claimNextDue 900 1000 (sampleUuid n))
        (.due (some (sampleHead, 900))), (sampleUuid n).text :: d.world.used⟩
    station := .afterClaim 1000 (some (sampleHead, 900))
    seen := d.world.fs }

theorem Daemon.Reachable.sampleAsk {d : Daemon} (h : Daemon.Reachable serdeJson 900 d) (n : Nat)
    (running : d.station = .running) (ready : d.world.phase = .up .ready)
    (fresh : (sampleUuid n).text ∉ d.world.used)
    (ok : (claimNextDue serdeJson 900 1000 (sampleUuid n) d.world.fs).outcome =
      .ok (some (sampleHead, 900))) : Daemon.Reachable serdeJson 900 (d.sampleAsk n) :=
  h.step (.claim running ready fresh ok)

/-- The put's notification only makes the worker claim once more; then it is asleep. -/
def sampleAsleep : Daemon :=
  let woken := (sampleNotified.sampleAsk 2).register sampleWait
  Daemon.register (Daemon.sampleAsk { woken with station := .resumed sampleWait } 3) sampleWait

theorem sampleAsleep_reachable : Daemon.Reachable serdeJson 900 sampleAsleep := by
  have hask := sampleNotified_reachable.sampleAsk 2 rfl (by decide +kernel) (by decide +kernel)
    (by decide +kernel)
  have hentering : (sampleNotified.sampleAsk 2).station = .entering sampleWait := by decide +kernel
  have hwoken := hask.step (.register hentering)
  have hresumed := hwoken.step (.resume (w := sampleWait) (by decide +kernel))
  have hagain := hresumed.sampleAsk 3 rfl (by decide +kernel) (by decide +kernel)
    (by decide +kernel)
  exact hagain.step (.register (by decide +kernel))

theorem worker_waits_on_present_queue_sample :
    sampleAsleep.station = .parked sampleWait ∧
      ∃ rest, nextDue serdeJson 900 1400 sampleAsleep.world.fs = .ok (some (sampleHead, rest)) ∧
        1400 + rest.toNat = 1900 := by
  have hpark : sampleAsleep.station = .parked sampleWait := by decide +kernel
  have hpermit : sampleAsleep.changed ≠ .permit := by decide
  obtain ⟨-, -, hlater⟩ :=
    (worker_waits_on_present_queue sampleAsleep_reachable hpermit rfl).2 _ _ _ (Or.inr hpark)
  exact ⟨hpark, hlater 1400 (by decide)⟩

end Comenq
