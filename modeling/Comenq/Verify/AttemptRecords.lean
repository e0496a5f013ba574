import Comenq.Verify.AwaitRecovery
import Comenq.Verify.Rotation

/-!
# Every attempt is recorded at most once

A post is journalled before it is recorded, and recovery carries the journal out again after a
crash. Along every run from an empty directory no attempt gets a second record
(`attempts_recorded_once`), however often completion and recovery are cut off.

`Recorded` is the invariant: the records readable in the log name different attempts, all of them
drawn before; an attempt that is journalled was not in the log when the journal was written. So its
record is found behind the journalled offset, and not written again, or it is in no record at all.
-/

namespace Comenq

open JsonText LineLog CrashTrace Traced

/-- The records name different attempts, drawn before. -/
structure Distinct (used : List String) (records : List HistoryRecord) : Prop where
  nodup : (records.map HistoryRecord.attemptId).Nodup
  drawn : ∀ r ∈ records, r.attemptId ∈ used

/-- A journalled attempt, new to the log as it was when the journal was written. -/
structure Anew (J : SerdeJson) (used : List String) (c : CompletionRecord)
    (r : HistoryRecord) (H : Bytes) (fs : QueueFs) : Prop where
  underway : Underway J c r H fs
  drawn : r.attemptId ∈ used
  fresh : ∀ x ∈ historyRecords J (close nl H), x.attemptId ≠ r.attemptId

/-- The state of the log and of the journal. -/
structure Recorded (J : SerdeJson) (used : List String) (fs : QueueFs) : Prop where
  tail : ¬ CapTail J fs.historyBytes
  distinct : Distinct used (historyRecords J fs.historyBytes)
  journal : fs.completion = none ∨ ∃ c r H, Anew J used c r H fs

section Recorded

variable {J : SerdeJson} {used used' : List String} {fs fs' : QueueFs} {c : CompletionRecord}
  {r : HistoryRecord} {H : Bytes}

theorem Distinct.mono {records : List HistoryRecord} (h : Distinct used records)
    (hsub : ∀ u ∈ used, u ∈ used') : Distinct used' records :=
  ⟨h.nodup, fun r hr => hsub _ (h.drawn r hr)⟩

theorem Distinct.concat {records : List HistoryRecord} (h : Distinct used records)
    (hdrawn : r.attemptId ∈ used) (hnew : ∀ x ∈ records, x.attemptId ≠ r.attemptId) :
    Distinct used (records ++ [r]) := by
  refine ⟨?_, ?_⟩
  · rw [List.map_append, List.nodup_append]
    refine ⟨h.nodup, List.nodup_singleton _, ?_⟩
    intro a ha b hb
    obtain ⟨x, hx, rfl⟩ := List.mem_map.1 ha
    obtain rfl := List.mem_singleton.1 hb
    exact hnew x hx
  · intro x hx
    rcases List.mem_append.1 hx with hx | hx
    · exact h.drawn x hx
    · rw [List.mem_singleton.1 hx]
      exact hdrawn

/-- A state that differs in other files only. -/
theorem Recorded.congr (h : Recorded J used fs) (hsub : ∀ u ∈ used, u ∈ used')
    (hhistory : fs'.history = fs.history) (hcompletion : fs'.completion = fs.completion) :
    Recorded J used' fs' := by
  have hbytes : fs'.historyBytes = fs.historyBytes := by
    unfold QueueFs.historyBytes
    rw [hhistory]
  refine ⟨hbytes ▸ h.tail, hbytes ▸ h.distinct.mono hsub, ?_⟩
  rw [hcompletion]
  refine h.journal.imp id ?_
  rintro ⟨c, r, H, ⟨hu, hdrawn, hfresh⟩⟩
  exact ⟨c, r, H, ⟨hcompletion ▸ hu.journal, hu.valid, hu.history, hu.offset, hu.fits,
    hbytes ▸ hu.grown, hbytes ▸ hu.log⟩, hsub _ hdrawn, hfresh⟩

/-- The log after part of an append of a record that is new to it. -/
theorem Recorded.grown (h : Recorded J used fs) (hr : r.FitsLine) {p : Bytes}
    (hp : p <+: appendedBytes r fs.historyBytes) (hdrawn : r.attemptId ∈ used)
    (hnew : ∀ x ∈ historyRecords J fs.historyBytes, x.attemptId ≠ r.attemptId) :
    ¬ CapTail J (fs.historyBytes ++ p) ∧
    Distinct used (historyRecords J (fs.historyBytes ++ p)) := by
  obtain ⟨hrecords, htail⟩ := torn_append_records hr h.tail hp
  refine ⟨htail, ?_⟩
  rcases hrecords with hsame | hadded
  · rw [hsame]
    exact h.distinct
  · rw [hadded]
    exact h.distinct.concat hdrawn hnew

/-! ## Carrying out a journal -/

/-- What carrying out the journal adds to the log, wherever it is cut off: nothing if the attempt is
in the log, else part of its record. -/
theorem Recorded.finishing_log (h : Recorded J used fs) (ha : Anew J used c r H fs)
    {p : List FsEvent} (hp : Cut Tears p (finishTrace J c r fs)) :
    ¬ CapTail J (CrashTrace.run QueueFs.step fs p).historyBytes ∧
      Distinct used (historyRecords J (CrashTrace.run QueueFs.step fs p).historyBytes) := by
  have hbytes : (CrashTrace.run QueueFs.step fs p).historyBytes = _ := historyBytes_run fs p
  have hpart := appended_cut hp
  rw [hbytes]
  rcases ha.underway.log with hpending | hlogged
  · -- the log has the records it had when the journal was written
    refine h.grown ha.underway.fits (hpart.trans (appended_finishTrace c r fs)) ha.drawn ?_
    rw [← (historyRecords_close_iff _).2 h.tail, hpending.records]
    exact ha.fresh
  · have hcontains : containsAttempt J fs.historyBytes r.attemptId (c.historyOffset.getD 0) =
        true := by
      rw [ha.underway.offset]
      exact hlogged.contains
    have hnothing : (finishTrace J c r fs).flatMap FsEvent.appended = [] := by
      unfold finishTrace clearTrace logTrace
      rw [if_pos hcontains]
      simp only [List.flatMap_append]
      split <;> split <;> simp [FsEvent.appended]
    rw [hnothing] at hpart
    rw [List.prefix_nil.1 hpart, List.append_nil]
    exact ⟨h.tail, h.distinct⟩

theorem Recorded.finishing (h : Recorded J used fs) (hclean : Clean J fs)
    (ha : Anew J used c r H fs) {p : List FsEvent} (hp : Cut Tears p (finishTrace J c r fs)) :
    Recorded J used (CrashTrace.run QueueFs.step fs p) := by
  have hu := ha.underway
  obtain ⟨htail, hdistinct⟩ := h.finishing_log ha hp
  refine ⟨htail, hdistinct, ?_⟩
  rcases (hu.progress hclean).finishes hu.fits hu.offset p hp with hprogress | hdone
  · exact Or.inr ⟨c, r, H, ⟨hprogress.journal, hu.valid, hu.history, hu.offset, hu.fits,
      hu.grown.finishing hp, hprogress.log⟩, ha.drawn, ha.fresh⟩
  · exact Or.inl hdone.completion

/-! ## Calls -/

theorem Recorded.quiet (h : Recorded J used fs) (hclean : Clean J fs) (hsub : ∀ u ∈ used, u ∈ used')
    {op : Op} (hs : op.Sound) (hl : op.Leaves J fs fs') (hno : ¬ op.Kinds J fs .log)
    (hq : op.Quiet J fs) : Recorded J used' fs' :=
  h.congr hsub (Op.leaves_history hs hl hno) (hq.completion_eq hclean hs hl)

theorem Recorded.recovery (h : Recorded J used fs) (hclean : Clean J fs) {op : Op}
    (hop : op.isRecovery = true) (hs : op.Sound) (hl : op.Leaves J fs fs') :
    Recorded J used fs' := by
  rcases h.journal with hnone | ⟨c, r, H, ha⟩
  · obtain ⟨hno, hquiet⟩ := Op.recovery_kinds (J := J) hop hnone
    exact h.quiet hclean (fun _ hu => hu) hs hl hno hquiet
  · have hu := ha.underway
    rcases hclean.recovery_leaves hu.journal hu.valid hu.history hop hl with ⟨p, hcut, rfl⟩ | hrest
    · exact h.finishing hclean ha hcut
    · have hfinished := h.finishing hclean ha (Cut.refl (finishTrace J c r fs))
      have hdone := (hu.progress hclean).done hu.fits hu.offset
      rw [run_finishTrace] at hfinished
      obtain ⟨hno, hquiet⟩ := Op.recovery_kinds (J := J) hop hdone.completion
      exact hfinished.quiet hdone.clean (fun _ hu => hu) hs hrest hno hquiet

end Recorded

section Steps

variable {J : SerdeJson} {w w' : World} {fs' : QueueFs}

/-- An attempt that is drawn now is in no record. -/
theorem Recorded.ne_of_fresh {used : List String} {fs : QueueFs} (h : Recorded J used fs)
    {attempt : String} (hfresh : attempt ∉ used) :
    ∀ x ∈ historyRecords J fs.historyBytes, x.attemptId ≠ attempt := by
  intro x hx heq
  exact hfresh (heq ▸ h.distinct.drawn x hx)

theorem Recorded.complete (h : Recorded J w.used w.fs) (howned : w.Owned J) {e : StoredEntry}
    (hheld : w.phase = .up (.holding e)) {hash : String} {now : UInt64} {commentUrl : Option String}
    {attempt : Uuid} (hfits : (HistoryRecord.succeeded attempt e hash now commentUrl).FitsLine)
    (hfresh : attempt.text ∉ w.used)
    (hl : (Op.completeClaim e hash now commentUrl attempt).Leaves J w.fs fs') :
    Recorded J (attempt.text :: w.used) fs' := by
  obtain ⟨hv, token, htoken, -⟩ := howned.held hheld
  set c := completionRecord e hash now commentUrl attempt w.fs.historyBytes.length with hc
  set r := HistoryRecord.succeeded attempt e hash now commentUrl with hr
  have hv' : isValidId c.id = true := hv
  have hrun := howned.clean.completeClaim_run hv (Or.inl (by rw [htoken]; rfl)) hash now commentUrl
    attempt hc hr
  have hsub : ∀ u ∈ w.used, u ∈ attempt.text :: w.used := fun u hu => List.mem_cons_of_mem _ hu
  have hclean : Clean J { w.fs with completion := some c.toVec } :=
    howned.clean.step (k := .journal c) (.journal hv' rfl)
  -- the journal names an attempt that no record of the log has
  have hanew : Anew J (attempt.text :: w.used) c r w.fs.historyBytes
      { w.fs with completion := some c.toVec } := by
    refine ⟨⟨rfl, hv', rfl, rfl, hfits, ⟨[], (List.append_nil _).symm, Or.inl rfl⟩,
      Or.inl (.start J _ _)⟩, List.mem_cons_self, ?_⟩
    rw [(historyRecords_close_iff _).2 h.tail]
    exact h.ne_of_fresh hfresh
  have hjournalled : Recorded J (attempt.text :: w.used) { w.fs with completion := some c.toVec } :=
    ⟨h.tail, h.distinct.mono hsub, Or.inr ⟨c, r, _, hanew⟩⟩
  obtain ⟨p, hp, rfl⟩ := hl
  unfold Op.exec at hp
  rw [trace_map, hrun] at hp
  cases hp with
  | torn ht => cases ht
  | stop => exact h.congr hsub rfl rfl
  | step _ hq => exact hjournalled.finishing hclean hanew hq

theorem Recorded.failure (h : Recorded J w.used w.fs) (howned : w.Owned J) {e : StoredEntry}
    (hheld : w.phase = .up (.holding e)) {hash : String} {now : UInt64} {error : String}
    {attempt : Uuid} (hfits : (HistoryRecord.failed attempt e hash now error).FitsLine)
    (hfresh : attempt.text ∉ w.used)
    (hl : (Op.appendHistory (.failed attempt e hash now error)).Leaves J w.fs fs') :
    Recorded J (attempt.text :: w.used) fs' := by
  have hsub : ∀ u ∈ w.used, u ∈ attempt.text :: w.used := fun u hu => List.mem_cons_of_mem _ hu
  have hnone : w.fs.completion = none := by
    apply howned.settled
    · rw [hheld]; simp
    · rw [hheld]; simp
  have hquiet : Op.Quiet J w.fs (Op.appendHistory (.failed attempt e hash now error)) := by
    simp [Op.Quiet, Op.Kinds]
  have hcompletion := hquiet.completion_eq howned.clean trivial hl
  obtain ⟨p, hpart, hbytes⟩ := historyBytes_of_append hl
  have hstart : Recorded J (attempt.text :: w.used) w.fs := h.congr hsub rfl rfl
  obtain ⟨htail, hdistinct⟩ := hstart.grown hfits hpart List.mem_cons_self (h.ne_of_fresh hfresh)
  refine ⟨hbytes ▸ htail, hbytes ▸ hdistinct, Or.inl ?_⟩
  rw [hcompletion, hnone]

/-- The records of attempts are within the line cap, and no other program writes to the log. -/
def Action.Fitting (w : World) : Action → Prop
  | .complete hash now commentUrl attempt => ∀ e, w.phase = .up (.holding e) →
    (HistoryRecord.succeeded attempt e hash now commentUrl).FitsLine
  | .recordFailure hash now error attempt => ∀ e, w.phase = .up (.holding e) →
    (HistoryRecord.failed attempt e hash now error).FitsLine
  | .tamper _ => False
  | _ => True

/-- Whatever call the daemon makes, and wherever it is cut off. -/
theorem Recorded.leaves (h : Recorded J w.used w.fs) (howned : w.Owned J) {a : Action}
    (hact : a.Fitting w) {op : Op} (hcall : Calls w.phase a op)
    (hfresh : ∀ u ∈ op.draws, u ∉ w.used) (hl : op.Leaves J w.fs fs') :
    Recorded J (op.draws ++ w.used) fs' := by
  have hs := howned.sound hcall
  have hsub : ∀ u ∈ w.used, u ∈ op.draws ++ w.used := fun u hu => List.mem_append_right _ hu
  have hphase : ∀ phase, phase = w.phase → Calls phase a op →
      Recorded J (op.draws ++ w.used) fs' := by
    intro phase hp hc
    cases hc with
    | listen hr =>
      exact h.quiet howned.clean hsub hs hl (not_log_of_isRequest hr) (quiet_of_isRequest hr)
    | recover fresh => exact h.recovery howned.clean rfl hs hl
    | claim cooldown now token =>
      exact h.quiet howned.clean hsub hs hl (by simp [Op.Kinds]) (by simp [Op.Quiet, Op.Kinds])
    | complete e hash now commentUrl attempt =>
      exact h.complete howned hp.symm (hact e hp.symm) (hfresh _ List.mem_cons_self) hl
    | recordFailure e hash now error attempt =>
      exact h.failure howned hp.symm (hact e hp.symm) (hfresh _ List.mem_cons_self) hl
    | release now claim =>
      exact h.quiet howned.clean hsub hs hl (by simp [Op.Kinds]) (by simp [Op.Quiet, Op.Kinds])
    | openQueue fresh => exact h.recovery howned.clean rfl hs hl
  exact hphase _ rfl hcall

theorem Recorded.step (h : Recorded J w.used w.fs) (howned : w.Owned J) {a : Action}
    (hact : a.Fitting w) (hstep : Step J w a w') : Recorded J w'.used w'.fs := by
  cases hstep with
  | returned hcall hfresh _ => exact h.leaves howned hact hcall hfresh (Op.leaves_final J _ _)
  | failed hcall hfresh hl => exact h.leaves howned hact hcall hfresh hl
  | killed hcall hfresh hl => exact h.leaves howned hact hcall hfresh hl
  | stop _ _ => exact h
  | die _ => exact h
  | tamper act =>
    rw [act] at hact
    exact hact.elim

theorem recorded_start (J : SerdeJson) : Recorded J World.start.used World.start.fs := by
  refine ⟨not_capTail_nil J, ⟨List.nodup_nil, ?_⟩, Or.inl rfl⟩
  intro x hx
  cases hx

end Steps

/-- In every run from an empty directory, with calls that fail or are killed at any point, restarts
and recoveries, the history holds at most one record of each attempt, and only of attempts that were
made. -/
theorem attempts_recorded_once {J : SerdeJson} {w : World}
    (h : Run J (fun w a => a.Fitting w) World.start w) :
    ((historyRecords J w.fs.historyBytes).map HistoryRecord.attemptId).Nodup ∧
    ∀ r ∈ historyRecords J w.fs.historyBytes, r.attemptId ∈ w.used := by
  have hinv : w.Owned J ∧ Recorded J w.used w.fs := by
    refine Run.invariant (I := fun x => x.Owned J ∧ Recorded J x.used x.fs) ?_ h
      ⟨World.Owned.start J, recorded_start J⟩
    rintro w₁ a w₂ ⟨howned, hrecorded⟩ hact hstep
    exact ⟨howned.step hstep, hrecorded.step howned hact hstep⟩
  exact ⟨hinv.2.distinct.nodup, hinv.2.distinct.drawn⟩

/-- An action that adds no record. -/
def Action.mute : Action → Bool
  | .complete .. | .recordFailure .. | .tamper _ => false
  | _ => true

theorem fitting_of_mute {w : World} {a : Action} (h : a.mute = true) : a.Fitting w := by
  cases a with
  | complete | recordFailure | tamper => cases h
  | _ => trivial

/-- A worker that has just claimed the only entry of the queue. -/
def sampleTaken : World :=
  World.start.after serdeJson (fun _ a => a.mute = true) (sampleBoot ++
    [.listen (.put sampleRequest ⟨900, 0, true⟩ 1000 (sampleUuid 1)),
      .claim 900 1000 (sampleUuid 2)])

/-- A completion that fails right after the append, and its recovery. -/
theorem attempts_recorded_once_recovered :
    ∃ w, Run serdeJson (fun w a => a.Fitting w) World.start w ∧
      w.fs.historyBytes =
        appendedBytes (.succeeded (sampleUuid 3) sampleClaim "hash" 1010 none) [] ∧
      ((historyRecords serdeJson w.fs.historyBytes).map HistoryRecord.attemptId).Nodup := by
  have hheld : sampleTaken.phase = .up (.holding sampleClaim) ∧
      (sampleUuid 3).text ∉ sampleTaken.used ∧ sampleClaim ∈ queued serdeJson sampleTaken.fs ∧
      sampleTaken.fs.historyBytes = [] := by decide +kernel
  obtain ⟨hphase, hused, hqueued, hlog⟩ := hheld
  have hstart : Run serdeJson (fun w a => a.Fitting w) World.start sampleTaken :=
    (World.run_after serdeJson _ _ _).mono fun _ _ h => fitting_of_mute h
  have howned : sampleTaken.Owned serdeJson :=
    World.Reachable.owned (hstart.mono fun _ _ _ => trivial)
  obtain ⟨w₁, w₂, hcomplete, hrecover, -, -, hlog₁, hlog₂, -⟩ :=
    howned.half_posted hphase hqueued hused rfl sampleAwaited_fits fun _ => sampleUuid 0
  have hfits : Action.Fitting sampleTaken (.complete "hash" 1010 none (sampleUuid 3)) := by
    intro e he
    rw [hphase] at he
    obtain rfl := Worker.holding.inj (Phase.up.inj he)
    exact sampleAwaited_fits
  have hrun : Run serdeJson (fun w a => a.Fitting w) World.start w₂ :=
    .step (.step hstart hfits hcomplete) (fitting_of_mute rfl) hrecover
  refine ⟨w₂, hrun, ?_, (attempts_recorded_once hrun).1⟩
  rw [hlog₂, hlog₁, hlog, List.nil_append]

end Comenq
