import Comenq.Store.Codec
import Comenq.Store.System

/-!
# Rejected calls change nothing

Several operations make two or more durable writes with checks in between: a marker and then a
removal, the attempt time and then the entry, the journal and then its completion. A check behind
the first write could fail only in a directory the store never leaves behind, so a call that
returns an error has performed no event.

The two time files may hold anything here. They are read before the first write of the operations
that need them, and the others do not read them at all (`Respects`): those run as they would in the
directory without the time files, which is clean.
-/

namespace Comenq

open JsonText Traced CrashTrace

/-! ## Operations that ignore the time files -/

/-- Directories that differ at most in the two time files. -/
structure SameFiles (fs fs' : QueueFs) : Prop where
  entries : fs'.entries = fs.entries
  awaitDeletions : fs'.awaitDeletions = fs.awaitDeletions
  completion : fs'.completion = fs.completion
  history : fs'.history = fs.history

theorem SameFiles.step {fs fs' : QueueFs} (h : SameFiles fs fs') (ev : FsEvent) :
    SameFiles (fs.step ev) (fs'.step ev) := by
  obtain ⟨he, hd, hc, hh⟩ := h
  cases ev with
  | writeAtomic f bytes => cases f <;> constructor <;> simp [QueueFs.step, QueueFs.write, *]
  | removeFile f => cases f <;> constructor <;> simp [QueueFs.step, QueueFs.remove, *]
  | openHistory => constructor <;> simp [QueueFs.step, *]
  | appendHistory bytes => constructor <;> simp [QueueFs.step, *]
  | syncHistory => exact ⟨he, hd, hc, hh⟩
  | syncDir d => exact ⟨he, hd, hc, hh⟩

section Blind

variable {J : SerdeJson} {fs fs' : QueueFs}

theorem SameFiles.historyBytes (h : SameFiles fs fs') : fs'.historyBytes = fs.historyBytes := by
  unfold QueueFs.historyBytes
  rw [h.history]

theorem SameFiles.find (h : SameFiles fs fs') (id : String) :
    Comenq.find J fs' id = Comenq.find J fs id := by
  unfold Comenq.find readEntry
  rw [h.entries]

theorem SameFiles.entriesWithUsage (h : SameFiles fs fs') :
    Comenq.entriesWithUsage J fs' = Comenq.entriesWithUsage J fs := by
  unfold Comenq.entriesWithUsage scanEntryFiles
  rw [h.entries]

theorem SameFiles.readEntries (h : SameFiles fs fs') :
    Comenq.entries J fs' = Comenq.entries J fs := by
  unfold Comenq.entries
  rw [h.entriesWithUsage]

/-- A program that never looks at the time files. -/
abbrev Timeless {α : Type} (m : Store α) : Prop := Respects SameFiles m

theorem timeless_bind {α β : Type} {m : Store α} {f : α → Store β} (hm : Timeless m)
    (hf : ∀ a, Timeless (f a)) : Timeless (m >>= f) :=
  respects_bind (fun _ _ ev h => h.step ev) hm hf

theorem timeless_append (record : HistoryRecord) : Timeless (append record) := by
  apply respects_inspect
  · intro s s' h
    rw [h.historyBytes]
  · intro s
    refine timeless_bind (respects_emit _) fun _ => timeless_bind ?_ fun _ =>
      respects_when (respects_emit _)
    exact timeless_bind (respects_when (respects_emit _)) fun _ =>
      timeless_bind (respects_emit _) fun _ => respects_emit _

theorem timeless_appendOnce (record : HistoryRecord) (searchFrom : Nat) :
    Timeless (appendOnce J record searchFrom) := by
  apply respects_inspect
  · intro s s' h
    rw [h.historyBytes]
  · intro s
    split
    · exact respects_pure ()
    · exact timeless_append record

theorem timeless_clearAwaitDeletion (id incarnation : String) :
    Timeless (clearAwaitDeletion J id incarnation) := by
  unfold clearAwaitDeletion
  split
  · apply respects_inspect
    · intro s s' h
      rw [h.awaitDeletions]
    · intro s
      split
      · exact respects_pure ()
      · split
        · exact respects_fail _
        · refine timeless_bind (respects_read fun s s' h => ?_) fun current => ?_
          · unfold currentMatches
            rw [h.find]
          · split
            · exact respects_pure ()
            · exact timeless_bind (respects_emit _) fun _ => respects_emit _
  · exact respects_fail _

theorem timeless_finishCompletion (c : CompletionRecord) : Timeless (finishCompletion J c) := by
  unfold finishCompletion
  split
  · apply timeless_bind
    · unfold recordCompletion
      split
      · exact respects_pure ()
      · exact timeless_bind (timeless_appendOnce _ _) fun _ => timeless_clearAwaitDeletion _ _
    · intro _
      refine timeless_bind (respects_read fun s s' h => ?_) fun _ =>
        timeless_bind (respects_when (respects_emit _)) fun _ =>
          timeless_bind (respects_emit _) fun _ => timeless_bind (respects_emit _) fun _ =>
            respects_emit _
      unfold removesEntry
      rw [h.find]
  · exact respects_fail _

theorem timeless_reconcileCompletion : Timeless (reconcileCompletion J) := by
  apply respects_inspect
  · intro s s' h
    rw [h.completion]
  · intro s
    split
    · exact respects_pure ()
    · split
      · exact respects_fail _
      · split
        · exact respects_fail _
        · exact timeless_finishCompletion _

theorem timeless_completeClaim (entry : StoredEntry) (tokenHash : String) (now : UInt64)
    (commentUrl : Option String) (attempt : Uuid) :
    Timeless (completeClaimWithToken J entry tokenHash now commentUrl attempt) := by
  refine timeless_bind (respects_when (respects_read fun s s' h => by rw [h.find])) fun _ =>
    timeless_bind (respects_inspect (fun s s' h => ?_) fun _ => respects_emit _) fun _ =>
      timeless_reconcileCompletion
  rw [h.historyBytes]

theorem timeless_writeEntry (e : StoredEntry) : Timeless (writeEntry J e) := by
  refine timeless_bind (respects_read fun s s' h => h.entriesWithUsage) fun r => ?_
  refine timeless_bind (respects_read fun s s' h => ?_) fun _ => respects_emit _
  unfold admitEntry previousBytes previousHeadroom readEntry
  rw [h.entries]

theorem timeless_reclaimClaims (fresh : String → Uuid) : Timeless (reclaimClaims J fresh) := by
  refine timeless_bind (respects_read fun s s' h => h.readEntries) fun all => ?_
  induction all with
  | nil => exact respects_pure ()
  | cons e es ih => exact timeless_bind (respects_when (timeless_writeEntry _)) fun _ => ih

theorem timeless_removeMarkers (es : List StoredEntry) (removed : Bool) :
    Timeless (removeMarkers es removed) := by
  induction es generalizing removed with
  | nil => exact respects_pure removed
  | cons e es ih =>
    apply respects_inspect
    · intro s s' h
      unfold awaitLifetimeWasDeleted
      rw [h.awaitDeletions]
    · intro s
      split
      · exact respects_fail _
      · exact timeless_bind (respects_emit _) fun _ => ih true
      · exact ih removed

theorem timeless_openStore (fresh : String → Uuid) : Timeless (openStore J fresh) := by
  refine timeless_bind timeless_reconcileCompletion fun _ =>
    timeless_bind (respects_read fun s s' h => ?_) fun _ =>
      timeless_bind (timeless_reclaimClaims fresh) fun _ =>
        timeless_bind (respects_read fun s s' h => h.readEntries) fun all =>
          timeless_bind (timeless_removeMarkers all false) fun _ => respects_when (respects_emit _)
  unfold validateExistingLimits
  rw [h.entriesWithUsage]

end Blind

/-! ## Directories with any time files -/

/-- A directory without its time files. -/
def QueueFs.withoutTimes (fs : QueueFs) : QueueFs :=
  { fs with lastPost := none, lastAttempt := none }

/-- The directories that calls leave behind, finished or cut off, when the time files and the
history log may hold any bytes at any time. -/
inductive ReachableAnyTime (J : SerdeJson) : QueueFs → Prop
  | empty : ReachableAnyTime J QueueFs.empty
  | step {fs fs' : QueueFs} {op : Op} : ReachableAnyTime J fs → op.Sound → op.Leaves J fs fs' →
      ReachableAnyTime J fs'
  | history {fs : QueueFs} (log : Option Bytes) : ReachableAnyTime J fs →
      ReachableAnyTime J { fs with history := log }
  | times {fs : QueueFs} (post attempt : Option Bytes) : ReachableAnyTime J fs →
      ReachableAnyTime J { fs with lastPost := post, lastAttempt := attempt }

theorem Reachable.anyTime {J : SerdeJson} {fs : QueueFs} (h : Reachable J fs) :
    ReachableAnyTime J fs := by
  induction h with
  | empty => exact .empty
  | step _ hs hl ih => exact ih.step hs hl
  | history log _ ih => exact ih.history log

section AnyTime

variable {J : SerdeJson} {fs : QueueFs}

theorem Clean.withoutTimes (h : Clean J fs) : Clean J fs.withoutTimes where
  accounted := h.accounted.congr rfl
  readable := h.readable
  lifetime := h.lifetime
  markers := h.markers
  lastPost := by intro bytes hb; cases hb
  lastAttempt := by intro bytes hb; cases hb
  journal := h.journal

theorem Change.withoutTimes {k : Kind} {ev : FsEvent} (h : Change J fs k ev) :
    Change J fs.withoutTimes k ev := by
  cases h with
  | enroll hv hfree hw hcount hsize hbudget hclaim hlife =>
    exact .enroll hv hfree ⟨hw.count, hw.bytes, hw.growth⟩ hcount hsize hbudget hclaim hlife
  | update he hu hk hs => exact .update he hu hk hs
  | drop he => exact .drop he
  | take he hid hc => exact .take he hid hc
  | mark he => exact .mark he
  | unmark id => exact .unmark id
  | tidy he => exact .tidy he
  | posted time => exact .posted time
  | attempted time => exact .attempted time
  | journal hv hp => exact .journal hv hp
  | finished => exact .finished
  | openLog => exact .openLog
  | log bytes => exact .log bytes
  | syncLog => exact .syncLog
  | sync d => exact .sync d

theorem withoutTimes_step (fs : QueueFs) (ev : FsEvent) :
    (fs.step ev).withoutTimes = (fs.withoutTimes.step ev).withoutTimes := by
  cases ev with
  | writeAtomic f bytes => cases f <;> rfl
  | removeFile f => cases f <;> rfl
  | _ => rfl

theorem ReachableAnyTime.clean (h : ReachableAnyTime J fs) : Clean J fs.withoutTimes := by
  induction h with
  | empty => exact Clean.empty J
  | @step fs fs' op _ hs hl ih =>
    obtain ⟨p, hp, rfl⟩ := hl
    have ht : Throughout QueueFs.step Tears (fun g => Clean J g.withoutTimes) fs
        (op.exec J fs).trace := by
      refine (performs_exec hs).along.throughout (I := fun g => Clean J g.withoutTimes) ?_ ?_ ih
      · rintro g ev hg ⟨k, -, hc⟩
        rw [withoutTimes_step]
        exact (hg.step hc.withoutTimes).withoutTimes
      · rintro g ev ev' hg - htear
        rw [withoutTimes_step]
        exact (hg.torn htear).withoutTimes
    exact ht p hp
  | history log _ ih => exact ih.history log
  | times post attempt _ ih => exact ih

theorem sameFiles_withoutTimes (fs : QueueFs) : SameFiles fs.withoutTimes fs :=
  ⟨rfl, rfl, rfl, rfl⟩

/-! ## Errors -/

/-- A call that succeeds returned no error. -/
theorem not_error_of_succeeds {α : Type} {m : Store α} {Q : α → QueueFs → Prop}
    (h : Succeeds m fs Q) {err : StoreError} : (m fs).outcome ≠ .error err := by
  obtain ⟨a, t, hr, -⟩ := h
  rw [hr]
  nofun

/-- What an operation that ignores the time files does is what it does without them. -/
theorem not_error_of_timeless {α : Type} {m : Store α} (hm : Timeless m)
    {Q : α → QueueFs → Prop} (h : Succeeds m fs.withoutTimes Q) {err : StoreError} :
    (m fs).outcome ≠ .error err := by
  rw [hm _ _ (sameFiles_withoutTimes fs)]
  exact not_error_of_succeeds h

theorem reorder_rejected (h : Accounted J fs) {id : String}
    {newOrder : StoredEntry → List StoredEntry → Int64} {err : StoreError}
    (he : (reorder J id newOrder fs).outcome = .error err) :
    (reorder J id newOrder fs).trace = [] := by
  cases hf : find J fs id with
  | ok e =>
    rw [h.covered.reorder_run hf] at he
    cases he
  | error e => rw [h.covered.reorder_error hf]

theorem claimNextDue_rejected (h : Accounted J fs) {cooldown now : UInt64} {token : Uuid}
    {err : StoreError} (he : (claimNextDue J cooldown now token fs).outcome = .error err) :
    (claimNextDue J cooldown now token fs).trace = [] := by
  rcases h.covered.claimNextDue_cases cooldown now token with ⟨e, -, hr⟩ |
    ⟨due, -, -, hr⟩ | ⟨e, -, hr⟩
  · rw [hr]
  · rw [hr]
  · rw [hr] at he
    cases he

theorem releaseClaim_rejected (h : Accounted J fs) {id token : String} {time : UInt64}
    {err : StoreError} (he : (releaseClaim J id token time fs).outcome = .error err) :
    (releaseClaim J id token time fs).trace = [] := by
  by_cases hheld : ∃ e, find J fs id = .ok e ∧ e.claimToken = some token
  · obtain ⟨e, hf, ht⟩ := hheld
    cases hp : lastAttempt fs with
    | ok previous =>
      rw [h.covered.releaseClaim_run hf ht hp] at he
      cases he
    | error bad =>
      have hrun : releaseClaim J id token time fs = ⟨.error bad, []⟩ := by
        unfold releaseClaim
        rw [run_inspect, hf]
        simp only
        rw [if_pos ht]
        exact run_bind_error (run_read_error hp)
      rw [hrun]
  · apply releaseClaim_stale
    intro e hf ht
    exact hheld ⟨e, hf, ht⟩

theorem completeClaim_rejected (h : Clean J fs.withoutTimes) {entry : StoredEntry}
    (hv : isValidId entry.id = true) {tokenHash : String} {now : UInt64}
    {commentUrl : Option String} {attempt : Uuid} {err : StoreError}
    (he : (completeClaimWithToken J entry tokenHash now commentUrl attempt fs).outcome =
      .error err) :
    (completeClaimWithToken J entry tokenHash now commentUrl attempt fs).trace = [] := by
  by_cases hclaim : entry.claimToken.isSome = true ∨ ∃ e, find J fs.withoutTimes entry.id = .ok e
  · have hok := h.succeeds_completeClaim hv hclaim tokenHash now commentUrl attempt
    exact absurd he (not_error_of_timeless
      (timeless_completeClaim entry tokenHash now commentUrl attempt) hok)
  · simp only [not_or, Bool.not_eq_true, not_exists] at hclaim
    cases hf : find J fs entry.id with
    | ok e => exact absurd hf (hclaim.2 e)
    | error bad => rw [Clean.completeClaim_error hclaim.1 hf]

/-- A call that returns an error performs no event. -/
theorem Op.trace_rejected (h : Clean J fs.withoutTimes) {op : Op} (hs : op.Sound)
    {err : StoreError} (he : (op.exec J fs).outcome = .error err) : (op.exec J fs).trace = [] := by
  have hacc : Accounted J fs := h.accounted.congr rfl
  have hmap : ∀ {α : Type} {g : α → Reply} {m : Store α},
      ((g <$> m) fs).outcome = .error err → (m fs).outcome = .error err := by
    intro α g m hm
    rw [outcome_map] at hm
    cases ho : (m fs).outcome with
    | error e =>
      rw [ho] at hm
      simpa [Outcome.map] using hm
    | ok a => rw [ho] at hm; cases hm
    | diverges => rw [ho] at hm; cases hm
  cases op with
  | put request options now incarnation =>
    rw [Op.exec, trace_map]
    rcases @put_cases J fs request options now incarnation with
      ⟨htrace, -⟩ | ⟨id, eta, -, -, hrun⟩
    · exact htrace
    · have := hmap he
      rw [hrun] at this
      cases this
  | bump id =>
    rw [Op.exec, trace_map]
    exact reorder_rejected hacc (hmap he)
  | bust id =>
    rw [Op.exec, trace_map]
    exact reorder_rejected hacc (hmap he)
  | del id =>
    rw [Op.exec, trace_map]
    cases hf : find J fs id with
    | ok e =>
      have := hmap he
      rw [del_run hf] at this
      cases this
    | error e => rw [del_error hf]
  | claimNextDue cooldown now token =>
    rw [Op.exec, trace_map]
    exact claimNextDue_rejected hacc (hmap he)
  | releaseClaim id token attemptedAt =>
    rw [Op.exec, trace_map]
    exact releaseClaim_rejected hacc (hmap he)
  | completeClaim entry tokenHash now commentUrl attempt =>
    rw [Op.exec, trace_map]
    exact completeClaim_rejected h hs (hmap he)
  | recoverWorkerState fresh =>
    exact absurd (hmap he) (not_error_of_timeless
      (timeless_bind timeless_reconcileCompletion fun _ => timeless_reclaimClaims fresh)
      (h.succeeds_recover fresh))
  | reopen fresh =>
    obtain ⟨g, hg⟩ : ∃ g, Succeeds (reconcileCompletion J) fs.withoutTimes fun _ fs' =>
        fs' = g := by
      obtain ⟨u, t, hr, -⟩ := h.succeeds_reconcile
      exact ⟨_, u, t, hr, rfl⟩
    exact absurd (hmap he) (not_error_of_timeless (timeless_openStore fresh)
      (h.succeeds_openStore_of hg fresh))
  | appendHistory record =>
    have := hmap he
    rw [append_run] at this
    cases this

end AnyTime

/-- In every store that calls leave behind, whatever the time files hold, a call that returns an
error leaves the entry files, the markers, the time files, the journal and the log as they were. -/
theorem rejected_unchanged {J : SerdeJson} {fs : QueueFs} (h : ReachableAnyTime J fs) {op : Op}
    (hs : op.Sound) {err : StoreError} (he : (op.exec J fs).outcome = .error err) :
    final (op.exec J) fs = fs := by
  unfold final
  rw [Op.trace_rejected h.clean hs he]
  rfl

/-- A claimed entry, and an attempt time that is not a number. -/
def sampleBadAttempt : QueueFs :=
  { afterCalls serdeJson [.put sampleRequest ⟨900, 0, true⟩ 1000 (sampleUuid 1),
      .claimNextDue 900 1000 (sampleUuid 2)] with
    lastPost := none, lastAttempt := some (utf8 "soon") }

/-- A release is rejected before its first write. -/
theorem rejected_unchanged_release :
    ((Op.releaseClaim "4e881b86" (sampleUuid 2).text 1010).exec serdeJson
        sampleBadAttempt).outcome =
      .error (.lastAttempt .invalidDigit) ∧
    final ((Op.releaseClaim "4e881b86" (sampleUuid 2).text 1010).exec serdeJson) sampleBadAttempt =
      sampleBadAttempt := by
  have herr : ((Op.releaseClaim "4e881b86" (sampleUuid 2).text 1010).exec serdeJson
      sampleBadAttempt).outcome = .error (.lastAttempt .invalidDigit) := by decide +kernel
  have hreach : ReachableAnyTime serdeJson sampleBadAttempt :=
    .times _ _ (reachable_afterCalls (by simp [Op.Sound])).anyTime
  exact ⟨herr, rejected_unchanged hreach trivial herr⟩

end Comenq
