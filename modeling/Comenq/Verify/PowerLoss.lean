import Comenq.Store.Disk
import Comenq.Verify.Lifetimes
import Comenq.Verify.Opening
import Comenq.Verify.Recovery

/-!
# Removals and power failures

A removal of an entry file is durable only after a sync of the entries directory, and the store does
not sync it: `del` and the end of a completion return with the removal in the cache. The next write
of any entry file syncs the directory and with it the removal. Whether an entry whose removal was
undone is listed again is then up to the journal that the next opening finds.

`Carries M` says of a directory that it is clean and that its entries are of lifetimes in `M`; it
holds of everything a power failure may leave once it holds of what programs see (`lost_invariant`).
-/

namespace Comenq

open Traced CrashTrace WriteBack

/-! ## What power failures keep -/

/-- A clean directory whose entries are all of lifetimes in `M`. -/
structure Carries (J : SerdeJson) (M : String → String → Prop) (fs : QueueFs) : Prop where
  clean : Clean J fs
  lifetimes : ∀ x ∈ queued J fs, M x.id x.incarnation

theorem QueueFs.entries_write_congr {fs fs' : QueueFs} (h : fs.entries = fs'.entries)
    (bytes : Bytes) (id : String) :
    (fs.write bytes (.entry id)).entries = (fs'.write bytes (.entry id)).entries := by
  simp only [QueueFs.write, h]

section Survivors

variable {J : SerdeJson} {M : String → String → Prop} {g fs₀ : QueueFs} {k : Kind} {ev : FsEvent}

/-- A change of the visible directory keeps any directory a power failure may leave clean. -/
theorem Clean.survivor (hg : Clean J g) (h₀ : Clean J fs₀) (hch : Change J g k ev)
    (he : ∀ id bytes, ev = .writeAtomic (.entry id) bytes → fs₀.entries = g.entries) :
    Clean J (fs₀.step ev) := by
  have ha := hg.accounted.step hch
  have hwrite : ∀ {e : StoredEntry}, ev = .writeAtomic (.entry e.id) e.toVecPretty →
      Accounted J (fs₀.write e.toVecPretty (.entry e.id)) := by
    intro e hev
    rw [hev] at ha
    exact ha.congr (QueueFs.entries_write_congr (he _ _ hev) _ _)
  cases hch with
  | enroll hv _ _ _ hsize _ _ hlife => exact h₀.write_entry (hwrite rfl) hv (by omega) hlife
  | @update _ e e' hq hu _ hs =>
    obtain ⟨u, hl⟩ := hg.lifetime hq
    exact h₀.write_entry (hwrite rfl) (hu.id_eq ▸ isValidId_of_mem hq) hs
      ⟨u, (hg.incarnation_eq hq hu).trans hl⟩
  | drop | take => exact h₀.remove_entry _
  | mark => exact h₀.mark _ _
  | unmark | tidy => exact h₀.unmark _
  | posted time => exact h₀.step (.posted time)
  | attempted time => exact h₀.step (.attempted time)
  | journal hv hp => exact h₀.step (.journal hv hp)
  | finished => exact h₀.step .finished
  | openLog => exact h₀.step .openLog
  | log bytes => exact h₀.step (.log bytes)
  | syncLog => exact h₀.step .syncLog
  | sync d => exact h₀.step (.sync d)

/-- An entry found there afterwards was there before, or is found in the visible directory. -/
theorem Change.mem_survivor (hch : Change J g k ev)
    (he : ∀ id bytes, ev = .writeAtomic (.entry id) bytes → fs₀.entries = g.entries)
    {x : StoredEntry} (hx : x ∈ queued J (fs₀.step ev)) :
    x ∈ queued J fs₀ ∨ x ∈ queued J (g.step ev) := by
  have hwrite : ∀ {id bytes}, ev = .writeAtomic (.entry id) bytes → x ∈ queued J (g.step ev) := by
    intro id bytes hev
    have hq : (fs₀.step ev).entries = (g.step ev).entries := by
      rw [hev]
      exact QueueFs.entries_write_congr (he _ _ hev) _ _
    exact queued_congr hq ▸ hx
  cases hch with
  | enroll | update => exact Or.inr (hwrite rfl)
  | drop | take => exact Or.inl (mem_queued_remove.1 hx).1
  | _ => exact Or.inl hx

theorem Carries.survivor (hg : Carries J M g) (h₀ : Carries J M fs₀) (hch : Change J g k ev)
    (he : ∀ id bytes, ev = .writeAtomic (.entry id) bytes → fs₀.entries = g.entries)
    (hM : ∀ id incarnation, k = .enroll id incarnation → M id incarnation) :
    Carries J M (fs₀.step ev) := by
  refine ⟨hg.clean.survivor h₀.clean hch he, fun x hx => ?_⟩
  rcases hch.mem_survivor he hx with hx | hx
  · exact h₀.lifetimes x hx
  · rcases hch.mem_queued hx with hx | ⟨hk, -⟩ | ⟨e, hq, hu, -⟩
    · exact hg.lifetimes x hx
    · exact hM _ _ hk
    · rw [hu.id_eq, hg.clean.incarnation_eq hq hu]
      exact hg.lifetimes e hq

end Survivors

namespace QueueDisk

section Invariant

variable {J : SerdeJson} {M : String → String → Prop} {K : Kind → Prop} {d : QueueDisk}

/-- What holds of every directory a power failure may leave holds so wherever an operation is cut
off. -/
theorem lost_invariant (hM : ∀ id incarnation, K (.enroll id incarnation) → M id incarnation)
    {t : List FsEvent} (h : ∀ fs, d.Lost fs → Carries J M fs)
    (ha : Along QueueFs.step (Permitted J K) d.current t) {q : List DiskEvent}
    (hq : Cut DiskTears q (diskTrace t)) : ∀ fs, (d.run q).Lost fs → Carries J M fs := by
  induction t generalizing d q with
  | nil =>
    rw [cut_nil.1 hq]
    exact h
  | cons ev t ih =>
    obtain ⟨⟨k, hk, hch⟩, ha⟩ := ha
    have hev : ∀ {q fs}, Cut DiskTears q ev.disk → (d.run q).Lost fs → Carries J M fs := by
      intro q fs hq hl
      rcases hl.of_disk hq with hl | ⟨fs₀, h₀, rfl, he⟩
      · exact h fs hl
      · exact (h _ d.lost_current).survivor (h fs₀ h₀) hch he fun id i hki => hM id i (hki ▸ hk)
    rcases cut_append.1 hq with hq | ⟨q', rfl, hq'⟩
    · exact fun fs hl => hev hq hl
    · intro fs hl
      rw [run, run_append] at hl
      refine ih (fun fs hl => hev (.refl _) hl) ?_ hq' fs hl
      rw [current_run_disk]
      exact ha

end Invariant

/-! ## Runs -/

/-- Calls of the store, finished or cut off, after which the disk events `ms` have happened. -/
inductive Works (J : SerdeJson) (d : QueueDisk) (used : List String) :
    List DiskEvent → List String → Prop
  | idle : Works J d used [] used
  | call {ms q : List DiskEvent} {used' : List String} {op : Op} (before : Works J d used ms used')
      (sound : op.Sound) (fresh : ∀ u ∈ op.draws, u ∉ used')
      (cut : Cut DiskTears q (diskTrace (op.exec J (d.run ms).current).trace)) :
      Works J d used (ms ++ q) (op.draws ++ used')

/-- The disks that runs of the store and power failures lead to from a clean directory. -/
inductive Reach (J : SerdeJson) : QueueDisk → List String → Prop
  | start {fs : QueueFs} {used : List String} (clean : Clean J fs)
      (drawn : ∀ x ∈ queued J fs, x.incarnation ∈ used) : Reach J (settled fs) used
  | work {d : QueueDisk} {used used' : List String} {ms : List DiskEvent} : Reach J d used →
      Works J d used ms used' → Reach J (d.run ms) used'
  | lose {d : QueueDisk} {used : List String} {fs : QueueFs} : Reach J d used → d.Lost fs →
      Reach J (settled fs) used

section Runs

variable {J : SerdeJson} {M : String → String → Prop} {d : QueueDisk} {used used' : List String}
  {ms : List DiskEvent} {fs : QueueFs}

theorem Works.one {op : Op} (sound : op.Sound) (fresh : ∀ u ∈ op.draws, u ∉ used) :
    Works J d used (diskTrace (op.exec J d.current).trace) (op.draws ++ used) :=
  @Works.call J d used [] _ used op .idle sound fresh (.refl _)

theorem Works.used_subset (h : Works J d used ms used') : used ⊆ used' := by
  induction h with
  | idle => exact fun _ h => h
  | call _ _ _ _ ih => exact fun u hu => List.mem_append_right _ (ih hu)

theorem Works.lost_invariant (hw : Works J d used ms used')
    (hM : ∀ id incarnation, incarnation ∈ used' → incarnation ∉ used → M id incarnation)
    (h : ∀ fs, d.Lost fs → Carries J M fs) : ∀ fs, (d.run ms).Lost fs → Carries J M fs := by
  induction hw with
  | idle => exact h
  | @call ms q used' op before sound fresh cut ih =>
    have hbefore := ih fun id i hi => hM id i (List.mem_append_right _ hi)
    intro fs hl
    rw [run, run_append] at hl
    refine QueueDisk.lost_invariant ?_ hbefore (performs_exec sound).along cut fs hl
    intro id i hk
    have hi : i ∈ op.draws := Op.kinds_draws hk i (List.mem_singleton.2 rfl)
    exact hM id i (List.mem_append_left _ hi) fun hu => fresh i hi (before.used_subset hu)

theorem carries_settled (h : Carries J M fs) : ∀ fs', (settled fs).Lost fs' → Carries J M fs' := by
  intro fs' hl
  obtain ⟨he, ha, hr⟩ := lost_settled hl
  have heq : fs' = { fs with history := fs'.history } :=
    QueueFs.ext he ha (congrArg RootDir.lastPost hr) (congrArg RootDir.lastAttempt hr)
      (congrArg RootDir.completion hr) rfl
  rw [heq]
  exact ⟨h.clean.history _, h.lifetimes⟩

/-- Everything a power failure may leave is clean, with lifetimes drawn before. -/
theorem Reach.carries (h : Reach J d used) :
    ∀ fs, d.Lost fs → Carries J (fun _ incarnation => incarnation ∈ used) fs := by
  induction h with
  | start clean drawn => exact carries_settled ⟨clean, drawn⟩
  | work _ hw ih =>
    refine hw.lost_invariant (fun _ _ hi _ => hi) fun fs hl => ?_
    exact ⟨(ih fs hl).clean, fun x hx => hw.used_subset ((ih fs hl).lifetimes x hx)⟩
  | lose _ hl ih => exact carries_settled (ih _ hl)

theorem Reach.clean (h : Reach J d used) : Clean J d.current := (h.carries _ d.lost_current).clean

end Runs

/-! ## The entries directory along a run -/

section Entries

variable {J : SerdeJson} {d d' : QueueDisk} {used used' : List String} {ms : List DiskEvent}

theorem entries_step_congr (h : d.entries = d'.entries) (ev : DiskEvent) :
    (d.step ev).entries = (d'.step ev).entries := by
  cases ev with
  | rename f bytes => cases f <;> simp only [step, change, QueueFile.parent, h]
  | remove f => cases f <;> simp only [step, change, QueueFile.parent, h]
  | syncDir dir => cases dir <;> simp only [step, sync, h]
  | openLog | append | syncLog => exact h

theorem entries_run_congr (h : d.entries = d'.entries) :
    (d.run ms).entries = (d'.run ms).entries := by
  induction ms generalizing d d' with
  | nil => exact h
  | cons ev ms ih => exact ih (entries_step_congr h ev)

theorem current_step_congr (h : d.current = d'.current) (ev : DiskEvent) :
    (d.step ev).current = (d'.step ev).current := by
  have hh : d.history = d'.history := congrArg QueueFs.history h
  cases ev with
  | rename f bytes =>
    change (d.change _ _).current = (d'.change _ _).current
    rw [current_change, current_change, h]
  | remove f =>
    change (d.change _ _).current = (d'.change _ _).current
    rw [current_change, current_change, h]
  | syncDir dir =>
    change (d.sync _).current = (d'.sync _).current
    rw [current_sync, current_sync, h]
  | openLog =>
    change { d.current with history := some (d.history.getD []) } = _
    rw [h, hh]
    rfl
  | append bytes =>
    change { d.current with history := some (d.history.getD [] ++ bytes) } = _
    rw [h, hh]
    rfl
  | syncLog => exact h

theorem current_run_congr (h : d.current = d'.current) :
    (d.run ms).current = (d'.run ms).current := by
  induction ms generalizing d d' with
  | nil => exact h
  | cons ev ms ih => exact ih (current_step_congr h ev)

/-- Programs do not see what is durable. -/
theorem Works.congr (hw : Works J d used ms used') (h : d.current = d'.current) :
    Works J d' used ms used' := by
  induction hw with
  | idle => exact .idle
  | call _ sound fresh cut ih =>
    rw [current_run_congr h] at cut
    exact .call ih sound fresh cut

/-- A sync of the entries directory forgets what was durable before. -/
theorem entries_run_of_sync (hs : .syncDir .entries ∈ ms) (h : d.current = d'.current) :
    (d.run ms).entries = (d'.run ms).entries := by
  induction ms generalizing d d' with
  | nil => cases hs
  | cons ev ms ih =>
    by_cases hms : .syncDir .entries ∈ ms
    · exact ih hms (current_step_congr h ev)
    · obtain rfl : ev = .syncDir .entries := by
        rcases List.mem_cons.1 hs with rfl | hs
        · rfl
        · exact absurd hs hms
      change ((d.sync .entries).run ms).entries = ((d'.sync .entries).run ms).entries
      exact entries_run_congr (congrArg Cached.settled (congrArg QueueFs.entries h))

/-- Without a sync of the entries directory, its changes only pile up. -/
theorem entries_run_of_not_sync (hs : .syncDir .entries ∉ ms) :
    (d.run ms).entries.durable = d.entries.durable ∧
      d.entries.pending <+: (d.run ms).entries.pending := by
  induction ms generalizing d with
  | nil => exact ⟨rfl, List.prefix_refl _⟩
  | cons ev ms ih =>
    obtain ⟨hev, hms⟩ := not_or.1 (fun h => hs (List.mem_cons.2 h))
    have hstep : (d.step ev).entries.durable = d.entries.durable ∧
        d.entries.pending <+: (d.step ev).entries.pending := by
      cases ev with
      | rename f bytes =>
        cases f with
        | entry id => exact ⟨rfl, List.prefix_append _ _⟩
        | _ => exact ⟨rfl, List.prefix_refl _⟩
      | remove f =>
        cases f with
        | entry id => exact ⟨rfl, List.prefix_append _ _⟩
        | _ => exact ⟨rfl, List.prefix_refl _⟩
      | syncDir dir =>
        cases dir with
        | entries => exact absurd rfl hev
        | _ => exact ⟨rfl, List.prefix_refl _⟩
      | openLog | append | syncLog => exact ⟨rfl, List.prefix_refl _⟩
    obtain ⟨hd, hp⟩ := @ih (d.step ev) hms
    exact ⟨hd.trans hstep.1, hstep.2.trans hp⟩

/-- A power failure may lose all changes of the entries directory since its last sync. -/
theorem survives_of_not_sync (hs : .syncDir .entries ∉ ms) :
    (d.run ms).entries.Survives stepEntries d.current.entries := by
  obtain ⟨hdurable, hpending⟩ := entries_run_of_not_sync (d := d) hs
  exact ⟨d.entries.pending, hpending.sublist, by rw [hdurable]; rfl⟩

end Entries

end QueueDisk

/-! ## Removals -/

/-- The calls that remove a queued entry: its deletion, and the completion that carries its
claim. -/
def Op.Removes (x : StoredEntry) : Op → Prop
  | .del id => id = x.id
  | .completeClaim entry .. =>
    entry.id = x.id ∧ entry.claimToken = x.claimToken ∧ x.claimToken.isSome = true
  | _ => False

section Removal

variable {J : SerdeJson} {fs : QueueFs} {x : StoredEntry} {op : Op}

theorem Op.Removes.sound (h : op.Removes x) (hx : x ∈ queued J fs) : op.Sound := by
  cases op with
  | completeClaim entry =>
    obtain ⟨hid, -, -⟩ := h
    change isValidId entry.id = true
    rw [hid]
    exact isValidId_of_mem hx
  | _ => trivial

/-- `m` succeeds, leaves no entry under the name of `x` and no new journal, and does not sync the
entries directory. -/
structure Removal {α : Type} (J : SerdeJson) (x : StoredEntry) (fs : QueueFs)
    (m : Store α) : Prop where
  outcome : ∃ a, (m fs).outcome = .ok a
  absent : ∀ y ∈ queued J (final m fs), y.id ≠ x.id
  completion : fs.completion = none → (final m fs).completion = none
  unsynced : .syncDir .entries ∉ diskTrace (m fs).trace

theorem Removal.map {α β : Type} {m : Store α} (h : Removal J x fs m) (f : α → β) :
    Removal J x fs (f <$> m) := by
  obtain ⟨a, ha⟩ := h.outcome
  refine ⟨⟨f a, ?_⟩, ?_, ?_, ?_⟩
  · rw [run_map, ha]; rfl
  · rw [final_map]; exact h.absent
  · rw [final_map]; exact h.completion
  · rw [run_map]; exact h.unsynced

theorem removal_del (hx : x ∈ queued J fs) : Removal J x fs (del J x.id) := by
  have hrun := del_run (find_of_mem hx)
  refine ⟨⟨(), by rw [hrun]⟩, ?_, ?_, ?_⟩
  · intro y hy
    unfold final at hy
    rw [hrun] at hy
    exact (mem_queued_remove.1 hy).2
  · intro hnone
    unfold final
    rw [hrun]
    exact hnone
  · rw [hrun]
    simp [diskTrace, FsEvent.disk, QueueFile.parent]

theorem unsynced_finishTrace (c : CompletionRecord) (r : HistoryRecord) :
    .syncDir .entries ∉ diskTrace (finishTrace J c r fs) := by
  unfold finishTrace logTrace clearTrace appendTrace diskTrace
  simp only [List.flatMap_append, List.mem_append, not_or]
  refine ⟨⟨⟨?_, ?_⟩, ?_⟩, ?_⟩
  · split
    · simp
    · split <;> split <;> simp [FsEvent.disk]
  · split <;> simp [FsEvent.disk]
  · split <;> simp [FsEvent.disk]
  · simp [FsEvent.disk, QueueFile.parent]

theorem Clean.removal_completeClaim (hc : Clean J fs) (hx : x ∈ queued J fs) {entry : StoredEntry}
    (hid : entry.id = x.id) (hclaim : entry.claimToken = x.claimToken)
    (hsome : x.claimToken.isSome = true) (tokenHash : String) (now : UInt64)
    (commentUrl : Option String) (attempt : Uuid) :
    Removal J x fs (completeClaimWithToken J entry tokenHash now commentUrl attempt) := by
  have hv : isValidId entry.id = true := hid ▸ isValidId_of_mem hx
  have hclaimed : entry.claimToken.isSome = true := hclaim ▸ hsome
  have hrun := hc.completeClaim_run hv (Or.inl hclaimed) tokenHash now commentUrl attempt rfl rfl
  obtain ⟨-, -, hfin⟩ :=
    (hc.succeeds_completeClaim hv (Or.inl hclaimed) tokenHash now commentUrl attempt).final
  refine ⟨⟨(), by rw [hrun]⟩, ?_, ?_, ?_⟩
  · intro y hy
    have htakes : takesEntry J fs (completionRecord entry tokenHash now commentUrl attempt
        fs.historyBytes.length) = true := by
      unfold takesEntry completionRecord
      simp only [hid, find_of_mem hx, hclaim]
      cases x.claimToken with
      | none => rfl
      | some token => exact beq_self_eq_true _
    have hentries : (final (completeClaimWithToken J entry tokenHash now commentUrl attempt)
        fs).entries = (fs.remove (.entry x.id)).entries := by
      rw [hfin]
      change (if takesEntry J fs _ then _ else _) = _
      rw [htakes, if_pos rfl]
      exact congrArg fs.entries.erase hid
    rw [queued_congr hentries] at hy
    exact (mem_queued_remove.1 hy).2
  · intro _
    rw [hfin]
    rfl
  · rw [hrun]
    intro hmem
    rcases List.mem_append.1 hmem with hm | hm
    · simp [FsEvent.disk, QueueFile.parent] at hm
    · exact unsynced_finishTrace _ _ hm

theorem Op.Removes.removal (h : op.Removes x) (hc : Clean J fs) (hx : x ∈ queued J fs) :
    Removal J x fs (op.exec J) := by
  cases op with
  | del id =>
    obtain rfl : id = x.id := h
    exact (removal_del hx).map _
  | completeClaim entry tokenHash now commentUrl attempt =>
    obtain ⟨hid, hclaim, hsome⟩ := h
    exact (hc.removal_completeClaim hx hid hclaim hsome tokenHash now commentUrl attempt).map _
  | _ => exact h.elim

end Removal

/-- Whether the queue lists this lifetime. -/
def Lists (J : SerdeJson) (fs : QueueFs) (x : StoredEntry) : Prop :=
  ∃ es, entries J fs = .ok es ∧ ∃ y ∈ es, y.id = x.id ∧ y.incarnation = x.incarnation

/-- The opening of a clean directory succeeds, and it lists the lifetimes found there that the
journal does not remove. -/
theorem Clean.lists_openStore {J : SerdeJson} {fs : QueueFs} (h : Clean J fs) (x : StoredEntry)
    (fresh : String → Uuid) :
    (openStore J fresh fs).outcome = .ok () ∧
    (Lists J (final (openStore J fresh) fs) x ↔ ∃ y ∈ queued J fs, y.id = x.id ∧
      y.incarnation = x.incarnation ∧ ¬ RemovedByJournal J fs y) := by
  obtain ⟨u, t, hr, -⟩ := h.succeeds_reconcile
  obtain ⟨_, hok, hclean, -⟩ := (h.succeeds_openStore_of ⟨u, t, hr, rfl⟩ fresh).final
  obtain ⟨-, hkeeps⟩ := (leadsTo_openStore fresh).post () hok
  refine ⟨hok, ?_, ?_⟩
  · rintro ⟨es, hes, z, hz, hid, hlife⟩
    obtain ⟨-, rfl⟩ := entries_ok hes
    obtain ⟨y, hy, hkept, rfl⟩ := (hkeeps.queue z).1 (mem_sortEntries.1 hz)
    rw [h.reclaimed_eq hy fresh] at hid hlife
    exact ⟨y, hy, hid, hlife, hkept⟩
  · rintro ⟨y, hy, hid, hlife, hkept⟩
    refine ⟨_, hclean.entries_eq, y.unclaimed, mem_sortEntries.2 ?_, hid, hlife⟩
    exact (hkeeps.queue _).2 ⟨y, hy, hkept, (h.reclaimed_eq hy fresh).symm⟩

/-- Entries of one clean directory and the other files of another make a clean directory. -/
theorem Clean.mix {J : SerdeJson} {a b : QueueFs} (ha : Clean J a) (hb : Clean J b) :
    Clean J { b with entries := a.entries } :=
  ⟨ha.accounted.congr rfl, ha.readable, ha.lifetime, hb.markers, hb.lastPost, hb.lastAttempt,
    hb.journal⟩

/-- An entry that a durable journal removes stays so through its deletion and a power failure. -/
theorem RemovedByJournal.of_lost_del {J : SerdeJson} {fs fs' : QueueFs} {x y : StoredEntry}
    (h : RemovedByJournal J fs x) (hx : x ∈ queued J fs)
    (hl : ((QueueDisk.settled fs).run (diskTrace ((Op.del x.id).exec J fs).trace)).Lost fs')
    (hy : y ∈ queued J fs') (hid : y.id = x.id) : RemovedByJournal J fs' y := by
  have htrace : ((Op.del x.id).exec J fs).trace = [.writeAtomic (.awaitDeletion x.id)
      (AwaitDeletionRecord.toVec ⟨x.incarnation⟩), .removeFile (.entry x.id)] := by
    rw [Op.exec, trace_map, del_run (find_of_mem hx)]
  rw [htrace] at hl
  -- only the removal is not durable
  have hroot : fs'.rootDir = fs.rootDir := Cached.survives_settled.1 hl.root
  have hmem : y ∈ queued J fs := by
    rcases Cached.survives_perform.1 hl.entries with he | ⟨s, hs, he⟩
    · exact queued_congr (Cached.survives_settled.1 he) ▸ hy
    · rw [Cached.survives_settled.1 hs] at he
      have hfs : fs'.entries = (fs.remove (.entry x.id)).entries := he
      rw [queued_congr hfs] at hy
      exact (mem_queued_remove.1 hy).1
  obtain ⟨c, hc, hxid, htoken⟩ := h
  have hpending : pendingCompletion J fs' = some c := by
    rw [← hc]
    exact congrArg (fun r : RootDir => r.completion.bind J.completion) hroot
  rw [eq_of_mem_queued hmem hx hid]
  exact ⟨c, hpending, hxid, htoken⟩

section Journalled

variable (J : SerdeJson) (fs : QueueFs) (c : CompletionRecord)

theorem journalled_eq : queued J (fs.write c.toVec .completion) = queued J fs ∧
    pendingCompletion J (fs.write c.toVec .completion) = some c :=
  ⟨queued_congr rfl, J.completion_toVec c⟩

variable {J fs c}

theorem Clean.journalled (h : Clean J fs) (hv : isValidId c.id = true)
    (hr : c.history.isSome = true) : Clean J (fs.write c.toVec .completion) :=
  h.step (.journal hv hr)

end Journalled

section Removals

variable {J : SerdeJson} {d d' : QueueDisk} {used used' : List String} {x : StoredEntry} {op : Op}
  {ms : List DiskEvent} (hd : d.Reach J used) (hx : x ∈ queued J d.current) (hop : op.Removes x)
  (hd' : d' = d.run (diskTrace (op.exec J d.current).trace))
  (hw : d'.Works J (op.draws ++ used) ms used') (hfresh : ∀ u ∈ op.draws, u ∉ used)
include hd hx hop hd' hw hfresh

omit hw in
theorem QueueDisk.Reach.removed : d'.Reach J (op.draws ++ used) :=
  hd' ▸ .work hd (.one (hop.sound hx) hfresh)

/-- A removal that was synced survives. -/
theorem removal_survives (hsync : .syncDir .entries ∈ ms) {fs : QueueFs} (hl : (d'.run ms).Lost fs)
    (fresh : String → Uuid) : ¬ Lists J (final (openStore J fresh) fs) x := by
  have hremoval := hop.removal hd.clean hx
  have hreach' := hd.removed hx hop hd' hfresh
  have hused : x.incarnation ∈ used := (hd.carries _ d.lost_current).lifetimes x hx
  have hgone : Carries J (fun id incarnation => ¬ (id = x.id ∧ incarnation = x.incarnation))
      d'.current := by
    refine ⟨hreach'.clean, fun y hy hsame => ?_⟩
    rw [hd', QueueDisk.current_run_diskTrace] at hy
    exact hremoval.absent y hy hsame.1
  -- the same calls on a disk where what programs see after the removal is durable
  have hsettled := hw.congr (QueueDisk.current_settled d'.current).symm
  have hinv := hsettled.lost_invariant (M := fun id incarnation =>
      ¬ (id = x.id ∧ incarnation = x.incarnation)) ?_ (QueueDisk.carries_settled hgone)
  · have hentries := QueueDisk.entries_run_of_sync hsync (QueueDisk.current_settled d'.current).symm
    set s := (QueueDisk.settled d'.current).run ms
    have hlost : s.Lost { s.current with entries := fs.entries } :=
      ⟨hentries ▸ hl.entries, s.lost_current.awaitDeletions, s.lost_current.root⟩
    have hcarries : Carries J (fun id incarnation => ¬ (id = x.id ∧ incarnation = x.incarnation))
        fs :=
      ⟨((hreach'.work hw).carries fs hl).clean, (hinv _ hlost).lifetimes⟩
    rw [(hcarries.clean.lists_openStore x fresh).2]
    rintro ⟨y, hy, hid, hlife, -⟩
    exact hcarries.lifetimes y hy ⟨hid, hlife⟩
  · rintro id incarnation - hnew ⟨-, rfl⟩
    exact hnew (List.mem_append_right _ hused)

/-- A removal that was not synced can be undone, and the entry is listed again unless the journal
that the power failure leaves removes it. -/
theorem removal_undone (hsync : .syncDir .entries ∉ ms) {fs₀ : QueueFs}
    (hl : (d'.run ms).Lost fs₀) (hkept : ¬ RemovedByJournal J fs₀ x) :
    ∃ fs, (d'.run ms).Lost fs ∧ fs.completion = fs₀.completion ∧
      ∀ fresh, (openStore J fresh fs).outcome = .ok () ∧
        Lists J (final (openStore J fresh) fs) x := by
  have hms : .syncDir .entries ∉ diskTrace (op.exec J d.current).trace ++ ms := by
    rw [List.mem_append, not_or]
    exact ⟨(hop.removal hd.clean hx).unsynced, hsync⟩
  have hrun : d'.run ms = d.run (diskTrace (op.exec J d.current).trace ++ ms) := by
    rw [hd']
    exact (run_append d _ ms).symm
  -- the power failure loses every change of the entries directory since the removal
  have hentries := QueueDisk.survives_of_not_sync (d := d) hms
  rw [← hrun] at hentries
  have hclean₀ := (((hd.removed hx hop hd' hfresh).work hw).carries fs₀ hl).clean
  have hmix := hd.clean.mix hclean₀
  refine ⟨{ fs₀ with entries := d.current.entries }, ⟨hentries, hl.awaitDeletions, hl.root⟩, rfl,
    fun fresh => ?_⟩
  obtain ⟨hok, hlists⟩ := hmix.lists_openStore x fresh
  exact ⟨hok, hlists.2 ⟨x, hx, rfl, rfl, hkept⟩⟩

omit hw in
/-- A power failure right after a removal can undo it. -/
theorem removal_undone_at_once (hnone : d.current.completion = none) :
    ∃ fs, d'.Lost fs ∧ ∀ fresh, (openStore J fresh fs).outcome = .ok () ∧
      Lists J (final (openStore J fresh) fs) x := by
  have hpending : pendingCompletion J d'.current = none := by
    unfold pendingCompletion
    rw [hd', QueueDisk.current_run_diskTrace]
    have hafter := (hop.removal hd.clean hx).completion hnone
    unfold final at hafter
    rw [hafter]
    rfl
  obtain ⟨fs, hl, -, hlists⟩ := removal_undone hd hx hop hd' .idle hfresh List.not_mem_nil
    d'.lost_current (not_removed_of_none hpending x)
  exact ⟨fs, hl, hlists⟩

/-- **Removals and power failures.** A deletion or completion of a queued entry always succeeds.
After it and any further calls, a power failure cannot bring the entry back if the entries directory
was synced since the removal. If it was not, the failure can bring the entry back with every journal
it may leave that does not remove the entry. In general the next opening succeeds and lists the
entry exactly if the directory it finds holds the lifetime in a form that the journal does not
remove. -/
theorem removal_durable_iff :
    (∃ reply, (op.exec J d.current).outcome = .ok reply) ∧
    (.syncDir .entries ∈ ms → ∀ fs, (d'.run ms).Lost fs → ∀ fresh,
      ¬ Lists J (final (openStore J fresh) fs) x) ∧
    (.syncDir .entries ∉ ms → ∀ fs₀, (d'.run ms).Lost fs₀ → ¬ RemovedByJournal J fs₀ x →
      ∃ fs, (d'.run ms).Lost fs ∧ fs.completion = fs₀.completion ∧
        ∀ fresh, (openStore J fresh fs).outcome = .ok () ∧
          Lists J (final (openStore J fresh) fs) x) ∧
    ∀ fs, (d'.run ms).Lost fs → ∀ fresh, (openStore J fresh fs).outcome = .ok () ∧
      (Lists J (final (openStore J fresh) fs) x ↔ ∃ y ∈ queued J fs, y.id = x.id ∧
        y.incarnation = x.incarnation ∧ ¬ RemovedByJournal J fs y) := by
  refine ⟨(hop.removal hd.clean hx).outcome, ?_, ?_, ?_⟩
  · intro hsync fs hl fresh
    exact removal_survives hd hx hop hd' hw hfresh hsync hl fresh
  · intro hsync fs₀ hl hkept
    exact removal_undone hd hx hop hd' hw hfresh hsync hl hkept
  · intro fs hl fresh
    have hclean := (((hd.removed hx hop hd' hfresh).work hw).carries fs hl).clean
    exact hclean.lists_openStore x fresh

end Removals

theorem sampleStored_reachable : sampleStored.Reachable serdeJson :=
  (World.reachable_afterStart serdeJson sampleBoot).step (World.step_performed (by decide +kernel))

def sampleDisk : QueueDisk := .settled sampleStored.fs

def sampleDel : Op := .del sampleEntry.id

/-- The disk with the sample entry just deleted. -/
def sampleDeleted : QueueDisk :=
  sampleDisk.run (diskTrace (sampleDel.exec serdeJson sampleDisk.current).trace)

def sampleClaimDisk : QueueDisk := .settled sampleHolding.fs

def sampleComplete : Op := .completeClaim sampleClaim "hash" 1010 none (sampleUuid 3)

/-- The disk with the sample claim just completed. -/
def sampleCompleted : QueueDisk :=
  sampleClaimDisk.run (diskTrace (sampleComplete.exec serdeJson sampleClaimDisk.current).trace)

theorem sampleDisk_reach : sampleDisk.Reach serdeJson sampleStored.used :=
  have howned := sampleStored_reachable.owned
  .start howned.clean fun _ hx => howned.drawn.incarnation hx

theorem sampleClaimDisk_reach : sampleClaimDisk.Reach serdeJson sampleHolding.used :=
  have howned := sampleHolding_reachable.owned
  .start howned.clean fun _ hx => howned.drawn.incarnation hx

theorem sampleClaim_mem : sampleClaim ∈ queued serdeJson sampleHolding.fs := by decide +kernel

theorem sampleComplete_draws : ∀ u ∈ sampleComplete.draws, u ∉ sampleHolding.used := by
  intro u hu
  rw [List.mem_singleton.1 hu]
  exact sampleHolding_eq.2.1

theorem sampleEntry_mem : sampleEntry ∈ queued serdeJson sampleDisk.current := by decide +kernel

/-- A power failure right after a deletion or a completion that succeeded: the next opening succeeds
and lists the entry again. -/
theorem removal_undone_by_power_failure :
    (sampleStored.Reachable serdeJson ∧
      (∃ reply, (sampleDel.exec serdeJson sampleDisk.current).outcome = .ok reply) ∧
      ∃ fs, sampleDeleted.Lost fs ∧ ∀ fresh, (openStore serdeJson fresh fs).outcome = .ok () ∧
        Lists serdeJson (final (openStore serdeJson fresh) fs) sampleEntry) ∧
    (sampleHolding.Reachable serdeJson ∧ sampleHolding.phase = .up (.holding sampleClaim) ∧
      (∃ reply, (sampleComplete.exec serdeJson sampleClaimDisk.current).outcome = .ok reply) ∧
      ∃ fs, sampleCompleted.Lost fs ∧ ∀ fresh, (openStore serdeJson fresh fs).outcome = .ok () ∧
        Lists serdeJson (final (openStore serdeJson fresh) fs) sampleClaim) := by
  constructor
  · have hop : sampleDel.Removes sampleEntry := rfl
    have hnone : sampleDisk.current.completion = none := by decide +kernel
    exact ⟨sampleStored_reachable, (hop.removal sampleDisk_reach.clean sampleEntry_mem).outcome,
      removal_undone_at_once sampleDisk_reach sampleEntry_mem hop rfl
        (fun _ h => absurd h List.not_mem_nil) hnone⟩
  · have hop : sampleComplete.Removes sampleClaim := ⟨rfl, rfl, rfl⟩
    have hx : sampleClaim ∈ queued serdeJson sampleClaimDisk.current := by
      rw [sampleClaimDisk, QueueDisk.current_settled]
      exact sampleClaim_mem
    have hnone : sampleClaimDisk.current.completion = none := by decide +kernel
    exact ⟨sampleHolding_reachable, sampleHolding_eq.1,
      (hop.removal sampleClaimDisk_reach.clean hx).outcome,
      removal_undone_at_once sampleClaimDisk_reach hx hop rfl sampleComplete_draws hnone⟩

/-- A later `put`. -/
def sampleLater : Op :=
  .put { sampleRequest with body := "pong" } ⟨900, 0, true⟩ 1001 (sampleUuid 4)

/-- The directory where the completion of the sample claim failed after it had written its
journal. -/
def sampleJournalled : QueueFs :=
  sampleHolding.fs.write (completionRecord sampleClaim "hash" 1010 none (sampleUuid 3) 0).toVec
    .completion

theorem sampleJournalled_eq :
    queued serdeJson sampleJournalled = queued serdeJson sampleHolding.fs ∧
    pendingCompletion serdeJson sampleJournalled =
      some (completionRecord sampleClaim "hash" 1010 none (sampleUuid 3) 0) :=
  journalled_eq _ _ _

theorem sampleJournalled_reach :
    (QueueDisk.settled sampleJournalled).Reach serdeJson sampleHolding.used := by
  have howned := sampleHolding_reachable.owned
  have hv : isValidId sampleClaim.id = true := by decide
  refine .start (howned.clean.journalled hv rfl) fun x hx => howned.drawn.incarnation ?_
  rwa [sampleJournalled_eq.1] at hx

/-- A deletion is durable once another entry was stored; and so is, at once, the deletion of an
entry whose completion is pending, since the journal removes the entry again. -/
theorem removal_durable_iff_later :
    (.syncDir .entries ∈ diskTrace (sampleLater.exec serdeJson sampleDeleted.current).trace ∧
      ∀ fs, (sampleDeleted.run (diskTrace (sampleLater.exec serdeJson
          sampleDeleted.current).trace)).Lost fs → ∀ fresh,
        ¬ Lists serdeJson (final (openStore serdeJson fresh) fs) sampleEntry) ∧
    ∀ fs, ((QueueDisk.settled sampleJournalled).run
        (diskTrace (sampleDel.exec serdeJson sampleJournalled).trace)).Lost fs → ∀ fresh,
      (openStore serdeJson fresh fs).outcome = .ok () ∧
      ¬ Lists serdeJson (final (openStore serdeJson fresh) fs) sampleClaim := by
  have hdraws : ∀ used : List String, ∀ u ∈ sampleDel.draws, u ∉ used :=
    fun _ _ h => absurd h List.not_mem_nil
  constructor
  · have hop : sampleDel.Removes sampleEntry := rfl
    have hw := @QueueDisk.Works.one serdeJson sampleDeleted (sampleDel.draws ++ sampleStored.used)
      sampleLater trivial (by decide +kernel)
    have hsync : .syncDir .entries ∈ diskTrace (sampleLater.exec serdeJson
        sampleDeleted.current).trace := by decide +kernel
    have hdel : sampleDeleted =
        sampleDisk.run (diskTrace (sampleDel.exec serdeJson sampleDisk.current).trace) := rfl
    exact ⟨hsync, (removal_durable_iff sampleDisk_reach sampleEntry_mem hop hdel hw
      (hdraws _)).2.1 hsync⟩
  · obtain ⟨hqueued, hjournal⟩ := sampleJournalled_eq
    have hmem : sampleClaim ∈ queued serdeJson sampleJournalled := by
      rw [hqueued]
      exact sampleClaim_mem
    have htaken : RemovedByJournal serdeJson sampleJournalled sampleClaim :=
      (removed_iff hjournal).2 ⟨rfl, fun token ht => ht⟩
    have hreach := sampleJournalled_reach
    revert hmem htaken hreach
    generalize sampleJournalled = fs₀
    intro hmem htaken hreach fs hl fresh
    have hop : sampleDel.Removes sampleClaim := rfl
    obtain ⟨-, -, -, hlisted⟩ := removal_durable_iff hreach hmem hop rfl .idle (hdraws _)
    obtain ⟨hok, hiff⟩ := hlisted fs hl fresh
    refine ⟨hok, fun hlists => ?_⟩
    obtain ⟨y, hy, hid, -, hkept⟩ := hiff.1 hlists
    exact hkept (htaken.of_lost_del hmem hl hy hid)

end Comenq
