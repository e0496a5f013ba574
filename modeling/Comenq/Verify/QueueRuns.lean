import Comenq.Verify.CleanRuns

/-!
# What the queue operations do

The runs of `put`, `bump`, `bust`, `del`, `claimNextDue`, `releaseClaim` and of opening a store: the
events each performs and what it returns. Updates of queued entries only need the limits of the
directory to cover them (`Covered`); reclaiming and opening are described in clean directories.
-/

namespace Comenq

open Saturating JsonText Traced CrashTrace

/-! ## Reordering, claiming and releasing -/

theorem run_find {J : SerdeJson} {fs : QueueFs} {id : String} {e : StoredEntry}
    (h : find J fs id = .ok e) :
    (Traced.read fun fs => find J fs id : Store StoredEntry) fs = ⟨.ok e, []⟩ :=
  run_read_ok h

theorem run_find_error {J : SerdeJson} {fs : QueueFs} {id : String} {err : StoreError}
    (h : find J fs id = .error err) :
    (Traced.read fun fs => find J fs id : Store StoredEntry) fs = ⟨.error err, []⟩ :=
  run_read_error h

namespace Covered

variable {J : SerdeJson} {fs : QueueFs}

theorem entries_eq (h : Covered J fs) : entries J fs = .ok (sortEntries (queued J fs)) :=
  Comenq.entries_eq h.limits

theorem reorder_run (h : Covered J fs) {id : String} {e : StoredEntry}
    (hf : find J fs id = .ok e) (newOrder : StoredEntry → List StoredEntry → Int64) :
    reorder J id newOrder fs = ⟨.ok (), [.writeAtomic (.entry id)
      { e with order := newOrder e (sortEntries (queued J fs)) }.toVecPretty]⟩ := by
  obtain ⟨he, rfl⟩ := find_ok_iff.1 hf
  refine run_bind (run_read_ok h.entries_eq) (run_bind (run_find hf) ?_)
  exact h.writeEntry_run he (e.updates_order _)

theorem reorder_error (h : Covered J fs) {id : String} {err : StoreError}
    (hf : find J fs id = .error err) (newOrder : StoredEntry → List StoredEntry → Int64) :
    reorder J id newOrder fs = ⟨.error err, []⟩ :=
  run_bind (run_read_ok h.entries_eq) (run_bind_error (run_find_error hf))

theorem claimNextDue_run (h : Covered J fs) {cooldown now : UInt64} {e : StoredEntry}
    (hd : nextDue J cooldown now fs = .ok (some (e, 0))) (token : Uuid) :
    claimNextDue J cooldown now token fs =
      ⟨.ok (some ({ e with claimToken := some token.text }, 0)),
        [.writeAtomic (.entry e.id) { e with claimToken := some token.text }.toVecPretty]⟩ := by
  have he := mem_of_nextDue hd
  refine run_bind (run_read_ok hd) ?_
  simp only
  rw [if_neg (by decide)]
  exact run_bind (h.writeEntry_run he (e.updates_claim token)) rfl

theorem releaseClaim_run (h : Covered J fs) {id token : String} {e : StoredEntry}
    (hf : find J fs id = .ok e) (ht : e.claimToken = some token) {previous : Option UInt64}
    (hp : lastAttempt fs = .ok previous) (time : UInt64) :
    releaseClaim J id token time fs =
      ⟨.ok (), [.writeAtomic .lastAttempt (decimalU64 (maxU (previous.getD 0) time)),
        .writeAtomic (.entry id) { e with claimToken := none }.toVecPretty]⟩ := by
  obtain ⟨he, rfl⟩ := find_ok_iff.1 hf
  unfold releaseClaim
  rw [run_inspect, hf]
  simp only
  rw [if_pos ht]
  refine run_bind (run_read_ok hp) (run_bind (run_emit _) ?_)
  have ha : Covered J (fs.step (.writeAtomic .lastAttempt
      (decimalU64 (maxU (previous.getD 0) time)))) := h.congr rfl
  exact ha.writeEntry_run (e := e) he e.updates_release

end Covered

/-- What a claim attempt returns when it hands out nothing. -/
theorem claimNextDue_idle {J : SerdeJson} {fs : QueueFs} {cooldown now : UInt64}
    {due : Option (StoredEntry × UInt64)} (hd : nextDue J cooldown now fs = .ok due)
    (hw : ∀ e wait, due = some (e, wait) → wait > 0) (token : Uuid) :
    claimNextDue J cooldown now token fs = ⟨.ok due, []⟩ := by
  refine run_bind (run_read_ok hd) ?_
  cases due with
  | none => rfl
  | some p =>
    obtain ⟨e, wait⟩ := p
    simp only
    rw [if_pos (hw e wait rfl)]
    rfl

theorem claimNextDue_error {J : SerdeJson} {fs : QueueFs} {cooldown now : UInt64} {err : StoreError}
    (hd : nextDue J cooldown now fs = .error err) (token : Uuid) :
    claimNextDue J cooldown now token fs = ⟨.error err, []⟩ :=
  run_bind_error (run_read_error hd)

/-- A claim attempt fails, reports the head and its wait, or hands out the head. -/
theorem Covered.claimNextDue_cases {J : SerdeJson} {fs : QueueFs} (h : Covered J fs)
    (cooldown now : UInt64) (token : Uuid) :
    (∃ err, nextDue J cooldown now fs = .error err ∧
      claimNextDue J cooldown now token fs = ⟨.error err, []⟩) ∨
    (∃ due, nextDue J cooldown now fs = .ok due ∧ (∀ e wait, due = some (e, wait) → wait > 0) ∧
      claimNextDue J cooldown now token fs = ⟨.ok due, []⟩) ∨
    ∃ e, nextDue J cooldown now fs = .ok (some (e, 0)) ∧
      claimNextDue J cooldown now token fs =
        ⟨.ok (some ({ e with claimToken := some token.text }, 0)),
          [.writeAtomic (.entry e.id) { e with claimToken := some token.text }.toVecPretty]⟩ := by
  cases hd : nextDue J cooldown now fs with
  | error err => exact Or.inl ⟨err, rfl, claimNextDue_error hd token⟩
  | ok due =>
    cases due with
    | none =>
      have hw : ∀ (e : StoredEntry) (wait : UInt64), none = some (e, wait) → wait > 0 := by
        intro e wait hn
        cases hn
      exact Or.inr (Or.inl ⟨none, rfl, hw, claimNextDue_idle hd hw token⟩)
    | some p =>
      obtain ⟨e, wait⟩ := p
      by_cases hz : wait = 0
      · subst hz
        exact Or.inr (Or.inr ⟨e, rfl, h.claimNextDue_run hd token⟩)
      · have hw : ∀ (e' : StoredEntry) (wait' : UInt64), some (e, wait) = some (e', wait') →
            wait' > 0 := by
          intro e' wait' he
          obtain ⟨-, rfl⟩ : e = e' ∧ wait = wait' := by simpa using he
          exact UInt64.pos_iff_ne_zero.2 hz
        exact Or.inr (Or.inl ⟨some (e, wait), rfl, hw, claimNextDue_idle hd hw token⟩)

/-- A release that does not carry the claim of the queued entry does nothing. -/
theorem releaseClaim_stale {J : SerdeJson} {fs : QueueFs} {id token : String}
    (hf : ∀ e, find J fs id = .ok e → e.claimToken ≠ some token) (time : UInt64) :
    (releaseClaim J id token time fs).trace = [] := by
  unfold releaseClaim
  rw [run_inspect]
  cases hfind : find J fs id with
  | ok e =>
    simp only
    rw [if_neg (hf e hfind)]
    rfl
  | error err => cases err <;> rfl

/-! ## Reclaiming -/

theorem StoredEntry.unclaimed_eq_self {e : StoredEntry} (h : e.claimToken = none) :
    e.unclaimed = e := by
  unfold StoredEntry.unclaimed
  rw [← h]

/-- What opening a store without a journal does: claims are cleared, and with them the markers of
queued entries. -/
structure Opened (J : SerdeJson) (fs fs' : QueueFs) : Prop where
  queue : ∀ x, x ∈ queued J fs' ↔ ∃ e ∈ queued J fs, x = e.unclaimed
  markers : ∀ id, fs'.awaitDeletions.lookup id =
    if id ∈ (queued J fs).map StoredEntry.id then none else fs.awaitDeletions.lookup id
  lastPost : fs'.lastPost = fs.lastPost
  lastAttempt : fs'.lastAttempt = fs.lastAttempt
  completion : fs'.completion = fs.completion
  history : fs'.history = fs.history

namespace Clean

variable {J : SerdeJson} {fs : QueueFs}

/-- A run that succeeds leaves a clean directory behind. -/
theorem after {α : Type} {m : Store α} {K : Kind → Prop} {Q R : α → QueueFs → Prop} (h : Clean J fs)
    (hp : Performs J K m fs R) (hs : Succeeds m fs Q) :
    Succeeds m fs fun a fs' => Clean J fs' ∧ Q a fs' := by
  obtain ⟨a, t, hr, hq⟩ := hs
  have hclean := (h.throughout hp.along).finish
  rw [hr] at hclean
  exact ⟨a, t, hr, hclean, hq⟩

theorem reclaimed_eq (h : Clean J fs) {e : StoredEntry} (he : e ∈ queued J fs)
    (fresh : String → Uuid) : e.reclaimed fresh = e.unclaimed := by
  obtain ⟨u, hu⟩ := h.lifetime he
  unfold StoredEntry.reclaimed StoredEntry.unclaimed
  rw [if_neg (hu ▸ u.text_ne_empty)]

/-- The loop clears the claims of the entries it is given and leaves the other files alone. -/
theorem succeeds_reclaimFrom (h : Clean J fs) (fresh : String → Uuid) {es : List StoredEntry}
    (hn : (es.map StoredEntry.id).Nodup) (hm : ∀ e ∈ es, e ∈ queued J fs) :
    Succeeds (reclaimFrom J fresh es) fs fun _ fs' =>
      Clean J fs' ∧ fs' = { fs with entries := fs'.entries } ∧
      ∀ x, x ∈ queued J fs' ↔
        (∃ e ∈ es, x = e.unclaimed) ∨ (x ∈ queued J fs ∧ x.id ∉ es.map StoredEntry.id) := by
  induction es generalizing fs with
  | nil => exact succeeds_pure ⟨h, rfl, fun x => by simp⟩
  | cons e es ih =>
    obtain ⟨hne, hn⟩ := List.nodup_cons.1 hn
    have he : e ∈ queued J fs := hm e List.mem_cons_self
    have hrest : ∀ x ∈ es, x ∈ queued J fs := fun x hx => hm x (List.mem_cons_of_mem e hx)
    have hv := isValidId_of_mem he
    refine succeeds_bind (Q := fun _ fs₁ => Clean J fs₁ ∧ fs₁ = { fs with entries := fs₁.entries } ∧
      ∀ x, x ∈ queued J fs₁ ↔ x = e.unclaimed ∨ (x ∈ queued J fs ∧ x.id ≠ e.id)) ?_ ?_
    · refine succeeds_when (fun _ => ?_) fun hc => ?_
      · have hu := e.updates_reclaimed fresh
        have hw := h.accounted.write_update he hu
        rw [h.reclaimed_eq he] at hu hw ⊢
        have hs : e.unclaimed.toVecPretty.length ≤ maxEntryBytes := by
          have := h.accounted.reach he
          rw [← hu.reach_eq (h.accounted.sized he)] at this
          unfold StoredEntry.reach at this
          omega
        refine ⟨(), _, h.accounted.covered.writeEntry_run he hu, ?_, rfl,
          fun x => mem_queued_write hv hs⟩
        obtain ⟨u, hl⟩ := h.lifetime he
        exact h.write_entry hw hv hs ⟨u, hl⟩
      · have hnone : e.claimToken = none := by
          simp only [Bool.or_eq_false_iff, Option.isSome_eq_false_iff,
            Option.isNone_iff_eq_none] at hc
          exact hc.1
        refine ⟨h, rfl, fun x => ?_⟩
        rw [StoredEntry.unclaimed_eq_self hnone]
        constructor
        · intro hx
          by_cases hid : x.id = e.id
          · exact Or.inl (eq_of_mem_queued hx he hid)
          · exact Or.inr ⟨hx, hid⟩
        · rintro (rfl | ⟨hx, -⟩)
          · exact he
          · exact hx
    · rintro _ fs₁ ⟨hclean, hrest₁, hmem⟩
      have hm₁ : ∀ x ∈ es, x ∈ queued J fs₁ := fun x hx =>
        (hmem x).2 (Or.inr ⟨hrest x hx, fun hid => hne (List.mem_map.2 ⟨x, hx, hid⟩)⟩)
      refine (ih hclean hn hm₁).mono ?_
      rintro _ fs₂ ⟨hclean₂, hrest₂, hmem₂⟩
      refine ⟨hclean₂, by rw [hrest₂, hrest₁], fun x => ?_⟩
      rw [hmem₂, hmem]
      simp only [List.mem_cons, List.map_cons, exists_eq_or_imp, not_or]
      constructor
      · rintro (h₁ | ⟨rfl | ⟨hx, hid⟩, hnot⟩)
        · exact Or.inl (Or.inr h₁)
        · exact Or.inl (Or.inl rfl)
        · exact Or.inr ⟨hx, hid, hnot⟩
      · rintro ((rfl | h₁) | ⟨hx, hid, hnot⟩)
        · exact Or.inr ⟨Or.inl rfl, hne⟩
        · exact Or.inl h₁
        · exact Or.inr ⟨Or.inr ⟨hx, hid⟩, hnot⟩

theorem succeeds_reclaimClaims (h : Clean J fs) (fresh : String → Uuid) :
    Succeeds (reclaimClaims J fresh) fs fun _ fs' =>
      Clean J fs' ∧ fs' = { fs with entries := fs'.entries } ∧
      ∀ x, x ∈ queued J fs' ↔ ∃ e ∈ queued J fs, x = e.unclaimed := by
  refine succeeds_read_bind h.entries_eq ?_
  have hn : ((sortEntries (queued J fs)).map StoredEntry.id).Nodup :=
    (((sortEntries_perm _).map StoredEntry.id).nodup_iff).2 (nodup_queued J fs)
  refine (h.succeeds_reclaimFrom fresh hn fun e he => mem_sortEntries.1 he).mono ?_
  rintro _ fs' ⟨hclean, hrest, hmem⟩
  refine ⟨hclean, hrest, fun x => ?_⟩
  rw [hmem]
  simp only [mem_sortEntries, List.mem_map, not_exists, not_and]
  constructor
  · rintro (h₁ | ⟨hx, hnot⟩)
    · exact h₁
    · exact absurd rfl (hnot x hx)
  · exact Or.inl

/-- Recovery leaves no journal and no claim. -/
theorem succeeds_reconcile (h : Clean J fs) :
    Succeeds (reconcileCompletion J) fs fun _ fs' => Clean J fs' ∧ fs'.completion = none := by
  have hrec : Performs J (fun _ => True) (reconcileCompletion J) fs anything :=
    performs_reconcileCompletion fun _ _ _ _ => trivial
  refine h.after hrec ?_
  cases hc : fs.completion with
  | none => exact ⟨(), [], reconcileCompletion_none hc, hc⟩
  | some bytes =>
    obtain ⟨c, rfl, hv, hs⟩ := h.journal hc
    obtain ⟨r, hr⟩ := Option.isSome_iff_exists.1 hs
    refine (h.succeeds_reconcileCompletion hc hv hr).mono ?_
    rintro _ _ rfl
    rfl

theorem succeeds_recover (h : Clean J fs) (fresh : String → Uuid) :
    Succeeds (recoverWorkerState J fresh) fs fun _ fs' =>
      Clean J fs' ∧ fs'.completion = none ∧ ∀ x ∈ queued J fs', x.claimToken = none := by
  refine succeeds_bind h.succeeds_reconcile ?_
  rintro _ fs₁ ⟨h₁, hc₁⟩
  refine (h₁.succeeds_reclaimClaims fresh).mono ?_
  rintro _ fs₂ ⟨h₂, hfs₂, hmem⟩
  refine ⟨h₂, by rw [hfs₂]; exact hc₁, fun x hx => ?_⟩
  obtain ⟨e, -, rfl⟩ := (hmem x).1 hx
  rfl

/-! ## Opening -/

/-- The markers of the listed entries are gone. -/
theorem succeeds_removeMarkers {es : List StoredEntry} (hv : ∀ e ∈ es, isValidId e.id = true)
    (removed : Bool) :
    Succeeds (removeMarkers es removed) fs fun _ fs' =>
      fs' = { fs with awaitDeletions := fs'.awaitDeletions } ∧
      ∀ id, fs'.awaitDeletions.lookup id =
        if id ∈ es.map StoredEntry.id then none else fs.awaitDeletions.lookup id := by
  induction es generalizing fs removed with
  | nil => exact succeeds_pure ⟨rfl, fun id => by simp⟩
  | cons e es ih =>
    have hve : isValidId e.id = true := hv e List.mem_cons_self
    have hrest : ∀ x ∈ es, isValidId x.id = true := fun x hx => hv x (List.mem_cons_of_mem e hx)
    refine succeeds_inspect ?_
    unfold awaitLifetimeWasDeleted
    rw [if_pos hve]
    cases hm : fs.awaitDeletions.lookup e.id with
    | none =>
      refine (ih hrest removed).mono ?_
      rintro _ fs' ⟨hfs, hl⟩
      refine ⟨hfs, fun id => ?_⟩
      rw [hl, List.map_cons]
      by_cases hid : id = e.id
      · rw [hid, hm, ite_self, ite_self]
      · simp [hid]
    | some bytes =>
      refine succeeds_emit_bind ((ih hrest true).mono ?_)
      rintro _ fs' ⟨hfs, hl⟩
      refine ⟨hfs, fun id => ?_⟩
      rw [hl, List.map_cons]
      change (if _ then none else AList.lookup id (fs.awaitDeletions.erase e.id)) = _
      by_cases hid : id = e.id
      · rw [hid, AList.lookup_erase]; simp
      · rw [AList.lookup_erase_ne hid]; simp [hid]

theorem validateExistingLimits_eq (h : Clean J fs) : validateExistingLimits J fs = .ok () := by
  unfold validateExistingLimits
  rw [entriesWithUsage_eq h.accounted.withinLimits]
  exact ensureQueueBytes_ok_iff.2 h.accounted.budget

/-- Opening finishes the journal and then normalizes what that leaves. -/
theorem succeeds_openStore_of {fs₁ : QueueFs} (h : Clean J fs)
    (hr : Succeeds (reconcileCompletion J) fs fun _ fs' => fs' = fs₁) (fresh : String → Uuid) :
    Succeeds (openStore J fresh) fs fun _ fs' => Clean J fs' ∧ Opened J fs₁ fs' := by
  have hopen : Performs J (fun _ => True) (openStore J fresh) fs anything :=
    performs_openStore (fun _ _ _ _ => trivial) (fun _ => trivial) (fun _ => trivial) trivial
  have hrec : Performs J (fun _ => True) (reconcileCompletion J) fs anything :=
    performs_reconcileCompletion fun _ _ _ _ => trivial
  refine h.after hopen (succeeds_bind (h.after hrec hr) ?_)
  rintro _ fs' ⟨h₁, hfs'⟩
  rw [hfs'] at h₁ ⊢
  refine succeeds_read_bind h₁.validateExistingLimits_eq ?_
  refine succeeds_bind (h₁.succeeds_reclaimClaims fresh) ?_
  rintro _ fs₂ ⟨h₂, hfs₂, hmem⟩
  refine succeeds_read_bind h₂.entries_eq ?_
  have hv : ∀ e ∈ sortEntries (queued J fs₂), isValidId e.id = true := fun e he =>
    isValidId_of_mem (mem_sortEntries.1 he)
  refine succeeds_bind (succeeds_removeMarkers hv false) ?_
  rintro removed fs₃ ⟨hfs₃, hl⟩
  have hids : ∀ id, id ∈ (sortEntries (queued J fs₂)).map StoredEntry.id ↔
      id ∈ (queued J fs₁).map StoredEntry.id := by
    intro id
    simp only [List.mem_map, mem_sortEntries, hmem]
    constructor
    · rintro ⟨_, ⟨e, he, rfl⟩, rfl⟩; exact ⟨e, he, rfl⟩
    · rintro ⟨e, he, rfl⟩; exact ⟨_, ⟨e, he, rfl⟩, rfl⟩
  have hq : queued J fs₃ = queued J fs₂ := queued_congr (by rw [hfs₃])
  have hopened : Opened J fs₁ fs₃ := by
    refine ⟨fun x => by rw [hq, hmem], fun id => ?_, ?_, ?_, ?_, ?_⟩
    · rw [hl]
      simp only [hids]
      rw [hfs₂]
    all_goals rw [hfs₃, hfs₂]
  exact succeeds_when (fun _ => succeeds_emit hopened) fun _ => hopened

theorem succeeds_openStore_none (h : Clean J fs) (hc : fs.completion = none)
    (fresh : String → Uuid) :
    Succeeds (openStore J fresh) fs fun _ fs' => Clean J fs' ∧ Opened J fs fs' :=
  h.succeeds_openStore_of ⟨(), [], reconcileCompletion_none hc, rfl⟩ fresh

theorem succeeds_openStore_some (h : Clean J fs) {c : CompletionRecord} {r : HistoryRecord}
    (hc : fs.completion = some c.toVec) (hv : isValidId c.id = true) (hr : c.history = some r)
    (fresh : String → Uuid) :
    Succeeds (openStore J fresh) fs fun _ fs' => Clean J fs' ∧ Opened J (finishedFs J c r fs) fs' :=
  h.succeeds_openStore_of (h.succeeds_reconcileCompletion hc hv hr) fresh

end Clean

theorem Opened.ids {J : SerdeJson} {fs fs' : QueueFs} (h : Opened J fs fs') (id : String) :
    id ∈ (queued J fs').map StoredEntry.id ↔ id ∈ (queued J fs).map StoredEntry.id := by
  simp only [List.mem_map]
  constructor
  · rintro ⟨x, hx, rfl⟩
    obtain ⟨e, he, rfl⟩ := (h.queue x).1 hx
    exact ⟨e, he, rfl⟩
  · rintro ⟨e, he, rfl⟩
    exact ⟨e.unclaimed, (h.queue _).2 ⟨e, he, rfl⟩, rfl⟩

/-- Opening keeps the posting order. -/
theorem Opened.sorted {J : SerdeJson} {fs fs' : QueueFs} (h : Opened J fs fs') :
    sortEntries (queued J fs') = (sortEntries (queued J fs)).map StoredEntry.unclaimed := by
  have hids : ∀ es : List StoredEntry,
      (es.map StoredEntry.unclaimed).map StoredEntry.id = es.map StoredEntry.id := fun es => by
    rw [List.map_map]; rfl
  refine sortEntries_eq (nodup_queued J fs') ?_ ?_
  · refine ((sortEntries_perm _).map _).trans ?_
    refine (List.perm_ext_iff_of_nodup ?_ (List.Nodup.of_map _ (nodup_queued J fs'))).2 fun x => ?_
    · exact List.Nodup.of_map _ (hids _ ▸ nodup_queued J fs)
    · rw [h.queue, List.mem_map]
      exact exists_congr fun e => and_congr_right fun _ => eq_comm
  · rw [List.pairwise_map]
    exact pairwise_sortEntries _

/-! ## Enqueueing and deleting -/

section Runs

variable {J : SerdeJson} {fs : QueueFs}

theorem del_run {id : String} {e : StoredEntry} (hf : find J fs id = .ok e) :
    del J id fs = ⟨.ok (),
      [.writeAtomic (.awaitDeletion id) (AwaitDeletionRecord.toVec ⟨e.incarnation⟩),
        .removeFile (.entry id)]⟩ := by
  obtain ⟨he, rfl⟩ := find_ok_iff.1 hf
  have hmark : writeAwaitDeletion e fs = ⟨.ok (), [.writeAtomic (.awaitDeletion e.id)
      (AwaitDeletionRecord.toVec ⟨e.incarnation⟩)]⟩ := by
    unfold writeAwaitDeletion
    rw [if_pos (isValidId_of_mem he)]
    exact run_emit _
  exact run_bind (run_find hf) (run_bind hmark (run_emit _))

theorem del_error {id : String} {err : StoreError} (hf : find J fs id = .error err) :
    del J id fs = ⟨.error err, []⟩ :=
  run_bind_error (run_find_error hf)

/-- What `put` checked before it wrote a new entry. -/
structure Enrolls (J : SerdeJson) (fs : QueueFs) (e : StoredEntry) : Prop where
  valid : isValidId e.id = true
  free : fs.entries.lookup e.id = none
  limits : WithinLimits J fs
  count : fileCount fs + 1 ≤ maxQueueEntries
  size : e.toVecPretty.length ≤ maxEntryBytes - entryMutationHeadroomBytes
  budget : accountedBytes J fs + e.weight ≤ maxQueueBytes

/-- `eta` is the wait of `id` when `queue` is scheduled at `now`. -/
def ProjectedEta (fs : QueueFs) (cooldown now : UInt64) (queue : List StoredEntry) (id : String)
    (eta : UInt64) : Prop :=
  ∃ previous, previousActivity fs = .ok previous ∧
    eta = etaOf (projectedSchedule cooldown now queue previous) id

/-- The last step of `put`: the new entry is admitted and written, or nothing happens. -/
theorem put_new {request : CommentRequest} {options : PutOptions} {now : UInt64}
    {incarnation : Uuid} {id : String} (hv : isValidId id = true)
    (hfree : fs.entries.lookup id = none) (hw : WithinLimits J fs) {eta : UInt64}
    (heta : ProjectedEta fs options.cooldown now (sortEntries (queued J fs) ++
      [newEntry request options now incarnation id (sortEntries (queued J fs))]) id eta)
    {m : Store (StoredEntry × UInt64)}
    (hm : m = do
      writeEntryWithUsage J
        (newEntry request options now incarnation id (sortEntries (queued J fs))) (usageOf J fs)
      pure (newEntry request options now incarnation id (sortEntries (queued J fs)), eta)) :
    ((m fs).trace = [] ∧
      ∀ e eta, (m fs).outcome = .ok (e, eta) → e ∈ queued J fs ∧ e.request = request ∧
        ProjectedEta fs options.cooldown now (sortEntries (queued J fs)) e.id eta) ∨
    ∃ id eta,
      Enrolls J fs (newEntry request options now incarnation id (sortEntries (queued J fs))) ∧
      ProjectedEta fs options.cooldown now (sortEntries (queued J fs) ++
        [newEntry request options now incarnation id (sortEntries (queued J fs))]) id eta ∧
      m fs = ⟨.ok (newEntry request options now incarnation id (sortEntries (queued J fs)), eta),
        [.writeAtomic (.entry id) (newEntry request options now incarnation id
          (sortEntries (queued J fs))).toVecPretty]⟩ := by
  subst hm
  set new := newEntry request options now incarnation id (sortEntries (queued J fs)) with hnew
  cases hadmit : admitEntry J fs new (usageOf J fs) with
  | error err =>
    have hread : (Traced.read fun fs' => admitEntry J fs' new (usageOf J fs) : Store Unit) fs =
        ⟨.error err, []⟩ := run_read_error hadmit
    have hwrite : writeEntryWithUsage J new (usageOf J fs) fs = ⟨.error err, []⟩ :=
      run_bind_error hread
    rw [run_bind_error hwrite]
    exact Or.inl ⟨rfl, fun e eta h => by cases h⟩
  | ok u =>
    have hread : (Traced.read fun fs' => admitEntry J fs' new (usageOf J fs) : Store Unit) fs =
        ⟨.ok (), []⟩ := run_read_ok hadmit
    have hwrite : writeEntryWithUsage J new (usageOf J fs) fs =
        ⟨.ok (), [.writeAtomic (.entry new.id) new.toVecPretty]⟩ := run_bind hread (run_emit _)
    obtain ⟨hcount, hsize, hbudget⟩ := (admitEntry_new_iff (e := new) hv hfree).1 hadmit
    exact Or.inr ⟨id, eta, ⟨hv, hfree, hw, hcount, hsize, hbudget⟩, heta, run_bind hwrite rfl⟩

/-- `put` returns an entry that is queued already, is rejected, or writes one new entry. -/
theorem put_cases (request : CommentRequest) (options : PutOptions) (now : UInt64)
    (incarnation : Uuid) :
    ((putWithEta J request options now incarnation fs).trace = [] ∧
      ∀ e eta, (putWithEta J request options now incarnation fs).outcome = .ok (e, eta) →
        e ∈ queued J fs ∧ e.request = request ∧
          ProjectedEta fs options.cooldown now (sortEntries (queued J fs)) e.id eta) ∨
    ∃ id eta,
      Enrolls J fs (newEntry request options now incarnation id (sortEntries (queued J fs))) ∧
      ProjectedEta fs options.cooldown now (sortEntries (queued J fs) ++
        [newEntry request options now incarnation id (sortEntries (queued J fs))]) id eta ∧
      putWithEta J request options now incarnation fs =
        ⟨.ok (newEntry request options now incarnation id (sortEntries (queued J fs)), eta),
          [.writeAtomic (.entry id) (newEntry request options now incarnation id
            (sortEntries (queued J fs))).toVecPretty]⟩ := by
  unfold putWithEta
  rw [run_inspect]
  cases hr : resolveEntryId J fs request now with
  | none => exact Or.inl ⟨rfl, fun e eta h => by cases h⟩
  | some result =>
    cases result with
    | error err => exact Or.inl ⟨rfl, fun e eta h => by cases h⟩
    | ok found =>
      obtain ⟨id, existing⟩ := found
      obtain ⟨hv, hres⟩ := resolveEntryId_ok hr
      simp only
      cases hscan : entriesWithUsage J fs with
      | error err =>
        rw [run_bind_error (run_read_error hscan)]
        exact Or.inl ⟨rfl, fun e eta h => by cases h⟩
      | ok scan =>
        have hw := withinLimits_of_ok hscan
        rw [run_bind_ok (run_read_ok (entriesWithUsage_eq hw)), Ran.after_nil, run_nil]
        simp only
        cases hp : previousActivity fs with
        | error err =>
          rw [run_bind_error (run_read_error hp)]
          exact Or.inl ⟨rfl, fun e eta h => by cases h⟩
        | ok previous =>
          rw [run_bind_ok (run_read_ok hp), Ran.after_nil, run_nil]
          cases existing with
          | some entry =>
            obtain ⟨hfind, hreq⟩ := hres
            refine Or.inl ⟨rfl, fun e eta h => ?_⟩
            simp only [run_pure, Outcome.ok.injEq, Prod.mk.injEq] at h
            obtain ⟨rfl, rfl⟩ := h
            exact ⟨(find_ok_iff.1 hfind).1, hreq, previous, hp, rfl⟩
          | none =>
            simp only
            by_cases hfull : (sortEntries (queued J fs)).length ≥ maxQueueEntries
            · rw [if_pos hfull]
              exact Or.inl ⟨rfl, fun e eta h => by cases h⟩
            · rw [if_neg hfull]
              obtain ⟨other, hfind⟩ := hres
              obtain ⟨-, -, hfree⟩ := find_unknownId_iff.1 hfind
              exact put_new hv hfree hw ⟨previous, hp, rfl⟩ rfl

end Runs

end Comenq
