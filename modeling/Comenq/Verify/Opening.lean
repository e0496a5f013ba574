import Comenq.Store.Codec
import Comenq.Store.System

/-!
# Opening a store

`QueueStore::open` runs four passes over the same files: it finishes the completion journal, checks
the limits, reclaims claims and missing lifetimes, and removes the markers of queued entries. This
file follows them from any directory, with unreadable files and entries in any format.

Whenever the passes succeed they leave a normalized directory (`Normalized`), and on a normalized
directory they do nothing. Reclaiming may enlarge files that were not written by the store. Each
rewrite checks the byte budget, and the last pass scans the directory again, so an opening that
would leave too much behind does not succeed.
-/

namespace Comenq

open JsonText Traced CrashTrace

variable {J : SerdeJson} {fs fs' : QueueFs}

/-- What a program has done when it returns, whatever events that took. -/
abbrev LeadsTo {α : Type} (m : Store α) (fs : QueueFs) (Q : α → QueueFs → Prop) : Prop :=
  Does (fun _ _ => True) m fs Q fun _ => True

theorem leadsTo_read {α : Type} {f : QueueFs → Except StoreError α} :
    LeadsTo (Traced.read f) fs fun a fs' => fs = fs' ∧ f fs = .ok a :=
  does_read (fun _ h => ⟨rfl, h⟩) fun _ _ => trivial

theorem along_true {s : QueueFs} (events : List FsEvent) :
    Along QueueFs.step (fun _ _ => True) s events := by
  induction events generalizing s with
  | nil => trivial
  | cons ev events ih => exact ⟨trivial, ih⟩

theorem does_of_succeeds {α : Type} {m : Store α} {Q : α → QueueFs → Prop} {E : StoreError → Prop}
    (h : Succeeds m fs Q) : Does (fun _ _ => True) m fs Q E := by
  obtain ⟨a, t, hrun, hq⟩ := h
  refine ⟨along_true _, fun b hb => ?_, fun err he => ?_⟩
  · rw [hrun] at hb
    unfold final
    rw [hrun]
    cases hb
    exact hq
  · rw [hrun] at he
    cases he

/-! ## Files too large to be read -/

/-- A file under an identifier that is too large to be read. -/
def Oversized (fs : QueueFs) (id : String) : Prop :=
  ∃ bytes, fs.entries.lookup id = some (.file bytes) ∧ maxEntryBytes < bytes.length

theorem Oversized.congr {id : String} (h : Oversized fs' id) (he : fs'.entries = fs.entries) :
    Oversized fs id := by
  unfold Oversized at *
  rwa [← he]

theorem oversized_of_find {id : String} {err : StoreError} (h : find J fs id = .error err)
    (hc : err.isCapacity = true) : Oversized fs id := by
  rcases find_error h with ⟨-, rfl⟩ | ⟨-, -, rfl⟩ | ⟨-, rfl⟩ | ⟨bytes, hl, hu⟩
  · cases hc
  · cases hc
  · cases hc
  · cases hu with
    | tooLarge hlt => exact ⟨bytes, hl, hlt⟩
    | malformed | misnamed => cases hc

theorem currentMatches_capacity {id incarnation : String} {err : StoreError}
    (h : currentMatches J fs id incarnation = .error err) (hc : err.isCapacity = true) :
    Oversized fs id := by
  unfold currentMatches at h
  cases hf : find J fs id with
  | ok e => rw [hf] at h; cases h
  | error bad =>
    rw [hf] at h
    cases bad with
    | unknownId other => cases h
    | _ =>
      obtain rfl := Except.error.inj h
      exact oversized_of_find hf hc

theorem removesEntry_capacity {c : CompletionRecord} {err : StoreError}
    (h : removesEntry J fs c = .error err) (hc : err.isCapacity = true) : Oversized fs c.id := by
  unfold removesEntry at h
  cases hf : find J fs c.id with
  | ok e =>
    rw [hf] at h
    simp only at h
    split at h <;> cases h
  | error bad =>
    rw [hf] at h
    cases bad with
    | unknownId other => cases h
    | _ =>
      obtain rfl := Except.error.inj h
      exact oversized_of_find hf hc

/-- Started in `fs`, `m` reports exhausted capacity only if `P` holds. -/
abbrev Reports {α : Type} (P : Prop) (m : Store α) (fs : QueueFs) (Q : α → QueueFs → Prop) : Prop :=
  Does (fun _ _ => True) m fs Q fun err => err.isCapacity = true → P

theorem reports_fail {P : Prop} {α : Type} {Q : α → QueueFs → Prop} {err : StoreError}
    (h : err.isCapacity = false) : Reports P (Traced.fail err : Store α) fs Q := by
  apply does_fail
  intro hc
  rw [h] at hc
  cases hc

/-! ## The journal -/

/-- The entry the pending journal removes. -/
def RemovedByJournal (J : SerdeJson) (fs : QueueFs) (e : StoredEntry) : Prop :=
  ∃ c, pendingCompletion J fs = some c ∧ e.id = c.id ∧
    ∀ token ∈ c.claimToken, e.claimToken = some token

section Logging

variable {es : AList fun _ : String => Node} (he : fs.entries = es)
include he

theorem reports_emit {P : Prop} {ev : FsEvent} (h : ev.touchesEntry = false) :
    Reports P (Traced.emit ev) fs fun _ fs' => fs'.entries = es :=
  does_emit trivial ((entries_step h).trans he)

theorem reports_append {P : Prop} (r : HistoryRecord) :
    Reports P (append r) fs fun _ fs' => fs'.entries = es := by
  refine does_inspect (does_bind (reports_emit he rfl) fun _ fs₁ h₁ => ?_)
  refine does_bind (Q := fun _ fs' => fs'.entries = es) ?_ fun _ fs₂ h₂ => ?_
  · refine does_bind (does_when (fun _ => reports_emit h₁ rfl) fun _ => h₁) fun _ fs₂ h₂ => ?_
    exact does_bind (reports_emit h₂ rfl) fun _ fs₃ h₃ => reports_emit h₃ rfl
  · exact does_when (fun _ => reports_emit h₂ rfl) fun _ => h₂

theorem reports_clearAwaitDeletion {id incarnation : String} :
    Reports (Oversized fs id) (clearAwaitDeletion J id incarnation) fs fun _ fs' =>
      fs'.entries = es := by
  unfold clearAwaitDeletion
  split
  · refine does_inspect ?_
    split
    · exact does_pure he
    · split
      · exact reports_fail rfl
      · refine does_bind (Q := fun _ fs' => fs'.entries = es)
          (does_read (fun _ _ => he) fun _ => currentMatches_capacity) fun _ fs₁ h₁ => ?_
        split
        · exact does_pure h₁
        · exact does_bind (reports_emit h₁ rfl) fun _ fs₂ h₂ => reports_emit h₂ rfl
  · exact reports_fail rfl

end Logging

/-- Logging a completion leaves the entries alone. -/
theorem reports_recordCompletion (c : CompletionRecord) :
    Reports (Oversized fs c.id) (recordCompletion J c) fs
      fun _ fs' => fs'.entries = fs.entries := by
  unfold recordCompletion
  split
  · exact does_pure rfl
  · refine does_bind (Q := fun _ fs' => fs'.entries = fs.entries) (does_inspect ?_)
      fun _ fs₁ h₁ => ?_
    · split
      · exact does_pure rfl
      · exact reports_append rfl _
    · exact (reports_clearAwaitDeletion h₁).mono (fun _ _ h => h) fun _ hf hc => (hf hc).congr h₁

/-- A finished journal is gone, and with it at most the entry that carries its claim. -/
structure Finished (J : SerdeJson) (fs fs' : QueueFs) : Prop where
  completion : fs'.completion = none
  queue : ∀ x, x ∈ queued J fs' ↔ x ∈ queued J fs ∧ ¬ RemovedByJournal J fs x
  others : ∀ id, (∀ e ∈ queued J fs, e.id ≠ id) → fs'.entries.lookup id = fs.entries.lookup id

theorem not_removed_of_none (h : pendingCompletion J fs = none) (e : StoredEntry) :
    ¬ RemovedByJournal J fs e := by
  rintro ⟨c, hc, -⟩
  rw [h] at hc
  cases hc

theorem removed_iff {c : CompletionRecord} (h : pendingCompletion J fs = some c) {e : StoredEntry} :
    RemovedByJournal J fs e ↔ e.id = c.id ∧ ∀ token ∈ c.claimToken, e.claimToken = some token := by
  constructor
  · rintro ⟨c', hc', hid, htoken⟩
    obtain rfl : c = c' := Option.some.inj (h.symm.trans hc')
    exact ⟨hid, htoken⟩
  · rintro ⟨hid, htoken⟩
    exact ⟨c, h, hid, htoken⟩

/-- Whether finishing removes the entry, in terms of the entry. -/
theorem removed_of_removesEntry {c : CompletionRecord} {remove : Bool}
    (hc : pendingCompletion J fs = some c) (h : removesEntry J fs c = .ok remove) {e : StoredEntry}
    (he : e ∈ queued J fs) : RemovedByJournal J fs e ↔ remove = true ∧ e.id = c.id := by
  rw [removed_iff hc]
  constructor
  · rintro ⟨hid, htoken⟩
    refine ⟨?_, hid⟩
    unfold removesEntry at h
    rw [← hid, find_of_mem he] at h
    cases ht : c.claimToken with
    | none =>
      rw [ht] at h
      exact (Except.ok.inj h).symm
    | some token =>
      rw [ht] at h
      rw [← Except.ok.inj h]
      exact beq_iff_eq.2 (htoken token ht)
  · rintro ⟨rfl, hid⟩
    obtain ⟨e', he', hid', htoken⟩ := mem_of_removesEntry h
    obtain rfl := eq_of_mem_queued he he' (hid.trans hid'.symm)
    exact ⟨hid, htoken⟩

theorem reports_finishCompletion {c : CompletionRecord} (hc : pendingCompletion J fs = some c) :
    Reports (Oversized fs c.id) (finishCompletion J c) fs fun _ fs' => Finished J fs fs' := by
  unfold finishCompletion
  split
  · refine does_bind (reports_recordCompletion c) fun _ fs₁ hfs₁ => ?_
    refine does_bind (Q := fun remove fs₂ => fs₁ = fs₂ ∧ removesEntry J fs₁ c = .ok remove)
      (does_read (fun _ h => ⟨rfl, h⟩)
        fun _ he hcap => (removesEntry_capacity he hcap).congr hfs₁) ?_
    rintro remove _ ⟨rfl, hremove⟩
    have hremove : removesEntry J fs c = .ok remove := by
      rw [← hremove]
      unfold removesEntry find readEntry
      rw [hfs₁]
    refine does_bind (Q := fun _ fs₂ =>
      fs₂.entries = if remove then fs.entries.erase c.id else fs.entries) ?_ ?_
    · refine does_when (fun hr => does_emit trivial ?_) fun hr => ?_
      · rw [hr, if_pos rfl, ← hfs₁]
        rfl
      · rw [hr]
        exact hfs₁
    · intro _ fs₂ hfs₂
      refine does_bind (Q := fun _ fs₃ => fs₂.step _ = fs₃) (does_emit trivial rfl) ?_
      rintro _ _ rfl
      refine does_bind (Q := fun _ fs₃ => (fs₂.step _).step _ = fs₃) (does_emit trivial rfl) ?_
      rintro _ _ rfl
      refine does_emit trivial ⟨rfl, fun x => ?_, fun id hid => ?_⟩
      · have hq : queued J fs₂ = if remove then queued J (fs.remove (.entry c.id))
            else queued J fs := by
          cases remove with
          | true => exact queued_congr hfs₂
          | false => exact queued_congr hfs₂
        change x ∈ queued J fs₂ ↔ _
        rw [hq]
        cases remove with
        | true =>
          rw [if_pos rfl, mem_queued_remove]
          refine and_congr_right fun hx => ?_
          rw [removed_of_removesEntry hc hremove hx]
          simp
        | false =>
          rw [if_neg (by simp)]
          refine (and_iff_left_of_imp fun hx => ?_).symm
          rw [removed_of_removesEntry hc hremove hx]
          simp
      · change fs₂.entries.lookup id = _
        rw [hfs₂]
        split
        · next hr =>
          subst hr
          obtain ⟨e, he, heid, -⟩ := mem_of_removesEntry hremove
          rw [AList.lookup_erase_ne]
          rintro rfl
          exact hid e he heid
        · rfl
  · exact reports_fail rfl

theorem reports_reconcileCompletion :
    Reports (∃ c, pendingCompletion J fs = some c ∧ Oversized fs c.id) (reconcileCompletion J) fs
      fun _ fs' => Finished J fs fs' := by
  refine does_inspect ?_
  split
  · next hnone =>
    have hpending : pendingCompletion J fs = none := by
      unfold pendingCompletion
      rw [hnone]
      rfl
    refine does_pure ⟨hnone, fun x => ?_, fun id _ => rfl⟩
    exact (and_iff_left (not_removed_of_none hpending x)).symm
  · next bytes hb =>
    split
    · exact reports_fail rfl
    · split
      · exact reports_fail rfl
      · next c hc =>
        have hpending : pendingCompletion J fs = some c := by
          unfold pendingCompletion
          rw [hb]
          exact hc
        apply (reports_finishCompletion hpending).mono (fun _ _ h => h)
        intro err hf hcap
        exact ⟨c, hpending, hf hcap⟩

/-! ## Reclaiming -/

theorem StoredEntry.reclaimed_eq_self {e : StoredEntry} {fresh : String → Uuid}
    (hc : e.claimToken = none) (hi : e.incarnation ≠ "") : e.reclaimed fresh = e := by
  unfold StoredEntry.reclaimed
  rw [if_neg hi, ← hc]

theorem StoredEntry.incarnation_reclaimed_ne (e : StoredEntry) (fresh : String → Uuid) :
    (e.reclaimed fresh).incarnation ≠ "" := by
  unfold StoredEntry.reclaimed
  simp only
  split
  · exact (fresh e.id).text_ne_empty
  · assumption

/-- A rewrite that was admitted keeps the directory within its byte budget. -/
theorem leadsTo_writeEntry {e e' : StoredEntry} (he : e ∈ queued J fs) (hid : e'.id = e.id) :
    LeadsTo (writeEntry J e') fs fun _ fs' => fs' = fs.write e'.toVecPretty (.entry e'.id) ∧
      e'.toVecPretty.length ≤ maxEntryBytes ∧ accountedBytes J fs' ≤ maxQueueBytes := by
  refine does_bind leadsTo_read ?_
  rintro ⟨es, usage⟩ _ ⟨rfl, hscan⟩
  have hw := withinLimits_of_ok hscan
  rw [entriesWithUsage_eq hw] at hscan
  obtain ⟨-, rfl⟩ : sortEntries (queued J fs) = es ∧ usageOf J fs = usage := by simpa using hscan
  refine does_bind leadsTo_read ?_
  rintro _ _ ⟨rfl, hadmit⟩
  obtain ⟨hsize, hbudget⟩ := (admitEntry_replace_iff he hid hw.count).1 hadmit
  refine does_emit trivial ⟨rfl, hsize, ?_⟩
  have hv : isValidId e'.id = true := hid ▸ isValidId_of_mem he
  change accountedBytes J (fs.write e'.toVecPretty (.entry e'.id)) ≤ _
  rw [accountedBytes_write hv hsize, hid]
  omega

/-- What reclaiming the entries `es` does. -/
structure Reclaimed (J : SerdeJson) (fresh : String → Uuid) (es : List StoredEntry)
    (fs fs' : QueueFs) : Prop where
  others : fs' = { fs with entries := fs'.entries }
  queue : ∀ x, x ∈ queued J fs' ↔
    (∃ e ∈ es, x = e.reclaimed fresh) ∨ (x ∈ queued J fs ∧ x.id ∉ es.map StoredEntry.id)
  files : ∀ id, id ∉ es.map StoredEntry.id → fs'.entries.lookup id = fs.entries.lookup id
  budget : accountedBytes J fs ≤ maxQueueBytes → accountedBytes J fs' ≤ maxQueueBytes

/-- One entry: its file is rewritten when it has a claim or no lifetime. -/
theorem leadsTo_reclaim {e : StoredEntry} (he : e ∈ queued J fs) (fresh : String → Uuid) :
    LeadsTo (Traced.when (e.claimToken.isSome || e.incarnation == "")
        (writeEntry J (e.reclaimed fresh)))
      fs fun _ fs' => Reclaimed J fresh [e] fs fs' := by
  refine does_when (fun _ => ?_) fun hkeep => ?_
  · refine (@leadsTo_writeEntry J fs e (e.reclaimed fresh) he rfl).mono ?_ fun _ h => h
    rintro _ fs' ⟨rfl, hsize, hbudget⟩
    refine ⟨rfl, fun x => ?_, fun id hid => ?_, fun _ => hbudget⟩
    · have hv := isValidId_of_mem he
      change isValidId (e.reclaimed fresh).id = true at hv
      rw [mem_queued_write hv hsize]
      simp only [List.mem_singleton, exists_eq_left, List.map_cons, List.map_nil]
      rfl
    · have hne : id ≠ (e.reclaimed fresh).id := List.ne_of_not_mem_cons hid
      exact AList.lookup_insert_ne hne
  · simp only [Bool.or_eq_false_iff, Option.isSome_eq_false_iff, Option.isNone_iff_eq_none,
      beq_eq_false_iff_ne] at hkeep
    refine ⟨rfl, fun x => ?_, fun _ _ => rfl, fun h => h⟩
    simp only [List.mem_singleton, exists_eq_left, List.map_cons, List.map_nil,
      StoredEntry.reclaimed_eq_self hkeep.1 hkeep.2]
    constructor
    · intro hx
      by_cases hid : x.id = e.id
      · exact Or.inl (eq_of_mem_queued hx he hid)
      · exact Or.inr ⟨hx, hid⟩
    · rintro (rfl | ⟨hx, -⟩)
      · exact he
      · exact hx

theorem leadsTo_reclaimFrom (fresh : String → Uuid) {es : List StoredEntry}
    (hn : (es.map StoredEntry.id).Nodup) (hm : ∀ e ∈ es, e ∈ queued J fs) :
    LeadsTo (reclaimFrom J fresh es) fs fun _ fs' => Reclaimed J fresh es fs fs' := by
  induction es generalizing fs with
  | nil => exact does_pure ⟨rfl, fun x => by simp, fun _ _ => rfl, fun h => h⟩
  | cons e es ih =>
    obtain ⟨hne, hn⟩ := List.nodup_cons.1 hn
    refine does_bind (leadsTo_reclaim (hm e List.mem_cons_self) fresh) fun _ fs₁ h₁ => ?_
    have hq₁ : ∀ x, x ∈ queued J fs₁ ↔
        x = e.reclaimed fresh ∨ (x ∈ queued J fs ∧ x.id ≠ e.id) := by
      intro x
      rw [h₁.queue]
      simp
    have hm₁ : ∀ x ∈ es, x ∈ queued J fs₁ := fun x hx => (hq₁ x).2 (Or.inr
      ⟨hm x (List.mem_cons_of_mem e hx), fun hid => hne (List.mem_map.2 ⟨x, hx, hid⟩)⟩)
    refine (ih hn hm₁).mono ?_ fun _ h => h
    intro _ fs₂ h₂
    refine ⟨by rw [h₂.others, h₁.others], fun x => ?_, fun id hid => ?_,
      fun h => h₂.budget (h₁.budget h)⟩
    · rw [h₂.queue, hq₁]
      simp only [List.map_cons, List.mem_cons, exists_eq_or_imp, not_or]
      constructor
      · rintro (h | ⟨rfl | ⟨hx, hid⟩, hnot⟩)
        · exact Or.inl (Or.inr h)
        · exact Or.inl (Or.inl rfl)
        · exact Or.inr ⟨hx, hid, hnot⟩
      · rintro ((rfl | h) | ⟨hx, hid, hnot⟩)
        · exact Or.inr ⟨Or.inl rfl, hne⟩
        · exact Or.inl h
        · exact Or.inr ⟨Or.inr ⟨hx, hid⟩, hnot⟩
    · simp only [List.map_cons, List.mem_cons, not_or] at hid
      rw [h₂.files id hid.2, h₁.files id (by simpa using hid.1)]

theorem nodup_sortEntries (J : SerdeJson) (fs : QueueFs) :
    ((sortEntries (queued J fs)).map StoredEntry.id).Nodup :=
  (((sortEntries_perm _).map StoredEntry.id).nodup_iff).2 (nodup_queued J fs)

/-- What reclaiming every claim does. -/
theorem leadsTo_reclaimClaims (fresh : String → Uuid) :
    LeadsTo (reclaimClaims J fresh) fs fun _ fs' => fs' = { fs with entries := fs'.entries } ∧
      (∀ x, x ∈ queued J fs' ↔ ∃ e ∈ queued J fs, x = e.reclaimed fresh) ∧
      (∀ id, (∀ e ∈ queued J fs, e.id ≠ id) → fs'.entries.lookup id = fs.entries.lookup id) ∧
      (accountedBytes J fs ≤ maxQueueBytes → accountedBytes J fs' ≤ maxQueueBytes) := by
  refine does_bind leadsTo_read ?_
  rintro all _ ⟨rfl, hall⟩
  obtain ⟨-, rfl⟩ := entries_ok hall
  refine (leadsTo_reclaimFrom fresh (nodup_sortEntries J fs) fun e he =>
    mem_sortEntries.1 he).mono ?_ fun _ h => h
  intro _ fs' h
  refine ⟨h.others, fun x => ?_, fun id hid => h.files id ?_, h.budget⟩
  · rw [h.queue]
    simp only [mem_sortEntries, List.mem_map, not_exists, not_and]
    constructor
    · rintro (hx | ⟨hx, hnot⟩)
      · exact hx
      · exact absurd rfl (hnot x hx)
    · exact Or.inl
  · simpa [mem_sortEntries] using hid

/-! ## Normalized directories -/

/-- No journal, no claim, no missing lifetime, no marker of a queued entry, all within limits. -/
structure Normalized (J : SerdeJson) (fs : QueueFs) : Prop where
  completion : fs.completion = none
  unclaimed : ∀ x ∈ queued J fs, x.claimToken = none
  lifetime : ∀ x ∈ queued J fs, x.incarnation ≠ ""
  unmarked : ∀ x ∈ queued J fs, fs.awaitDeletions.lookup x.id = none
  limits : WithinLimits J fs
  budget : accountedBytes J fs ≤ maxQueueBytes

theorem reclaimFrom_nothing {es : List StoredEntry} (fresh : String → Uuid)
    (h : ∀ e ∈ es, e.claimToken = none ∧ e.incarnation ≠ "") :
    reclaimFrom J fresh es fs = ⟨.ok (), []⟩ := by
  induction es with
  | nil => rfl
  | cons e es ih =>
    obtain ⟨hc, hi⟩ := h e List.mem_cons_self
    have hskip : (Traced.when (e.claimToken.isSome || e.incarnation == "")
        (writeEntry J (e.reclaimed fresh))) fs = ⟨.ok (), []⟩ := by
      rw [run_when, hc]
      simp [hi]
    exact run_bind hskip (ih fun x hx => h x (List.mem_cons_of_mem e hx))

theorem removeMarkers_nothing {es : List StoredEntry} (removed : Bool)
    (h : ∀ e ∈ es, isValidId e.id = true ∧ fs.awaitDeletions.lookup e.id = none) :
    removeMarkers es removed fs = ⟨.ok removed, []⟩ := by
  induction es with
  | nil => rfl
  | cons e es ih =>
    obtain ⟨hv, hm⟩ := h e List.mem_cons_self
    have hnone : awaitLifetimeWasDeleted fs e.id = .ok false := by
      unfold awaitLifetimeWasDeleted
      rw [if_pos hv, hm]
      rfl
    unfold removeMarkers
    rw [run_inspect, hnone]
    exact ih fun x hx => h x (List.mem_cons_of_mem e hx)

/-- The check made at startup accepts a directory within its limits and its budget. -/
theorem validateExistingLimits_ok (h : WithinLimits J fs)
    (hb : accountedBytes J fs ≤ maxQueueBytes) : validateExistingLimits J fs = .ok () := by
  unfold validateExistingLimits
  rw [entriesWithUsage_eq h]
  exact ensureQueueBytes_ok_iff.2 hb

/-- Opening a normalized directory does nothing. -/
theorem Normalized.openStore_eq (h : Normalized J fs) (fresh : String → Uuid) :
    openStore J fresh fs = ⟨.ok (), []⟩ := by
  have hvalid : validateExistingLimits J fs = .ok () := validateExistingLimits_ok h.limits h.budget
  have hreclaim : reclaimClaims J fresh fs = ⟨.ok (), []⟩ :=
    run_bind (run_read_ok (entries_eq h.limits)) (reclaimFrom_nothing fresh fun e he =>
      ⟨h.unclaimed e (mem_sortEntries.1 he), h.lifetime e (mem_sortEntries.1 he)⟩)
  have hmarkers : reconcileAwaitDeletions J fs = ⟨.ok (), []⟩ :=
    run_bind (run_read_ok (entries_eq h.limits)) (run_bind (removeMarkers_nothing false fun e he =>
      ⟨isValidId_of_mem (mem_sortEntries.1 he), h.unmarked e (mem_sortEntries.1 he)⟩) rfl)
  exact run_bind (Clean.reconcileCompletion_none h.completion)
    (run_bind (run_read_ok hvalid) (run_bind hreclaim hmarkers))

/-- What a successful opening leaves of the entries and of the other files. -/
structure Keeps (J : SerdeJson) (fresh : String → Uuid) (fs fs' : QueueFs) : Prop where
  queue : ∀ x, x ∈ queued J fs' ↔
    ∃ e ∈ queued J fs, ¬ RemovedByJournal J fs e ∧ x = e.reclaimed fresh
  others : ∀ id, (∀ e ∈ queued J fs, e.id ≠ id) → fs'.entries.lookup id = fs.entries.lookup id

/-- What the check made at startup has found out. -/
theorem limits_of_validate (h : validateExistingLimits J fs = .ok ()) :
    WithinLimits J fs ∧ accountedBytes J fs ≤ maxQueueBytes := by
  unfold validateExistingLimits at h
  cases hscan : entriesWithUsage J fs with
  | error e => rw [hscan] at h; cases h
  | ok r =>
    have hw := withinLimits_of_ok hscan
    rw [entriesWithUsage_eq hw] at h
    exact ⟨hw, ensureQueueBytes_ok_iff.1 h⟩

theorem leadsTo_openStore (fresh : String → Uuid) :
    LeadsTo (openStore J fresh) fs fun _ fs' => Normalized J fs' ∧ Keeps J fresh fs fs' := by
  refine does_bind (reports_reconcileCompletion.mono (fun _ _ h => h) fun _ _ => trivial)
    fun _ fs₁ h₁ => ?_
  refine does_bind leadsTo_read ?_
  rintro _ _ ⟨rfl, hvalid⟩
  have hbudget := (limits_of_validate hvalid).2
  refine does_bind (leadsTo_reclaimClaims fresh) ?_
  rintro _ fs₂ ⟨hfs₂, hqueue, hfiles, hgrow⟩
  refine does_bind leadsTo_read ?_
  rintro all _ ⟨rfl, hall⟩
  obtain ⟨hlimits, rfl⟩ := entries_ok hall
  have hv : ∀ e ∈ sortEntries (queued J fs₂), isValidId e.id = true := fun e he =>
    isValidId_of_mem (mem_sortEntries.1 he)
  refine does_bind (does_of_succeeds (Clean.succeeds_removeMarkers hv false)) ?_
  rintro removed fs₃ ⟨hfs₃, hl⟩
  have hentries : fs₃.entries = fs₂.entries := by rw [hfs₃]
  have hq : queued J fs₃ = queued J fs₂ := queued_congr hentries
  have hnormal : Normalized J fs₃ := by
    refine ⟨?_, fun x hx => ?_, fun x hx => ?_, fun x hx => ?_, ?_, ?_⟩
    · rw [hfs₃, hfs₂]
      exact h₁.completion
    · obtain ⟨e, -, rfl⟩ := (hqueue x).1 (hq ▸ hx)
      rfl
    · obtain ⟨e, -, rfl⟩ := (hqueue x).1 (hq ▸ hx)
      exact e.incarnation_reclaimed_ne fresh
    · rw [hl]
      exact if_pos (List.mem_map.2 ⟨x, mem_sortEntries.2 (hq ▸ hx), rfl⟩)
    · refine ⟨?_, ?_, ?_⟩
      · unfold fileCount
        rw [hentries]
        exact hlimits.count
      · unfold usedBytes
        rw [hentries]
        exact hlimits.bytes
      · unfold RoomToGrow
        rw [hentries]
        exact hlimits.growth
    · have := hgrow hbudget
      unfold accountedBytes usedBytes reservedBytes at this ⊢
      rwa [hq, hentries]
  have hkeeps : Keeps J fresh fs fs₃ := by
    refine ⟨fun x => ?_, fun id hid => ?_⟩
    · rw [hq, hqueue]
      simp only [h₁.queue, and_assoc]
    · rw [hentries, hfiles id, h₁.others id hid]
      intro e he
      exact hid e ((h₁.queue e).1 he).1
  exact does_when (fun _ => does_emit trivial ⟨hnormal, hkeeps⟩) fun _ => ⟨hnormal, hkeeps⟩

/-- A successful opening leaves no journal, no claim, no missing lifetime and no marker of a queued
entry. It keeps the other data of every entry the journal does not remove, and every file that is
no listed entry; and opening the result again does nothing. -/
theorem open_normalizes {fresh : String → Uuid} (h : (openStore J fresh fs).outcome = .ok ()) :
    let fs' := final (openStore J fresh) fs
    fs'.completion = none ∧
    (∀ x ∈ queued J fs', x.claimToken = none ∧ x.incarnation ≠ "" ∧
      fs'.awaitDeletions.lookup x.id = none) ∧
    (∀ e ∈ queued J fs, ¬ RemovedByJournal J fs e → ∃ x ∈ queued J fs', x.id = e.id ∧
      x.order = e.order ∧ x.request = e.request ∧ x.flutterSeconds = e.flutterSeconds ∧
      x.enqueuedAt = e.enqueuedAt ∧ x.notBefore = e.notBefore ∧
      (e.incarnation ≠ "" → x.incarnation = e.incarnation)) ∧
    (∀ x ∈ queued J fs', ∃ e ∈ queued J fs, x.id = e.id ∧ ¬ RemovedByJournal J fs e) ∧
    (∀ id, (∀ e ∈ queued J fs, e.id ≠ id) → fs'.entries.lookup id = fs.entries.lookup id) ∧
    ∀ fresh', openStore J fresh' fs' = ⟨.ok (), []⟩ := by
  obtain ⟨hnormal, hkeeps⟩ := (leadsTo_openStore fresh).post () h
  refine ⟨hnormal.completion, fun x hx => ⟨hnormal.unclaimed x hx, hnormal.lifetime x hx,
    hnormal.unmarked x hx⟩, fun e he hkept => ?_, fun x hx => ?_, hkeeps.others,
    hnormal.openStore_eq⟩
  · refine ⟨e.reclaimed fresh, (hkeeps.queue _).2 ⟨e, he, hkept, rfl⟩, rfl, rfl, rfl, rfl,
      rfl, rfl, ?_⟩
    intro hi
    exact if_neg hi
  · obtain ⟨e, he, hkept, rfl⟩ := (hkeeps.queue x).1 hx
    exact ⟨e, he, rfl, hkept⟩

/-- What an interrupted daemon and older versions may leave: a claimed entry with its journal, an
entry without a lifetime and its marker, and files that are no entries. -/
def sampleLeftovers : QueueFs :=
  let claimed : StoredEntry := ⟨"4e881b86", (sampleUuid 1).text, 0, 0, 1000, 0,
    some (sampleUuid 2).text, sampleRequest⟩
  let legacy : StoredEntry := ⟨"0000000a", "", 1, 0, 900, 0, none, sampleRequest⟩
  let journal : CompletionRecord := ⟨claimed.id, 1010, claimed.claimToken, none, none⟩
  ((((QueueFs.empty.write claimed.toVecPretty (.entry claimed.id)).write
    legacy.toVecPretty (.entry legacy.id)).write [] (.entry "broken")).write
    (AwaitDeletionRecord.toVec ⟨"earlier"⟩) (.awaitDeletion legacy.id)).write
    journal.toVec .completion

theorem sampleLeftovers_opens :
    (openStore serdeJson (fun _ => sampleUuid 4) sampleLeftovers).outcome = .ok () := by
  decide +kernel

/-- Everything the passes look for is there and dealt with. -/
theorem open_normalizes_leftovers :
    let fs' := final (openStore serdeJson fun _ => sampleUuid 4) sampleLeftovers
    fs'.completion = none ∧
    (∀ x ∈ queued serdeJson fs', x.claimToken = none ∧ x.incarnation ≠ "" ∧
      fs'.awaitDeletions.lookup x.id = none) ∧
    fs'.entries.lookup "broken" = some (.file []) := by
  obtain ⟨hjournal, hclaims, -, -, hfiles, -⟩ := open_normalizes sampleLeftovers_opens
  refine ⟨hjournal, hclaims, ?_⟩
  rw [hfiles "broken"]
  · rfl
  · intro e he hid
    have hv := isValidId_of_mem he
    rw [hid] at hv
    exact absurd hv (by decide)

end Comenq
