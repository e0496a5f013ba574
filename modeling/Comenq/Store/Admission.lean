import Comenq.Store.Queue

/-!
# Writing and removing entries

How one entry write or removal changes the queue and its accounting, and when a write is admitted.
The accounting of a directory splits into the share of one name and the rest, which is the
directory with that name removed (`accounted_split`); a write replaces the share.
-/

namespace Comenq

open Saturating JsonText Directory

section Admission

variable {J : SerdeJson} {fs : QueueFs}

/-- File bytes plus reserved headroom, which the byte budget bounds. -/
def accountedBytes (J : SerdeJson) (fs : QueueFs) : Nat := usedBytes fs + reservedBytes J fs

/-! ## Files other than entries -/

def QueueFile.isEntry : QueueFile → Bool
  | .entry _ => true
  | _ => false

def FsEvent.touchesEntry : FsEvent → Bool
  | .writeAtomic f _ => f.isEntry
  | .removeFile f => f.isEntry
  | _ => false

theorem entries_step {ev : FsEvent} (h : ev.touchesEntry = false) :
    (fs.step ev).entries = fs.entries := by
  cases ev with
  | writeAtomic f bytes => cases f <;> first | rfl | cases h
  | removeFile f => cases f <;> first | rfl | cases h
  | openHistory => rfl
  | appendHistory bytes => rfl
  | syncHistory => rfl
  | syncDir d => rfl

theorem queued_congr {fs' : QueueFs} (h : fs'.entries = fs.entries) :
    queued J fs' = queued J fs := by
  unfold queued; rw [h]

/-! ## The queue after a write -/

theorem itemEntry_toVecPretty {e : StoredEntry} (hv : isValidId e.id = true)
    (hs : e.toVecPretty.length ≤ maxEntryBytes) :
    itemEntry J ⟨e.id, .file e.toVecPretty⟩ = some e := by
  refine itemEntry_eq_some.2 ⟨_, rfl, ?_, hv⟩
  rw [readEntryBytes_eq, if_neg (by omega), J.entry_toVecPretty]

theorem queued_write {e : StoredEntry} (hv : isValidId e.id = true)
    (hs : e.toVecPretty.length ≤ maxEntryBytes) :
    queued J (fs.write e.toVecPretty (.entry e.id)) =
      e :: (queued J fs).filter fun x => x.id ≠ e.id :=
  NameReader.values_insert (r := entryReader J) fs.entries (itemEntry_toVecPretty hv hs)

theorem queued_remove (id : String) :
    queued J (fs.remove (.entry id)) = (queued J fs).filter fun x => x.id ≠ id :=
  NameReader.values_erase (r := entryReader J) fs.entries id

theorem mem_queued_write {e x : StoredEntry} (hv : isValidId e.id = true)
    (hs : e.toVecPretty.length ≤ maxEntryBytes) :
    x ∈ queued J (fs.write e.toVecPretty (.entry e.id)) ↔
      x = e ∨ (x ∈ queued J fs ∧ x.id ≠ e.id) := by
  rw [queued_write hv hs, List.mem_cons, List.mem_filter]
  simp

theorem mem_queued_remove {x : StoredEntry} {id : String} :
    x ∈ queued J (fs.remove (.entry id)) ↔ x ∈ queued J fs ∧ x.id ≠ id := by
  rw [queued_remove, List.mem_filter]
  simp

/-! ## Accounting -/

/-- The bytes of the file under a name, if it is a regular file. -/
def sizeAt (fs : QueueFs) (id : String) : List Nat :=
  match fs.entries.lookup id with
  | some (.file bytes) => [bytes.length]
  | _ => []

/-- The entry queued under a name. -/
def entryAt (J : SerdeJson) (fs : QueueFs) (id : String) : List StoredEntry :=
  (queued J fs).filter fun x => x.id = id

theorem fileSizes_perm (id : String) :
    (fileSizes fs.entries.entries).Perm
      (sizeAt fs id ++ fileSizes (fs.remove (.entry id)).entries.entries) := by
  have he : (fs.remove (.entry id)).entries.entries =
      fs.entries.entries.filter fun p => p.1 ≠ id := entries_erase fs.entries id
  rw [he]
  unfold sizeAt
  cases hl : fs.entries.lookup id with
  | none => rw [filter_of_lookup_none hl]; exact List.Perm.refl _
  | some node =>
    have hp : (fileSizes fs.entries.entries).Perm
        (fileSizes (⟨id, node⟩ :: fs.entries.entries.filter fun p => p.1 ≠ id)) :=
      (entries_perm hl).filterMap _
    cases node with
    | other => exact hp
    | file bytes => exact hp

theorem usedBytes_split (fs : QueueFs) (id : String) :
    usedBytes fs = (sizeAt fs id).sum + usedBytes (fs.remove (.entry id)) := by
  unfold usedBytes
  rw [(fileSizes_perm id).sum_eq, List.sum_append]

theorem fileCount_split (fs : QueueFs) (id : String) :
    fileCount fs = (sizeAt fs id).length + fileCount (fs.remove (.entry id)) := by
  unfold fileCount
  rw [(fileSizes_perm id).length_eq, List.length_append]

theorem reservedBytes_split (J : SerdeJson) (fs : QueueFs) (id : String) :
    reservedBytes J fs =
      ((entryAt J fs id).map entryHeadroom).sum + reservedBytes J (fs.remove (.entry id)) := by
  unfold reservedBytes entryAt
  rw [queued_remove, ← List.sum_append, ← List.map_append]
  refine (List.Perm.map _ ?_).sum_eq
  have := List.filter_append_perm (fun x : StoredEntry => decide (x.id = id)) (queued J fs)
  simpa using this.symm

theorem remove_write (fs : QueueFs) (id : String) (bytes : Bytes) :
    (fs.write bytes (.entry id)).remove (.entry id) = fs.remove (.entry id) := by
  have : (fs.entries.insert id (.file bytes)).erase id = fs.entries.erase id := by
    apply AList.ext
    rw [entries_erase, entries_insert, entries_erase, List.filter_cons_of_neg (by simp),
      List.filter_filter]
    simp
  unfold QueueFs.write QueueFs.remove
  simp only [this]

theorem sizeAt_write (fs : QueueFs) (id : String) (bytes : Bytes) :
    sizeAt (fs.write bytes (.entry id)) id = [bytes.length] := by
  unfold sizeAt QueueFs.write
  simp only [AList.lookup_insert]

theorem usedBytes_write (fs : QueueFs) (id : String) (bytes : Bytes) :
    usedBytes (fs.write bytes (.entry id)) = bytes.length + usedBytes (fs.remove (.entry id)) := by
  rw [usedBytes_split _ id, sizeAt_write, remove_write]
  simp

theorem fileCount_write (fs : QueueFs) (id : String) (bytes : Bytes) :
    fileCount (fs.write bytes (.entry id)) = 1 + fileCount (fs.remove (.entry id)) := by
  rw [fileCount_split _ id, sizeAt_write, remove_write]
  rfl

theorem entryAt_write {e : StoredEntry} (hv : isValidId e.id = true)
    (hs : e.toVecPretty.length ≤ maxEntryBytes) :
    entryAt J (fs.write e.toVecPretty (.entry e.id)) e.id = [e] := by
  unfold entryAt
  rw [queued_write hv hs, List.filter_cons_of_pos (by simp), List.filter_filter]
  simp

theorem entryAt_of_mem {e : StoredEntry} (h : e ∈ queued J fs) : entryAt J fs e.id = [e] := by
  have hn := nodup_queued J fs
  unfold entryAt
  obtain ⟨l₁, l₂, hl⟩ := List.append_of_mem h
  rw [hl] at hn ⊢
  simp only [List.map_append, List.map_cons, List.nodup_append, List.nodup_cons, List.mem_map,
    List.mem_cons] at hn
  obtain ⟨-, ⟨h2, -⟩, h3⟩ := hn
  rw [List.filter_append, List.filter_cons_of_pos (by simp)]
  have e1 : l₁.filter (fun x => x.id = e.id) = [] := by
    refine List.filter_eq_nil_iff.2 fun x hx => ?_
    simp only [decide_eq_true_eq]
    exact h3 x.id ⟨x, hx, rfl⟩ e.id (Or.inl rfl)
  have e2 : l₂.filter (fun x => x.id = e.id) = [] := by
    refine List.filter_eq_nil_iff.2 fun x hx => ?_
    simp only [decide_eq_true_eq]
    exact fun hxe => h2 ⟨x, hx, hxe⟩
  rw [e1, e2]
  rfl

theorem reservedBytes_write {e : StoredEntry} (hv : isValidId e.id = true)
    (hs : e.toVecPretty.length ≤ maxEntryBytes) :
    reservedBytes J (fs.write e.toVecPretty (.entry e.id)) =
      entryHeadroom e + reservedBytes J (fs.remove (.entry e.id)) := by
  rw [reservedBytes_split J _ e.id, entryAt_write hv hs, remove_write]
  simp

/-- What one entry contributes to the accounting: its file and its reservation. -/
def StoredEntry.weight (e : StoredEntry) : Nat := e.toVecPretty.length + entryHeadroom e

theorem accountedBytes_write {e : StoredEntry} (hv : isValidId e.id = true)
    (hs : e.toVecPretty.length ≤ maxEntryBytes) :
    accountedBytes J (fs.write e.toVecPretty (.entry e.id)) =
      e.weight + accountedBytes J (fs.remove (.entry e.id)) := by
  unfold accountedBytes StoredEntry.weight
  rw [usedBytes_write, reservedBytes_write hv hs]
  omega

/-! ## Admission -/

theorem requested_le_iff (used new other own : Nat) :
    ensureQueueBytes used (addNat (addNat new other) own) = .ok () ↔
      used + other + (new + own) ≤ maxQueueBytes := by
  have hm : maxQueueBytes < maxU64 := by decide
  rw [ensureQueueBytes_ok_iff]
  unfold addNat
  omega

theorem admitEntry_new_iff {e : StoredEntry} (hv : isValidId e.id = true)
    (hl : fs.entries.lookup e.id = none) :
    admitEntry J fs e (usageOf J fs) = .ok () ↔
      fileCount fs + 1 ≤ maxQueueEntries ∧
      e.toVecPretty.length ≤ maxEntryBytes - entryMutationHeadroomBytes ∧
      accountedBytes J fs + e.weight ≤ maxQueueBytes := by
  have hb : ensureQueueBytes (usedBytes fs - 0)
      (addNat (addNat e.toVecPretty.length (reservedBytes J fs - 0)) (entryHeadroom e)) = .ok () ↔
      accountedBytes J fs + e.weight ≤ maxQueueBytes := by
    rw [requested_le_iff]
    unfold accountedBytes StoredEntry.weight
    omega
  unfold admitEntry previousBytes previousHeadroom usageOf
  simp only [hv, hl, Option.isNone_none, Option.getD_none, if_true]
  split
  · simp only [reduceCtorEq, false_iff, not_and]; omega
  · split
    · next hs =>
      have : ¬ e.toVecPretty.length ≤ maxEntryBytes - entryMutationHeadroomBytes := by
        rw [← ensureEntrySize_ok_iff, hs]; simp
      simp only [reduceCtorEq, false_iff, not_and]; omega
    · next hs =>
      have := ensureEntrySize_ok_iff.1 hs
      rw [hb]
      omega

section Replace

variable {e e' : StoredEntry} (he : e ∈ queued J fs) (hid : e'.id = e.id)
  (hc : fileCount fs ≤ maxQueueEntries)
include he hid hc

/-- The checks made of a write over a queued entry: its size, and the accounting with the entry
replaced. -/
theorem admitEntry_replace : ∃ used requested,
    (used + requested ≤ maxQueueBytes ↔
      accountedBytes J (fs.remove (.entry e.id)) + e'.weight ≤ maxQueueBytes) ∧
    admitEntry J fs e' (usageOf J fs) = (ensureEntrySize e'.toVecPretty.length maxEntryBytes).bind
      fun _ => ensureQueueBytes used requested := by
  obtain ⟨hv, bytes, hl, hr⟩ := mem_queued.1 he
  have hu := usedBytes_split fs e.id
  have hs := reservedBytes_split J fs e.id
  rw [entryAt_of_mem he] at hs
  have hsz : sizeAt fs e.id = [bytes.length] := by unfold sizeAt; rw [hl]
  rw [hsz] at hu
  simp only [List.sum_cons, List.sum_nil, List.map_cons, List.map_nil, Nat.add_zero] at hu hs
  have hp : previousBytes fs e'.id = .ok (some bytes.length) := by
    rw [hid]; unfold previousBytes; simp only [hl]
  have hh : previousHeadroom J fs e'.id (some bytes.length) = .ok (entryHeadroom e) := by
    rw [hid]; unfold previousHeadroom readEntry; simp only [hl, hr]; rfl
  refine ⟨usedBytes fs - bytes.length, addNat (addNat e'.toVecPretty.length
    (reservedBytes J fs - entryHeadroom e)) (entryHeadroom e'), ?_, ?_⟩
  · rw [← ensureQueueBytes_ok_iff, requested_le_iff]
    unfold accountedBytes StoredEntry.weight
    omega
  · unfold admitEntry usageOf
    simp only [hid ▸ hv, hp, hh, Option.isNone_some, Option.getD_some, if_true, Bool.false_eq_true,
      if_false, Nat.add_zero]
    rw [if_neg (by omega)]
    cases ensureEntrySize e'.toVecPretty.length maxEntryBytes <;> rfl

/-- A write over a queued entry is admitted when the replaced accounting stays in budget. -/
theorem admitEntry_replace_iff :
    admitEntry J fs e' (usageOf J fs) = .ok () ↔
      e'.toVecPretty.length ≤ maxEntryBytes ∧
      accountedBytes J (fs.remove (.entry e.id)) + e'.weight ≤ maxQueueBytes := by
  obtain ⟨used, requested, hbudget, hadmits⟩ := admitEntry_replace he hid hc
  rw [hadmits, ← hbudget, ← ensureEntrySize_ok_iff, ← ensureQueueBytes_ok_iff]
  cases ensureEntrySize e'.toVecPretty.length maxEntryBytes <;> simp [Except.bind]

theorem admitEntry_replace_error {err : StoreError}
    (h : admitEntry J fs e' (usageOf J fs) = .error err) : err.isCapacity = true := by
  obtain ⟨used, requested, -, hadmits⟩ := admitEntry_replace he hid hc
  rw [hadmits] at h
  cases hsize : ensureEntrySize e'.toVecPretty.length maxEntryBytes with
  | error bad =>
    rw [hsize] at h
    obtain rfl := Except.error.inj h
    exact ensureEntrySize_error hsize
  | ok u =>
    rw [hsize] at h
    exact (ensureQueueBytes_error h).1

end Replace

end Admission

end Comenq
