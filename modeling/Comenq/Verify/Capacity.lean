import Comenq.Store.Changes

/-!
# Capacity reservation

The widths of the fields that later updates rewrite are reserved when an entry is admitted: the
file and the remaining reservation of an entry always add up to the same number of bytes
(`weight_eq`), and so do the file and the worst-case growth (`reach_eq`). Hence no update of a
queued entry changes the accounting, and none is ever rejected.

`Accounted` is the invariant. Files the store cannot read are allowed and count with their size;
entries it can read must be in the store's own format, with claims of UUID width. Rewriting the
entries of a directory only needs them to be `Roomy`: they may be in any form as long as the limits
also hold with every entry counted at no less than the store's own form of it, without its claim.
`Covered` adds that the claims are of UUID width, as they are in every store that has been opened.
-/

namespace Comenq

open Saturating JsonText Directory Traced CrashTrace

/-! ## Widths -/

theorem isUuidChar_plain {c : Char} (h : isUuidChar c = true) : Plain c := by
  unfold isUuidChar at h
  simp only [Char.isDigit, Bool.or_eq_true, Bool.and_eq_true, decide_eq_true_eq, beq_iff_eq,
    ge_iff_le] at h
  unfold Plain
  rcases h with (⟨h1, h2⟩ | ⟨h1, h2⟩) | rfl
  · have h1 : 48 ≤ c.toNat := h1
    have h2 : c.toNat ≤ 57 := h2
    omega
  · have h1 : 97 ≤ c.toNat := h1
    have h2 : c.toNat ≤ 102 := h2
    omega
  · decide

theorem Uuid.length_quote (u : Uuid) : (quote u.text).length = 38 := by
  rw [JsonText.length_quote fun c hc => isUuidChar_plain (u.chars c hc), u.length_eq]

theorem Uuid.text_ne_empty (u : Uuid) : u.text ≠ "" := by
  intro h
  have := u.length_eq
  rw [h] at this
  cases this

/-- The claim field is as wide as `null` or as a quoted UUID. -/
def StoredEntry.Sized (e : StoredEntry) : Prop :=
  e.claimText.length = 4 ∨ e.claimText.length = 38

theorem sized_of_none {e : StoredEntry} (h : e.claimToken = none) : e.Sized := by
  unfold StoredEntry.Sized StoredEntry.claimText
  rw [h]
  exact Or.inl (by decide)

theorem sized_of_uuid {e : StoredEntry} {u : Uuid} (h : e.claimToken = some u.text) : e.Sized := by
  unfold StoredEntry.Sized StoredEntry.claimText
  rw [h]
  exact Or.inr u.length_quote

/-- An entry without its claim. -/
def StoredEntry.unclaimed (e : StoredEntry) : StoredEntry := { e with claimToken := none }

/-- The bytes of the incarnation line, present or reserved. -/
def StoredEntry.lifetimeBytes (e : StoredEntry) : Nat :=
  if e.incarnation = "" then 57 else (quote e.incarnation).length + 19

/-- The worst size an entry's file can reach. -/
def StoredEntry.reach (e : StoredEntry) : Nat := e.toVecPretty.length + maximumMutationGrowth e

namespace StoredEntry

variable {e e' : StoredEntry}

theorem weight_eq (h : e.Sized) : e.weight = e.rigidBytes + e.lifetimeBytes + 85 := by
  have hw := length_decimal_int64 e.order
  unfold weight lifetimeBytes
  rw [e.length_toVecPretty, entryHeadroom_eq]
  unfold entryMutationHeadroomBytes incarnationGrowth
  rcases h with h | h
  · rw [h]; split <;> omega
  · rw [h]; split <;> omega

theorem reach_eq (h : e.Sized) : e.reach = e.rigidBytes + e.lifetimeBytes + 58 := by
  have hw := length_decimal_int64 e.order
  unfold reach lifetimeBytes
  rw [e.length_toVecPretty, maximumMutationGrowth_eq]
  unfold incarnationGrowth
  rcases h with h | h
  · rw [h]; split <;> omega
  · rw [h]; split <;> omega

theorem weight_unclaimed (e : StoredEntry) :
    e.unclaimed.weight = e.rigidBytes + e.lifetimeBytes + 85 :=
  weight_eq (sized_of_none rfl)

theorem reach_unclaimed (e : StoredEntry) :
    e.unclaimed.reach = e.rigidBytes + e.lifetimeBytes + 58 :=
  reach_eq (sized_of_none rfl)

theorem Updates.sized (hu : e.Updates e') (h : e.Sized) : e'.Sized := by
  rcases hu.claim with hc | hc | ⟨u, hc⟩
  · unfold Sized claimText at *
    rwa [hc]
  · exact sized_of_none hc
  · exact sized_of_uuid hc

theorem Updates.lifetimeBytes_eq (hu : e.Updates e') : e'.lifetimeBytes = e.lifetimeBytes := by
  unfold lifetimeBytes
  rcases hu.incarnation with hi | ⟨hi, u, hu⟩
  · rw [hi]
  · rw [hi, hu, if_neg u.text_ne_empty, if_pos rfl, u.length_quote]

theorem Updates.rigidBytes_eq (hu : e.Updates e') : e'.rigidBytes = e.rigidBytes := by
  have hc : e'.core = e.core := hu.core
  unfold rigidBytes
  change e'.core.toVecPretty.length - 5 = e.core.toVecPretty.length - 5
  rw [hc]

/-- Whatever the claim was, an update to a claim of UUID width or to none takes as much from the
byte budget as the entry without its claim. -/
theorem Updates.weight_unclaimed (hu : e.Updates e') (h : e'.Sized) :
    e'.weight = e.unclaimed.weight := by
  rw [StoredEntry.weight_eq h, StoredEntry.weight_unclaimed, hu.rigidBytes_eq, hu.lifetimeBytes_eq]

theorem Updates.reach_unclaimed (hu : e.Updates e') (h : e'.Sized) :
    e'.reach = e.unclaimed.reach := by
  rw [StoredEntry.reach_eq h, StoredEntry.reach_unclaimed, hu.rigidBytes_eq, hu.lifetimeBytes_eq]

/-- No update changes what an entry takes from the byte budget. -/
theorem Updates.weight_eq (hu : e.Updates e') (h : e.Sized) : e'.weight = e.weight := by
  rw [hu.weight_unclaimed (hu.sized h), StoredEntry.weight_unclaimed, StoredEntry.weight_eq h]

/-- No update changes how large an entry's file may still become. -/
theorem Updates.reach_eq (hu : e.Updates e') (h : e.Sized) : e'.reach = e.reach := by
  rw [hu.reach_unclaimed (hu.sized h), StoredEntry.reach_unclaimed, StoredEntry.reach_eq h]

/-- The growth of a new entry is within the headroom kept free at admission. -/
theorem reach_le_of_new (hsize : e.toVecPretty.length ≤ maxEntryBytes - entryMutationHeadroomBytes)
    (hlife : ∃ u : Uuid, e.incarnation = u.text) : e.reach ≤ maxEntryBytes := by
  obtain ⟨u, hu⟩ := hlife
  have hg : maximumMutationGrowth e ≤ 80 := by
    have hw := length_decimal_int64 e.order
    rw [maximumMutationGrowth_eq]
    unfold incarnationGrowth
    rw [if_neg (hu ▸ u.text_ne_empty)]
    omega
  unfold reach
  unfold maxEntryBytes entryMutationHeadroomBytes at *
  omega

end StoredEntry

/-- A write that the checks let through is performed. -/
theorem writeEntry_admitted {J : SerdeJson} {fs : QueueFs} {e : StoredEntry}
    (hw : WithinLimits J fs) (h : admitEntry J fs e (usageOf J fs) = .ok ()) :
    writeEntry J e fs = ⟨.ok (), [.writeAtomic (.entry e.id) e.toVecPretty]⟩ := by
  have hread : (Traced.read fun fs' => admitEntry J fs' e (usageOf J fs) : Store Unit) fs =
      ⟨.ok (), []⟩ := run_read_ok h
  refine run_bind (run_read_ok (entriesWithUsage_eq hw)) ?_
  change writeEntryWithUsage J e (usageOf J fs) fs = _
  exact run_bind hread (run_emit _)

theorem WithinLimits.growth_write {J : SerdeJson} {fs : QueueFs} (h : WithinLimits J fs)
    {e : StoredEntry} (hv : isValidId e.id = true) (hs : e.toVecPretty.length ≤ maxEntryBytes)
    (hreach : e.reach ≤ maxEntryBytes) : RoomToGrow J (fs.write e.toVecPretty (.entry e.id)) := by
  intro name bytes x hn hi
  change AList.lookup name (fs.entries.insert e.id (.file e.toVecPretty)) = _ at hn
  by_cases hname : name = e.id
  · rw [hname, AList.lookup_insert] at hn
    obtain rfl : e.toVecPretty = bytes := by simpa using hn
    rw [hname, itemEntry_toVecPretty hv hs] at hi
    obtain rfl := Option.some.inj hi
    exact hreach
  · rw [AList.lookup_insert_ne hname] at hn
    exact h.growth name bytes x hn hi

/-! ## Directories with room for rewriting -/

section Room

variable {J : SerdeJson} {fs fs' : QueueFs}

/-- What a queued entry takes of the byte budget: its file as it is, and its reservation. -/
def share (fs : QueueFs) (e : StoredEntry) : Nat := (sizeAt fs e.id).sum + entryHeadroom e

/-- By how much the store's own form of an entry, without its claim, takes more than that. -/
def shortfall (fs : QueueFs) (e : StoredEntry) : Nat := e.unclaimed.weight - share fs e

/-- The bytes that rewriting every entry file in the store's own form may add. -/
def missingBytes (J : SerdeJson) (fs : QueueFs) : Nat := ((queued J fs).map (shortfall fs)).sum

/-- Rewriting the entry files in the store's own form stays within the limits. -/
structure Padded (J : SerdeJson) (fs : QueueFs) : Prop where
  budget : accountedBytes J fs + missingBytes J fs ≤ maxQueueBytes
  reach : ∀ {e}, e ∈ queued J fs → e.unclaimed.reach ≤ maxEntryBytes

structure Roomy (J : SerdeJson) (fs : QueueFs) : Prop where
  limits : WithinLimits J fs
  padded : Padded J fs

structure Covered (J : SerdeJson) (fs : QueueFs) : Prop extends Roomy J fs where
  sized : ∀ {e}, e ∈ queued J fs → e.Sized

theorem missingBytes_split (J : SerdeJson) (fs : QueueFs) (id : String) :
    missingBytes J fs = ((entryAt J fs id).map (shortfall fs)).sum +
      missingBytes J (fs.remove (.entry id)) := by
  have hrest : (queued J (fs.remove (.entry id))).map (shortfall (fs.remove (.entry id))) =
      (queued J (fs.remove (.entry id))).map (shortfall fs) := by
    apply List.map_congr_left
    intro x hx
    have hl : (fs.remove (.entry id)).entries.lookup x.id = fs.entries.lookup x.id :=
      AList.lookup_erase_ne (mem_queued_remove.1 hx).2
    unfold shortfall share sizeAt
    rw [hl]
  unfold missingBytes entryAt
  rw [hrest, queued_remove, ← List.sum_append, ← List.map_append]
  refine (List.Perm.map _ ?_).sum_eq
  have := List.filter_append_perm (fun x : StoredEntry => decide (x.id = id)) (queued J fs)
  simpa using this.symm

theorem missingBytes_write {e : StoredEntry} (hv : isValidId e.id = true)
    (hs : e.toVecPretty.length ≤ maxEntryBytes) (hsized : e.Sized) :
    missingBytes J (fs.write e.toVecPretty (.entry e.id)) =
      missingBytes J (fs.remove (.entry e.id)) := by
  have hzero : shortfall (fs.write e.toVecPretty (.entry e.id)) e = 0 := by
    have hweight : e.unclaimed.weight = e.toVecPretty.length + entryHeadroom e :=
      (StoredEntry.weight_unclaimed e).trans (StoredEntry.weight_eq hsized).symm
    unfold shortfall share
    rw [hweight, sizeAt_write]
    simp
  rw [missingBytes_split J _ e.id, entryAt_write hv hs, remove_write]
  simp [hzero]

theorem accountedBytes_split {e : StoredEntry} (he : e ∈ queued J fs) :
    accountedBytes J fs = share fs e + accountedBytes J (fs.remove (.entry e.id)) := by
  unfold accountedBytes share
  rw [usedBytes_split fs e.id, reservedBytes_split J fs e.id, entryAt_of_mem he]
  simp only [List.map_cons, List.map_nil, List.sum_cons, List.sum_nil]
  omega

/-- An entry counts with its share, or with the store's own form of it where that takes more. -/
theorem padded_split {e : StoredEntry} (he : e ∈ queued J fs) :
    accountedBytes J fs + missingBytes J fs = max (share fs e) e.unclaimed.weight +
      (accountedBytes J (fs.remove (.entry e.id)) + missingBytes J (fs.remove (.entry e.id))) := by
  have hm := missingBytes_split J fs e.id
  rw [entryAt_of_mem he] at hm
  simp only [List.map_cons, List.map_nil, List.sum_cons, List.sum_nil, Nat.add_zero] at hm
  rw [accountedBytes_split he, hm]
  unfold shortfall
  omega

namespace Roomy

theorem congr (h : Roomy J fs) (he : fs'.entries = fs.entries) : Roomy J fs' := by
  have hq : queued J fs' = queued J fs := queued_congr he
  obtain ⟨⟨hcount, hbytes, hgrowth⟩, hbudget, hreach⟩ := h
  refine ⟨⟨?_, ?_, ?_⟩, ⟨?_, ?_⟩⟩
  · unfold fileCount at *; rwa [he]
  · unfold usedBytes at *; rwa [he]
  · unfold RoomToGrow at *; rwa [he]
  · unfold accountedBytes usedBytes reservedBytes missingBytes shortfall share sizeAt at *
    rwa [hq, he]
  · intro e; rw [hq]; exact hreach

theorem remove (h : Roomy J fs) (id : String) : Roomy J (fs.remove (.entry id)) := by
  have hc := fileCount_split fs id
  have hu := usedBytes_split fs id
  have hr := reservedBytes_split J fs id
  have hm := missingBytes_split J fs id
  obtain ⟨⟨hcount, hbytes, hgrowth⟩, hbudget, hreach⟩ := h
  unfold accountedBytes at hbudget
  refine ⟨⟨by omega, by omega, ?_⟩, ⟨by unfold accountedBytes; omega, ?_⟩⟩
  · intro name bytes e hl hi
    change AList.lookup name (fs.entries.erase id) = _ at hl
    by_cases hid : name = id
    · rw [hid, AList.lookup_erase] at hl
      cases hl
    · rw [AList.lookup_erase_ne hid] at hl
      exact hgrowth name bytes e hl hi
  · intro x hx; exact hreach (mem_queued_remove.1 hx).1

variable {e e' : StoredEntry} (h : Roomy J fs) (he : e ∈ queued J fs) (hu : e.Updates e')
  (hsized : e'.Sized)
include h he hu hsized

/-- The size of an updated entry stays below what was reserved for it. -/
theorem length_le_of_updates :
    e'.reach ≤ maxEntryBytes ∧ e'.toVecPretty.length ≤ maxEntryBytes := by
  have hle := h.padded.reach he
  rw [← hu.reach_unclaimed hsized] at hle
  refine ⟨hle, ?_⟩
  unfold StoredEntry.reach at hle
  omega

theorem write_update : Roomy J (fs.write e'.toVecPretty (.entry e'.id)) := by
  obtain ⟨hv, bytes, hl, -⟩ := mem_queued.1 he
  obtain ⟨hreach, hsize⟩ := h.length_le_of_updates he hu hsized
  have hid := hu.id_eq
  have hv' : isValidId e'.id = true := hid ▸ hv
  have hbudget : accountedBytes J (fs.write e'.toVecPretty (.entry e'.id)) +
      missingBytes J (fs.write e'.toVecPretty (.entry e'.id)) ≤ maxQueueBytes := by
    have hsplit := padded_split he
    have hle := h.padded.budget
    rw [accountedBytes_write hv' hsize, missingBytes_write hv' hsize hsized, hid,
      hu.weight_unclaimed hsized]
    omega
  refine ⟨⟨?_, ?_, ?_⟩, ⟨hbudget, ?_⟩⟩
  · have hc := fileCount_split fs e.id
    have hsz : (sizeAt fs e.id).length = 1 := by unfold sizeAt; rw [hl]; rfl
    have hcount := h.limits.count
    rw [fileCount_write, hid]
    omega
  · unfold accountedBytes at hbudget
    omega
  · exact h.limits.growth_write hv' hsize hreach
  · intro x hx
    rcases (mem_queued_write hv' hsize).1 hx with rfl | ⟨hx, -⟩
    · have hown : x.unclaimed.reach = x.reach :=
        x.reach_unclaimed.trans (StoredEntry.reach_eq hsized).symm
      rw [hown]
      exact hreach
    · exact h.padded.reach hx

/-- An update of a queued entry is admitted, whatever form its file has. -/
theorem writeEntry_run :
    writeEntry J e' fs = ⟨.ok (), [.writeAtomic (.entry e'.id) e'.toVecPretty]⟩ := by
  apply writeEntry_admitted h.limits
  apply (admitEntry_replace_iff he hu.id_eq h.limits.count).2
  refine ⟨(h.length_le_of_updates he hu hsized).2, ?_⟩
  have hsplit := padded_split he
  have hle := h.padded.budget
  rw [hu.weight_unclaimed hsized]
  omega

end Roomy

namespace Covered

theorem congr (h : Covered J fs) (he : fs'.entries = fs.entries) : Covered J fs' := by
  refine ⟨h.toRoomy.congr he, ?_⟩
  intro e hx
  rw [queued_congr he] at hx
  exact h.sized hx

theorem remove (h : Covered J fs) (id : String) : Covered J (fs.remove (.entry id)) :=
  ⟨h.toRoomy.remove id, fun hx => h.sized (mem_queued_remove.1 hx).1⟩

variable {e e' : StoredEntry}

theorem write_update (h : Covered J fs) (he : e ∈ queued J fs) (hu : e.Updates e') :
    Covered J (fs.write e'.toVecPretty (.entry e'.id)) := by
  have hsized := hu.sized (h.sized he)
  have hsize := (h.toRoomy.length_le_of_updates he hu hsized).2
  refine ⟨h.toRoomy.write_update he hu hsized, ?_⟩
  intro x hx
  rcases (mem_queued_write (hu.id_eq ▸ isValidId_of_mem he) hsize).1 hx with rfl | ⟨hx, -⟩
  · exact hsized
  · exact h.sized hx

theorem writeEntry_run (h : Covered J fs) (he : e ∈ queued J fs) (hu : e.Updates e') :
    writeEntry J e' fs = ⟨.ok (), [.writeAtomic (.entry e'.id) e'.toVecPretty]⟩ :=
  h.toRoomy.writeEntry_run he hu (hu.sized (h.sized he))

/-- Only a new entry needs more than what is covered. -/
theorem step {k : Kind} {ev : FsEvent} (h : Covered J fs) (hc : Change J fs k ev)
    (hk : ∀ id incarnation, k ≠ .enroll id incarnation) : Covered J (fs.step ev) := by
  cases hc with
  | enroll => exact absurd rfl (hk _ _)
  | update he hu _ _ => exact h.write_update he hu
  | drop => exact h.remove _
  | take => exact h.remove _
  | _ => exact h.congr rfl

end Covered

end Room

/-! ## The invariant -/

/-- A directory whose reservations cover every later update of its entries. -/
structure Accounted (J : SerdeJson) (fs : QueueFs) : Prop where
  count : fileCount fs ≤ maxQueueEntries
  budget : accountedBytes J fs ≤ maxQueueBytes
  /-- Readable entries are stored as the store writes them. -/
  native : ∀ {e bytes}, e ∈ queued J fs → fs.entries.lookup e.id = some (.file bytes) →
    bytes = e.toVecPretty
  sized : ∀ {e}, e ∈ queued J fs → e.Sized
  reach : ∀ {e}, e ∈ queued J fs → e.reach ≤ maxEntryBytes

namespace Accounted

variable {J : SerdeJson} {fs : QueueFs}

theorem withinLimits (h : Accounted J fs) : WithinLimits J fs where
  count := h.count
  bytes := by
    have := h.budget
    unfold accountedBytes at this
    omega
  growth := by
    intro id bytes e hl hi
    obtain ⟨b, hp, hr, hv⟩ := itemEntry_eq_some.1 hi
    obtain ⟨rfl, rfl⟩ : id = e.id ∧ bytes = b := by simpa using hp
    have he : e ∈ queued J fs := mem_queued.2 ⟨hv, bytes, hl, hr⟩
    rw [h.native he hl]
    exact h.reach he

theorem congr {fs' : QueueFs} (h : Accounted J fs) (he : fs'.entries = fs.entries) :
    Accounted J fs' := by
  have hq : queued J fs' = queued J fs := queued_congr he
  refine ⟨?_, ?_, ?_, ?_, ?_⟩
  · unfold fileCount; rw [he]; exact h.count
  · have := h.budget
    unfold accountedBytes usedBytes reservedBytes at *
    rwa [hq, he]
  · intro e bytes; rw [hq, he]; exact h.native
  · intro e; rw [hq]; exact h.sized
  · intro e; rw [hq]; exact h.reach

theorem share_eq (h : Accounted J fs) {e : StoredEntry} (he : e ∈ queued J fs) :
    share fs e = e.weight := by
  obtain ⟨-, bytes, hl, -⟩ := mem_queued.1 he
  unfold share sizeAt StoredEntry.weight
  rw [hl, h.native he hl]
  simp

theorem accounted_split (h : Accounted J fs) {e : StoredEntry} (he : e ∈ queued J fs) :
    accountedBytes J fs = e.weight + accountedBytes J (fs.remove (.entry e.id)) := by
  rw [accountedBytes_split he, h.share_eq he]

theorem write (h : Accounted J fs) {e : StoredEntry} (hv : isValidId e.id = true)
    (hcount : fileCount (fs.remove (.entry e.id)) + 1 ≤ maxQueueEntries)
    (hbudget : accountedBytes J (fs.remove (.entry e.id)) + e.weight ≤ maxQueueBytes)
    (hsized : e.Sized) (hreach : e.reach ≤ maxEntryBytes) :
    Accounted J (fs.write e.toVecPretty (.entry e.id)) := by
  have hs : e.toVecPretty.length ≤ maxEntryBytes := by
    unfold StoredEntry.reach at hreach; omega
  refine ⟨?_, ?_, ?_, ?_, ?_⟩
  · rw [fileCount_write]; omega
  · rw [accountedBytes_write hv hs]; omega
  · intro x bytes hx hl
    change AList.lookup x.id (fs.entries.insert e.id (.file e.toVecPretty)) = _ at hl
    rcases (mem_queued_write hv hs).1 hx with rfl | ⟨hx, hne⟩
    · rw [AList.lookup_insert] at hl
      simpa using hl.symm
    · rw [AList.lookup_insert_ne hne] at hl
      exact h.native hx hl
  · intro x hx
    rcases (mem_queued_write hv hs).1 hx with rfl | ⟨hx, -⟩
    · exact hsized
    · exact h.sized hx
  · intro x hx
    rcases (mem_queued_write hv hs).1 hx with rfl | ⟨hx, -⟩
    · exact hreach
    · exact h.reach hx

theorem write_update (h : Accounted J fs) {e e' : StoredEntry} (he : e ∈ queued J fs)
    (hu : e.Updates e') : Accounted J (fs.write e'.toVecPretty (.entry e'.id)) := by
  obtain ⟨hv, bytes, hl, -⟩ := mem_queued.1 he
  have hsplit := h.accounted_split he
  have hcount := fileCount_split fs e.id
  have hsz : (sizeAt fs e.id).length = 1 := by unfold sizeAt; rw [hl]; rfl
  have hb := h.budget
  have hc := h.count
  refine h.write (hu.id_eq ▸ hv) ?_ ?_ (hu.sized (h.sized he)) ?_
  · rw [hu.id_eq]; omega
  · rw [hu.id_eq, hu.weight_eq (h.sized he)]; omega
  · rw [hu.reach_eq (h.sized he)]; exact h.reach he

theorem remove (h : Accounted J fs) (id : String) : Accounted J (fs.remove (.entry id)) := by
  have hc := fileCount_split fs id
  have hu := usedBytes_split fs id
  have hr := reservedBytes_split J fs id
  have hcount := h.count
  have hbudget := h.budget
  unfold accountedBytes at hbudget
  refine ⟨by omega, by unfold accountedBytes; omega, ?_, ?_, ?_⟩
  · intro x bytes hx hl
    obtain ⟨hx, hne⟩ := mem_queued_remove.1 hx
    change AList.lookup x.id (fs.entries.erase id) = _ at hl
    rw [AList.lookup_erase_ne hne] at hl
    exact h.native hx hl
  · intro x hx; exact h.sized (mem_queued_remove.1 hx).1
  · intro x hx; exact h.reach (mem_queued_remove.1 hx).1

theorem enroll (h : Accounted J fs) {e : StoredEntry} (hv : isValidId e.id = true)
    (hcount : fileCount fs + 1 ≤ maxQueueEntries)
    (hsize : e.toVecPretty.length ≤ maxEntryBytes - entryMutationHeadroomBytes)
    (hbudget : accountedBytes J fs + e.weight ≤ maxQueueBytes) (hclaim : e.claimToken = none)
    (hlife : ∃ u : Uuid, e.incarnation = u.text) :
    Accounted J (fs.write e.toVecPretty (.entry e.id)) := by
  have hc := fileCount_split fs e.id
  have hu := usedBytes_split fs e.id
  have hr := reservedBytes_split J fs e.id
  unfold accountedBytes at hbudget
  exact h.write hv (by omega) (by unfold accountedBytes; omega) (sized_of_none hclaim)
    (StoredEntry.reach_le_of_new hsize hlife)

/-- Every change the store makes keeps the accounting. -/
theorem step {k : Kind} {ev : FsEvent} (h : Accounted J fs) (hc : Change J fs k ev) :
    Accounted J (fs.step ev) := by
  cases hc with
  | enroll hv _ _ hcount hsize hbudget hclaim hlife =>
    exact h.enroll hv hcount hsize hbudget hclaim hlife
  | update he hu _ _ => exact h.write_update he hu
  | drop he => exact h.remove _
  | take he _ _ => exact h.remove _
  | _ => exact h.congr rfl

theorem length_le_of_updates (h : Accounted J fs) {e e' : StoredEntry} (he : e ∈ queued J fs)
    (hu : e.Updates e') : e'.toVecPretty.length ≤ maxEntryBytes := by
  have hr := hu.reach_eq (h.sized he)
  have hle := h.reach he
  unfold StoredEntry.reach at hr hle
  omega

/-- The queue after an update: the updated entry and the others. -/
theorem mem_write_update (h : Accounted J fs) {e e' : StoredEntry} (he : e ∈ queued J fs)
    (hu : e.Updates e') {x : StoredEntry} :
    x ∈ queued J (fs.write e'.toVecPretty (.entry e'.id)) ↔
      x = e' ∨ (x ∈ queued J fs ∧ x.id ≠ e.id) := by
  rw [mem_queued_write (hu.id_eq ▸ isValidId_of_mem he) (h.length_le_of_updates he hu), hu.id_eq]

/-- In the store's own format the accounting is exact, and nothing is missing. -/
theorem covered (h : Accounted J fs) : Covered J fs := by
  have hzero : missingBytes J fs = 0 := by
    apply List.sum_eq_zero
    intro n hn
    obtain ⟨e, he, rfl⟩ := List.mem_map.1 hn
    unfold shortfall
    rw [h.share_eq he, e.weight_unclaimed, StoredEntry.weight_eq (h.sized he), Nat.sub_self]
  refine ⟨⟨h.withinLimits, ⟨?_, ?_⟩⟩, h.sized⟩
  · rw [hzero]
    exact h.budget
  · intro e he
    rw [e.reach_unclaimed, ← StoredEntry.reach_eq (h.sized he)]
    exact h.reach he

end Accounted

end Comenq
