import Comenq.Store.Bounds

/-!
# The queue behind the directory

What the directory scan, the lookup by identifier and the entry writes of `Bounds` say about the
set of queued entries. `queued` lists the entries a directory holds; `WithinLimits` is the
condition under which the scan succeeds, and it then returns the queued entries in posting order
with the bytes used and reserved (`entriesWithUsage_eq`). Everything later modules need of the
directory goes through these lemmas.
-/

namespace Comenq

open Saturating JsonText Directory

/-! ## Abstraction -/

section Defs

variable (J : SerdeJson)

/-- The entry a directory item holds, if the store accepts it. -/
def itemEntry : (Σ _ : String, Node) → Option StoredEntry
  | ⟨_, .other⟩ => none
  | ⟨stem, .file bytes⟩ =>
    match readEntryBytes J bytes with
    | .error _ => none
    | .ok entry => if isValidId entry.id ∧ stem = entry.id then some entry else none

theorem itemEntry_eq_some {J : SerdeJson} {p : Σ _ : String, Node} {e : StoredEntry} :
    itemEntry J p = some e ↔
      ∃ bytes, p = ⟨e.id, .file bytes⟩ ∧ readEntryBytes J bytes = .ok e ∧
      isValidId e.id = true := by
  obtain ⟨stem, node⟩ := p
  cases node with
  | other => simp [itemEntry]
  | file bytes =>
    unfold itemEntry
    constructor
    · intro h
      simp only at h
      split at h
      · cases h
      · next entry hr =>
        split at h
        · next hv =>
          obtain rfl := Option.some.inj h
          exact ⟨bytes, by rw [hv.2], hr, hv.1⟩
        · cases h
    · rintro ⟨b, hb, hok, hv⟩
      obtain ⟨rfl, rfl⟩ : stem = e.id ∧ bytes = b := by simpa using hb
      simp only [hok]
      rw [if_pos ⟨hv, trivial⟩]

/-- Entries are read under their own identifier. -/
def entryReader : NameReader String Node StoredEntry where
  item := itemEntry J
  name := StoredEntry.id
  name_eq h := by
    obtain ⟨b, rfl, -, -⟩ := itemEntry_eq_some.1 h
    rfl

/-- The entries a queue directory holds, in listing order. -/
def queued (fs : QueueFs) : List StoredEntry := (entryReader J).values fs.entries

end Defs

/-- The sizes of the regular files among directory items. -/
def fileSizes (items : List (Σ _ : String, Node)) : List Nat :=
  items.filterMap fun p =>
    match p.2 with
    | .file bytes => some bytes.length
    | .other => none

def fileCount (fs : QueueFs) : Nat := (fileSizes fs.entries.entries).length

def usedBytes (fs : QueueFs) : Nat := (fileSizes fs.entries.entries).sum

/-- The headroom reserved for queued entries. -/
def reservedBytes (J : SerdeJson) (fs : QueueFs) : Nat := ((queued J fs).map entryHeadroom).sum

/-- Every queued entry may still grow to its worst-case width. -/
def RoomToGrow (J : SerdeJson) (fs : QueueFs) : Prop :=
  ∀ id bytes e, fs.entries.lookup id = some (.file bytes) → itemEntry J ⟨id, .file bytes⟩ = some e →
    bytes.length + maximumMutationGrowth e ≤ maxEntryBytes

/-- The conditions under which the directory scan succeeds. -/
structure WithinLimits (J : SerdeJson) (fs : QueueFs) : Prop where
  count : fileCount fs ≤ maxQueueEntries
  bytes : usedBytes fs ≤ maxQueueBytes
  growth : RoomToGrow J fs

/-! ## Small facts about the accounting -/

theorem ensureQueueBytes_ok_iff {used requested : Nat} :
    ensureQueueBytes used requested = .ok () ↔ used + requested ≤ maxQueueBytes := by
  have hm : maxQueueBytes < maxU64 := by decide
  unfold ensureQueueBytes addNat
  split
  · simp only [reduceCtorEq, false_iff]; omega
  · simp only [true_iff]; omega

theorem ensureQueueBytes_error {used requested : Nat} {e : StoreError}
    (h : ensureQueueBytes used requested = .error e) :
    e.isCapacity = true ∧ maxQueueBytes < used + requested := by
  have hn : ¬ used + requested ≤ maxQueueBytes := by
    rw [← ensureQueueBytes_ok_iff, h]; simp
  unfold ensureQueueBytes at h
  split at h
  · obtain rfl := Except.error.inj h
    exact ⟨rfl, by omega⟩
  · cases h

theorem ensureEntrySize_ok_iff {size limit : Nat} :
    ensureEntrySize size limit = .ok () ↔ size ≤ limit := by
  unfold ensureEntrySize
  split
  · simp only [reduceCtorEq, false_iff]; omega
  · simp only [true_iff]; omega

theorem ensureEntrySize_error {size limit : Nat} {e : StoreError}
    (h : ensureEntrySize size limit = .error e) : e.isCapacity = true := by
  unfold ensureEntrySize at h
  split at h
  · obtain rfl := Except.error.inj h
    rfl
  · cases h

theorem incarnationGrowth_le (e : StoredEntry) : incarnationGrowth e ≤ 57 := by
  unfold incarnationGrowth; split <;> omega

theorem entryHeadroom_eq (e : StoredEntry) :
    entryHeadroom e = entryMutationHeadroomBytes - ((decimal e.order.toInt).length - 1) -
      (e.claimText.length - 4) + incarnationGrowth e := by
  have hi := incarnationGrowth_le e
  have hm : entryMutationHeadroomBytes + 57 ≤ maxU64 := by decide
  have hn : (ascii "null").length = 4 := by decide
  unfold entryHeadroom StoredEntry.claimText addNat
  cases e.claimToken with
  | none => simp only [Option.map_none, orNull, hn]; omega
  | some token => simp only [Option.map_some, orNull]; omega

theorem entryHeadroom_le (e : StoredEntry) : entryHeadroom e ≤ 137 := by
  have hi := incarnationGrowth_le e
  rw [entryHeadroom_eq]
  unfold entryMutationHeadroomBytes
  omega

theorem maximumMutationGrowth_eq (e : StoredEntry) :
    maximumMutationGrowth e = (20 - (decimal e.order.toInt).length) + (38 - e.claimText.length) +
      incarnationGrowth e := by
  have hi := incarnationGrowth_le e
  have hm : 200 ≤ maxU64 := by decide
  have hn : (ascii "null").length = 4 := by decide
  unfold maximumMutationGrowth StoredEntry.claimText addNat
  cases e.claimToken with
  | none => simp only [Option.map_none, orNull, hn]; omega
  | some token => simp only [Option.map_some, orNull]; omega

/-! ## The directory scan -/

section Scan

/-- The regular files among directory items. -/
def regularFiles (items : List (Σ _ : String, Node)) : List EntryFile :=
  items.filterMap fun p =>
    match p.2 with
    | .file bytes => some ⟨p.1, bytes⟩
    | .other => none

theorem length_regularFiles (items : List (Σ _ : String, Node)) :
    (regularFiles items).length = (fileSizes items).length := by
  induction items with
  | nil => rfl
  | cons p items ih =>
    obtain ⟨stem, node⟩ := p
    cases node with
    | other => exact ih
    | file bytes => exact congrArg Nat.succ ih

theorem scanFrom_ok {items : List (Σ _ : String, Node)} {paths : List EntryFile} {bytes : Nat}
    (hc : paths.length + (fileSizes items).length ≤ maxQueueEntries)
    (hb : bytes + (fileSizes items).sum ≤ maxQueueBytes) :
    scanFrom items paths bytes =
    .ok (paths ++ regularFiles items, bytes + (fileSizes items).sum) := by
  induction items generalizing paths bytes with
  | nil => simp [scanFrom, regularFiles, fileSizes]
  | cons p items ih =>
    obtain ⟨stem, node⟩ := p
    cases node with
    | other => exact ih hc hb
    | file b =>
      have hlen : (fileSizes (⟨stem, .file b⟩ :: items)) = b.length :: fileSizes items := rfl
      rw [hlen, List.length_cons] at hc
      rw [hlen, List.sum_cons] at hb
      have hsat : addNat bytes b.length = bytes + b.length := by
        have hm : maxQueueBytes < maxU64 := by decide
        unfold addNat; omega
      have hn : paths.length ≠ maxQueueEntries := by omega
      have hq : ensureQueueBytes bytes b.length = .ok () := ensureQueueBytes_ok_iff.2 (by omega)
      unfold scanFrom
      rw [if_neg hn]
      simp only [hq]
      rw [hsat, ih (by simp only [List.length_append, List.length_singleton]; omega) (by omega),
        hlen, List.sum_cons]
      simp only [List.append_assoc, List.singleton_append, Nat.add_assoc]
      rfl

/-- A failed scan reports exhausted capacity. -/
theorem scanFrom_error {items : List (Σ _ : String, Node)} {paths : List EntryFile} {bytes : Nat}
    {e : StoreError} (h : scanFrom items paths bytes = .error e) : e.isCapacity = true := by
  induction items generalizing paths bytes with
  | nil => cases h
  | cons p items ih =>
    obtain ⟨stem, node⟩ := p
    cases node with
    | other => exact ih h
    | file b =>
      unfold scanFrom at h
      split at h
      · obtain rfl := Except.error.inj h; rfl
      · split at h
        · next hq =>
          obtain rfl := Except.error.inj h
          exact (ensureQueueBytes_error hq).1
        · exact ih h

/-- The limits a successful scan has checked. -/
theorem scanFrom_limits {items : List (Σ _ : String, Node)} {paths : List EntryFile} {bytes : Nat}
    {r : List EntryFile × Nat} (hp : paths.length ≤ maxQueueEntries) (hb : bytes ≤ maxQueueBytes)
    (h : scanFrom items paths bytes = .ok r) :
    paths.length + (fileSizes items).length ≤ maxQueueEntries ∧
      bytes + (fileSizes items).sum ≤ maxQueueBytes := by
  induction items generalizing paths bytes with
  | nil => exact ⟨hp, hb⟩
  | cons p items ih =>
    obtain ⟨stem, node⟩ := p
    cases node with
    | other => exact ih hp hb h
    | file b =>
      have hlen : (fileSizes (⟨stem, .file b⟩ :: items)) = b.length :: fileSizes items := rfl
      rw [hlen, List.length_cons, List.sum_cons]
      unfold scanFrom at h
      split at h
      · cases h
      · next hn =>
        split at h
        · cases h
        · next hq =>
          have hle := ensureQueueBytes_ok_iff.1 hq
          have hsat : addNat bytes b.length = bytes + b.length := by
            have hm : maxQueueBytes < maxU64 := by decide
            unfold addNat; omega
          rw [hsat] at h
          have := ih (by simp only [List.length_append, List.length_singleton]; omega) hle h
          simp only [List.length_append, List.length_singleton] at this
          omega

variable {J : SerdeJson}

/-- The entry an examined file contributes. -/
def EntryFile.entry (J : SerdeJson) (f : EntryFile) : Option StoredEntry :=
  itemEntry J ⟨f.stem, .file f.bytes⟩

theorem filterMap_regularFiles (items : List (Σ _ : String, Node)) :
    (regularFiles items).filterMap (EntryFile.entry J) = items.filterMap (itemEntry J) := by
  induction items with
  | nil => rfl
  | cons p items ih =>
    obtain ⟨stem, node⟩ := p
    cases node with
    | other => exact ih
    | file b =>
      change List.filterMap (EntryFile.entry J) (⟨stem, b⟩ :: regularFiles items) = _
      rw [List.filterMap_cons, List.filterMap_cons, ih]
      rfl

theorem collectFrom_cons (f : EntryFile) (fs : List EntryFile) (es : List StoredEntry) (n : Nat) :
    collectFrom J (f :: fs) es n =
      match f.entry J with
      | none => collectFrom J fs es n
      | some entry =>
        if f.bytes.length + maximumMutationGrowth entry > maxEntryBytes then
          .error (.entryTooLarge (addNat f.bytes.length (maximumMutationGrowth entry))
            maxEntryBytes)
        else collectFrom J fs (es ++ [entry]) (addNat n (entryHeadroom entry)) := by
  have hm : maxEntryBytes < maxU64 := by decide
  have hsat : ∀ entry, addNat f.bytes.length (maximumMutationGrowth entry) > maxEntryBytes ↔
      f.bytes.length + maximumMutationGrowth entry > maxEntryBytes := by
    intro entry; unfold addNat; omega
  unfold EntryFile.entry itemEntry
  conv_lhs => unfold collectFrom
  cases hr : readEntryBytes J f.bytes with
  | error e => simp only [hr]
  | ok entry =>
    simp only [hr]
    by_cases hv : isValidId entry.id = true
    · by_cases hs : f.stem = entry.id
      · simp [hv, hs, hsat]
      · simp [hv, hs]
    · simp [hv]

theorem collectFrom_ok {files : List EntryFile} {es : List StoredEntry} {n : Nat}
    (hg : ∀ f ∈ files, ∀ e, f.entry J = some e →
      f.bytes.length + maximumMutationGrowth e ≤ maxEntryBytes)
    (hn : n + 137 * files.length ≤ maxU64) :
    collectFrom J files es n =
      .ok (es ++ files.filterMap (EntryFile.entry J),
        n + ((files.filterMap (EntryFile.entry J)).map entryHeadroom).sum) := by
  induction files generalizing es n with
  | nil => simp [collectFrom]
  | cons f files ih =>
    have hg' := fun g hg' => hg g (List.mem_cons_of_mem f hg')
    rw [List.length_cons] at hn
    rw [collectFrom_cons]
    cases he : f.entry J with
    | none => rw [List.filterMap_cons_none he]; exact ih hg' (by omega)
    | some e =>
      have hle := hg f List.mem_cons_self e he
      have hh := entryHeadroom_le e
      have hsat : addNat n (entryHeadroom e) = n + entryHeadroom e := by unfold addNat; omega
      simp only
      rw [if_neg (by omega), hsat, ih hg' (by omega), List.filterMap_cons_some he]
      simp only [List.append_assoc, List.singleton_append, List.map_cons, List.sum_cons,
        Nat.add_assoc]

theorem collectFrom_error {files : List EntryFile} {es : List StoredEntry} {n : Nat}
    {err : StoreError} (h : collectFrom J files es n = .error err) : err.isCapacity = true := by
  induction files generalizing es n with
  | nil => cases h
  | cons f files ih =>
    rw [collectFrom_cons] at h
    split at h
    · exact ih h
    · split at h
      · obtain rfl := Except.error.inj h; rfl
      · exact ih h

theorem collectFrom_growth {files : List EntryFile} {es : List StoredEntry} {n : Nat}
    {r : List StoredEntry × Nat} (h : collectFrom J files es n = .ok r) :
    ∀ f ∈ files, ∀ e, f.entry J = some e →
      f.bytes.length + maximumMutationGrowth e ≤ maxEntryBytes := by
  induction files generalizing es n with
  | nil => intro f hf; cases hf
  | cons g files ih =>
    intro f hf e he
    rw [collectFrom_cons] at h
    rcases List.mem_cons.1 hf with rfl | hf
    · rw [he] at h
      simp only at h
      split at h
      · cases h
      · omega
    · split at h
      · exact ih h f hf e he
      · split at h
        · cases h
        · exact ih h f hf e he

end Scan

/-! ## The sorted queue -/

instance : Std.Total fun a b : StoredEntry => a.key ≤ b.key := ⟨fun _ _ => le_total _ _⟩

instance : IsTrans StoredEntry fun a b => a.key ≤ b.key := ⟨fun _ _ _ => le_trans⟩

theorem StoredEntry.id_eq_of_key_eq {a b : StoredEntry} (h : a.key = b.key) : a.id = b.id := by
  unfold StoredEntry.key at h
  have h2 := congrArg (fun k => (ofLex (ofLex k).2).2) h
  exact h2

theorem sortEntries_perm (es : List StoredEntry) : (sortEntries es).Perm es :=
  List.perm_insertionSort _ es

theorem mem_sortEntries {es : List StoredEntry} {e : StoredEntry} : e ∈ sortEntries es ↔ e ∈ es :=
  (sortEntries_perm es).mem_iff

theorem pairwise_sortEntries (es : List StoredEntry) :
    (sortEntries es).Pairwise fun a b => a.key ≤ b.key :=
  List.pairwise_insertionSort _ es

/-- A sorted arrangement of entries with distinct identifiers is the sorted list. -/
theorem sortEntries_eq {es sorted : List StoredEntry} (hn : (es.map StoredEntry.id).Nodup)
    (hp : sorted.Perm es) (hs : sorted.Pairwise fun a b => a.key ≤ b.key) :
    sortEntries es = sorted := by
  refine List.Perm.eq_of_pairwise ?_ (pairwise_sortEntries es) hs
    ((sortEntries_perm es).trans hp.symm)
  intro a b ha hb hab hba
  have hid := StoredEntry.id_eq_of_key_eq (le_antisymm hab hba)
  exact List.inj_on_of_nodup_map hn (mem_sortEntries.1 ha) (hp.mem_iff.1 hb) hid

section Limits

variable {J : SerdeJson} {fs : QueueFs}

theorem nodup_queued (J : SerdeJson) (fs : QueueFs) :
    ((queued J fs).map StoredEntry.id).Nodup :=
  NameReader.nodup_names (r := entryReader J) fs.entries

theorem eq_of_mem_queued {a b : StoredEntry} (ha : a ∈ queued J fs) (hb : b ∈ queued J fs)
    (h : a.id = b.id) : a = b :=
  NameReader.eq_of_name_eq ha hb h

theorem mem_queued {e : StoredEntry} :
    e ∈ queued J fs ↔ isValidId e.id = true ∧
      ∃ bytes, fs.entries.lookup e.id = some (.file bytes) ∧ readEntryBytes J bytes = .ok e := by
  unfold queued
  rw [NameReader.mem_values]
  constructor
  · rintro ⟨node, hl, hi⟩
    obtain ⟨bytes, hp, hr, hv⟩ := itemEntry_eq_some.1 hi
    obtain ⟨-, rfl⟩ : (entryReader J).name e = e.id ∧ node = .file bytes := by simpa using hp
    exact ⟨hv, bytes, hl, hr⟩
  · rintro ⟨hv, bytes, hl, hr⟩
    exact ⟨_, hl, itemEntry_eq_some.2 ⟨bytes, rfl, hr, hv⟩⟩

/-- The usage the directory scan reports. -/
def usageOf (J : SerdeJson) (fs : QueueFs) : QueueUsage :=
  ⟨fileCount fs, usedBytes fs, reservedBytes J fs⟩

/-- Within the limits the scan returns the queue in posting order, and its usage. -/
theorem entriesWithUsage_eq (h : WithinLimits J fs) :
    entriesWithUsage J fs = .ok (sortEntries (queued J fs), usageOf J fs) := by
  have hscan : scanFrom fs.entries.entries [] 0 =
      .ok (regularFiles fs.entries.entries, usedBytes fs) := by
    have hc : (fileSizes fs.entries.entries).length ≤ maxQueueEntries := h.count
    have hb : (fileSizes fs.entries.entries).sum ≤ maxQueueBytes := h.bytes
    rw [scanFrom_ok (by simpa using hc) (by simpa using hb)]
    simp only [List.nil_append, Nat.zero_add]
    rfl
  have hlen := length_regularFiles fs.entries.entries
  have hgrowth : ∀ f ∈ regularFiles fs.entries.entries, ∀ e, f.entry J = some e →
      f.bytes.length + maximumMutationGrowth e ≤ maxEntryBytes := by
    intro f hf e he
    obtain ⟨⟨stem, node⟩, hm, hx⟩ := List.mem_filterMap.1 hf
    cases node with
    | other => cases hx
    | file bytes =>
      obtain rfl := Option.some.inj hx
      exact h.growth stem bytes e (AList.mem_lookup_iff.2 hm) he
  have hroom : 0 + 137 * (regularFiles fs.entries.entries).length ≤ maxU64 := by
    have hc := h.count
    have hm : 137 * maxQueueEntries ≤ maxU64 := by decide
    unfold fileCount at hc
    omega
  have hcollect := @collectFrom_ok J _ [] 0 hgrowth hroom
  unfold entriesWithUsage scanEntryFiles
  rw [hscan]
  simp only [hcollect, filterMap_regularFiles, List.nil_append, Nat.zero_add]
  rw [hlen]
  rfl

/-- A scan that succeeds has found the directory within its limits. -/
theorem withinLimits_of_ok {r : List StoredEntry × QueueUsage} (h : entriesWithUsage J fs = .ok r) :
    WithinLimits J fs := by
  unfold entriesWithUsage scanEntryFiles at h
  cases hs : scanFrom fs.entries.entries [] 0 with
  | error e => simp only [hs] at h; cases h
  | ok p =>
    obtain ⟨files, bytes⟩ := p
    obtain ⟨hc, hb⟩ := scanFrom_limits (Nat.zero_le _) (Nat.zero_le _) hs
    have hf := scanFrom_ok hc hb
    rw [hs] at hf
    obtain ⟨rfl, rfl⟩ : files = regularFiles fs.entries.entries ∧
        bytes = (fileSizes fs.entries.entries).sum := by simpa using hf
    simp only [hs] at h
    cases hk : collectFrom J (regularFiles fs.entries.entries) [] 0 with
    | error e => simp only [hk] at h; cases h
    | ok q =>
      rw [List.length_nil, Nat.zero_add] at hc
      rw [Nat.zero_add] at hb
      refine ⟨hc, hb, fun id b e hl he => ?_⟩
      refine collectFrom_growth hk ⟨id, b⟩ ?_ e he
      exact List.mem_filterMap.2 ⟨⟨id, .file b⟩, AList.mem_lookup_iff.1 hl, rfl⟩

/-- A scan that fails reports exhausted capacity. -/
theorem entriesWithUsage_error {e : StoreError} (h : entriesWithUsage J fs = .error e) :
    e.isCapacity = true := by
  unfold entriesWithUsage scanEntryFiles at h
  cases hs : scanFrom fs.entries.entries [] 0 with
  | error e' =>
    simp only [hs] at h
    obtain rfl := Except.error.inj h
    exact scanFrom_error hs
  | ok p =>
    simp only [hs] at h
    cases hk : collectFrom J p.1 [] 0 with
    | error e' =>
      simp only [hk] at h
      obtain rfl := Except.error.inj h
      exact collectFrom_error hk
    | ok q => simp only [hk] at h; cases h

theorem entries_eq (h : WithinLimits J fs) : entries J fs = .ok (sortEntries (queued J fs)) := by
  unfold entries
  rw [entriesWithUsage_eq h]
  rfl

/-! ## Lookup by identifier -/

theorem find_ok_iff {id : String} {e : StoredEntry} :
    find J fs id = .ok e ↔ e ∈ queued J fs ∧ e.id = id := by
  rw [mem_queued]
  unfold find readEntry
  constructor
  · intro h
    split at h
    · next hv =>
      split at h
      · cases h
      · cases h
      · next entry hr =>
        split at h
        · next hid =>
          obtain rfl := Except.ok.inj h
          subst hid
          split at hr
          · cases hr
          · cases hr
          · next bytes hl => exact ⟨⟨hv, bytes, hl, hr⟩, rfl⟩
        · cases h
    · cases h
  · rintro ⟨⟨hv, bytes, hl, hr⟩, rfl⟩
    simp [hv, hl, hr]

theorem find_of_mem {e : StoredEntry} (h : e ∈ queued J fs) : find J fs e.id = .ok e :=
  find_ok_iff.2 ⟨h, rfl⟩

theorem readEntryBytes_eq (bytes : Bytes) :
    readEntryBytes J bytes =
      if bytes.length > maxEntryBytes then .error (.entryTooLarge bytes.length maxEntryBytes)
      else
        match J.entry bytes with
        | none => .error .serde
        | some entry => .ok entry := by
  unfold readEntryBytes ensureEntrySize
  by_cases h : bytes.length > maxEntryBytes
  · rw [if_pos h]
    exact (if_pos h).symm
  · rw [if_neg h]
    exact (if_neg h).symm

/-- Why a file under a valid name is not the entry of that name. -/
inductive Unreadable (J : SerdeJson) (id : String) (bytes : Bytes) : StoreError → Prop
  | tooLarge (h : maxEntryBytes < bytes.length) :
      Unreadable J id bytes (.entryTooLarge bytes.length maxEntryBytes)
  | malformed (h : J.entry bytes = none) : Unreadable J id bytes .serde
  | misnamed {e : StoredEntry} (h : readEntryBytes J bytes = .ok e) (hid : e.id ≠ id) :
      Unreadable J id bytes (.invalidId e.id)

/-- The errors of a lookup, with what each says about the directory. -/
theorem find_error {id : String} {err : StoreError} (h : find J fs id = .error err) :
    (isValidId id = false ∧ err = .invalidId id) ∨
    (isValidId id = true ∧ fs.entries.lookup id = none ∧ err = .unknownId id) ∨
    (fs.entries.lookup id = some .other ∧ err = .io .invalidData) ∨
    ∃ bytes, fs.entries.lookup id = some (.file bytes) ∧ Unreadable J id bytes err := by
  unfold find readEntry at h
  by_cases hv : isValidId id = true
  · rw [if_pos hv] at h
    cases hl : fs.entries.lookup id with
    | none =>
      simp only [hl] at h
      obtain rfl := Except.error.inj h
      exact Or.inr (Or.inl ⟨hv, rfl, rfl⟩)
    | some node =>
      cases node with
      | other =>
        simp only [hl] at h
        obtain rfl := Except.error.inj h
        exact Or.inr (Or.inr (Or.inl ⟨rfl, rfl⟩))
      | file bytes =>
        refine Or.inr (Or.inr (Or.inr ⟨bytes, rfl, ?_⟩))
        simp only [hl] at h
        cases hr : readEntryBytes J bytes with
        | ok e =>
          simp only [hr] at h
          split at h
          · cases h
          · next hid =>
            obtain rfl := Except.error.inj h
            exact .misnamed hr hid
        | error e =>
          have hr' := hr
          rw [readEntryBytes_eq] at hr'
          split at hr'
          · next hlt =>
            obtain rfl := Except.error.inj hr'
            simp only [hr] at h
            obtain rfl := Except.error.inj h
            exact .tooLarge hlt
          · split at hr'
            · next hj =>
              obtain rfl := Except.error.inj hr'
              simp only [hr] at h
              obtain rfl := Except.error.inj h
              exact .malformed hj
            · cases hr'
  · rw [if_neg hv] at h
    obtain rfl := Except.error.inj h
    exact Or.inl ⟨by simpa using hv, rfl⟩

theorem find_unknownId_iff {id other : String} :
    find J fs id = .error (.unknownId other) ↔
      other = id ∧ isValidId id = true ∧ fs.entries.lookup id = none := by
  constructor
  · intro h
    rcases find_error h with ⟨-, he⟩ | ⟨hv, hl, he⟩ | ⟨-, he⟩ | ⟨bytes, -, hu⟩
    · cases he
    · exact ⟨by simpa using he, hv, hl⟩
    · cases he
    · cases hu
  · rintro ⟨rfl, hv, hl⟩
    unfold find readEntry
    simp only [hv, if_true, hl]

end Limits

end Comenq
