import Comenq.Verify.Ownership
import Comenq.Verify.Probing

/-!
# Repeated puts within one second

The identifier of an entry is a hash of its request and its second, and `resolve_entry_id` takes an
entry on the path of its identifiers for a repeat when the request is the same. It never compares
the seconds, and it stops at the first free identifier. So a request that meets itself at another
second is dropped, and a repeat of an entry that was stored under a salted identifier is added again
once the entry it had collided with is gone (`put_confuses_seconds`).

Collisions do no other harm. A put is de-duplicated exactly if probing reaches the entries of its
request that have its second and no others (`Clean.deduplicates_iff`). Every call keeps the entries
within reach of their own repeats (`Probed`), unless it removes one that another was stored behind.
-/

namespace Comenq

open JsonText Traced CrashTrace OpenAddressing

/-- `e` is the entry of a put of `request` at `now`. -/
def StoredEntry.Repeats (e : StoredEntry) (request : CommentRequest) (now : UInt64) : Prop :=
  e.request = request ∧ e.enqueuedAt = now

/-- A put of `request` at `now` in `fs` returns the entry already queued for it and changes
nothing, or, when there is none and capacity allows, adds exactly one. -/
structure Deduplicates (J : SerdeJson) (fs : QueueFs) (request : CommentRequest)
    (options : PutOptions) (now : UInt64) (incarnation : Uuid) : Prop where
  unchanged_iff : (∃ e eta, e ∈ queued J fs ∧
      putWithEta J request options now incarnation fs = ⟨.ok (e, eta), []⟩) ↔
    ∃ e ∈ queued J fs, e.Repeats request now
  returns : ∀ e ∈ queued J fs, e.Repeats request now →
    ∃ eta, putWithEta J request options now incarnation fs = ⟨.ok (e, eta), []⟩
  adds : (∀ e ∈ queued J fs, ¬ e.Repeats request now) →
    (∃ err : StoreError, err.isCapacity = true ∧
      putWithEta J request options now incarnation fs = ⟨.error err, []⟩) ∨
    ∃ e eta fs', (putWithEta J request options now incarnation fs).outcome = .ok (e, eta) ∧
      fs' = final (putWithEta J request options now incarnation) fs ∧
      (∀ x ∈ queued J fs, x.id ≠ e.id) ∧
      (∀ id, id ≠ e.id → fs'.entries.lookup id = fs.entries.lookup id) ∧
      (∀ x, x ∈ queued J fs' ↔ x = e ∨ x ∈ queued J fs) ∧
      ∀ x ∈ queued J fs', x.Repeats request now ↔ x = e

section Put

variable {J : SerdeJson} {fs : QueueFs} {request : CommentRequest} {now : UInt64}

/-! ## A put whose identifier is resolved -/

/-- The checks of a new entry fail for lack of capacity only. -/
theorem admitEntry_new_error {e : StoredEntry} {usage : QueueUsage} {err : StoreError}
    (hv : isValidId e.id = true) (hl : fs.entries.lookup e.id = none)
    (h : admitEntry J fs e usage = .error err) : err.isCapacity = true := by
  unfold admitEntry previousBytes previousHeadroom at h
  simp only [hv, hl, if_true, Option.isNone_none] at h
  split at h
  · obtain rfl := Except.error.inj h
    rfl
  · split at h
    · next hsize =>
      obtain rfl := Except.error.inj h
      unfold ensureEntrySize at hsize
      split at hsize
      · obtain rfl := Except.error.inj hsize
        rfl
      · cases hsize
    · exact (ensureQueueBytes_error h).1

/-- The reasons a put refuses its new entry for. -/
def Refused (J : SerdeJson) (fs : QueueFs) (e : StoredEntry) (err : StoreError) : Prop :=
  err = .queueFull maxQueueEntries ∨ admitEntry J fs e (usageOf J fs) = .error err

/-- Every identifier that is tried names an entry or nothing. -/
theorem Clean.resolveFrom_ne_error (h : Clean J fs) {attempts : Nat} {salt : Option UInt64}
    {err : StoreError} : resolveFrom J fs request now attempts salt ≠ some (.error err) := by
  induction attempts generalizing salt with
  | zero => intro hr; cases hr
  | succ attempts ih =>
    unfold resolveFrom
    rcases h.find_cases (isValidId_entryIdWithSalt request now salt) with ⟨e, -, -, hf⟩ | ⟨-, hf⟩
    · simp only [hf]
      split
      · intro hr; cases hr
      · exact ih
    · simp only [hf]
      intro hr; cases hr

theorem Clean.resolveEntryId_ne_error (h : Clean J fs) (err : StoreError) :
    resolveEntryId J fs request now ≠ some (.error err) := by
  unfold resolveEntryId
  exact h.resolveFrom_ne_error

theorem Clean.put_existing (h : Clean J fs) {id : String} {e : StoredEntry}
    (hr : resolveEntryId J fs request now = some (.ok (id, some e))) (options : PutOptions)
    (incarnation : Uuid) :
    ∃ eta, putWithEta J request options now incarnation fs = ⟨.ok (e, eta), []⟩ := by
  obtain ⟨previous, hp⟩ := h.previousActivity_ok
  refine
    ⟨etaOf (projectedSchedule options.cooldown now (sortEntries (queued J fs)) previous) e.id, ?_⟩
  unfold putWithEta
  rw [run_inspect, hr]
  exact run_bind (run_read_ok (entriesWithUsage_eq h.accounted.withinLimits))
    (run_bind (run_read_ok hp) (run_pure _))

theorem Clean.put_free (h : Clean J fs) {id : String}
    (hr : resolveEntryId J fs request now = some (.ok (id, none))) (options : PutOptions)
    (incarnation : Uuid) :
    (∃ err : StoreError, err.isCapacity = true ∧
      Refused J fs (newEntry request options now incarnation id (sortEntries (queued J fs))) err ∧
      putWithEta J request options now incarnation fs = ⟨.error err, []⟩) ∨
    ∃ e eta, e.id = id ∧ e.Repeats request now ∧ Enrolls J fs e ∧
      putWithEta J request options now incarnation fs =
        ⟨.ok (e, eta), [.writeAtomic (.entry e.id) e.toVecPretty]⟩ := by
  obtain ⟨hv, other, hfind⟩ := resolveEntryId_ok hr
  obtain ⟨-, -, hfree⟩ := find_unknownId_iff.1 hfind
  obtain ⟨previous, hp⟩ := h.previousActivity_ok
  have hw := h.accounted.withinLimits
  unfold putWithEta
  rw [run_inspect, hr]
  simp only
  rw [run_bind_ok (run_read_ok (entriesWithUsage_eq hw)), Ran.after_nil, run_nil]
  simp only
  rw [run_bind_ok (run_read_ok hp), Ran.after_nil, run_nil]
  by_cases hfull : (sortEntries (queued J fs)).length ≥ maxQueueEntries
  · rw [if_pos hfull]
    exact Or.inl ⟨_, rfl, Or.inl rfl, rfl⟩
  · rw [if_neg hfull]
    set new := newEntry request options now incarnation id (sortEntries (queued J fs)) with hnew
    cases hadmit : admitEntry J fs new (usageOf J fs) with
    | error err =>
      have hread : (Traced.read fun fs' => admitEntry J fs' new (usageOf J fs) : Store Unit) fs =
          ⟨.error err, []⟩ := run_read_error hadmit
      have hwrite : writeEntryWithUsage J new (usageOf J fs) fs = ⟨.error err, []⟩ :=
        run_bind_error hread
      exact Or.inl ⟨err, @admitEntry_new_error J fs new _ err hv hfree hadmit, Or.inr hadmit,
        run_bind_error hwrite⟩
    | ok u =>
      have hread : (Traced.read fun fs' => admitEntry J fs' new (usageOf J fs) : Store Unit) fs =
          ⟨.ok (), []⟩ := run_read_ok hadmit
      obtain ⟨hcount, hsize, hbudget⟩ := (admitEntry_new_iff (e := new) hv hfree).1 hadmit
      have hwrite : writeEntryWithUsage J new (usageOf J fs) fs =
          ⟨.ok (), [.writeAtomic (.entry new.id) new.toVecPretty]⟩ := run_bind hread (run_emit _)
      exact Or.inr ⟨new, _, rfl, ⟨rfl, rfl⟩, ⟨hv, hfree, hw, hcount, hsize, hbudget⟩,
        run_bind hwrite rfl⟩

/-! ## One put -/

/-- Probing for `request` at `now` comes to `e`. -/
def Reached (J : SerdeJson) (fs : QueueFs) (request : CommentRequest) (now : UInt64)
    (e : StoredEntry) : Prop :=
  Reaches (held J fs) (fun x => x.request = request) (probe request now) e

/-- The identifiers before the `i`-th are taken by other requests. -/
abbrev Taken (J : SerdeJson) (fs : QueueFs) (request : CommentRequest) (now : UInt64)
    (i : ℕ) : Prop :=
  OpenAddressing.Passes (held J fs) (fun x => x.request = request) (probe request now) i

theorem Reached.mem {e : StoredEntry} (h : Reached J fs request now e) : e ∈ queued J fs := by
  obtain ⟨i, -, hslot⟩ := h
  exact (held_eq_some_iff.1 hslot).1

/-- Where probing ends in a directory of the store. -/
theorem Clean.resolves (h : Clean J fs) (request : CommentRequest) (now : UInt64) :
    ∃ i existing, Taken J fs request now i ∧ held J fs (probe request now i) = existing ∧
      (∀ e ∈ existing, e.request = request) ∧
      resolveEntryId J fs request now = some (.ok (probe request now i, existing)) := by
  have hends : resolveEntryId J fs request now ≠ none :=
    resolveEntryId_ne_none h.accounted.withinLimits.count
  obtain ⟨r, hr⟩ := Option.ne_none_iff_exists'.1 hends
  cases r with
  | error err => exact absurd hr (h.resolveEntryId_ne_error err)
  | ok found =>
    obtain ⟨id, existing⟩ := found
    obtain ⟨i, hi, rfl, hheld, hreq⟩ := resolveFrom_path (k := 0) hr passes_zero
    exact ⟨i, existing, hi, hheld, hreq, hr⟩

/-- What a put does: it returns the entry at which probing ends, or stores its own there. -/
theorem Clean.put_probes (h : Clean J fs) (request : CommentRequest) (now : UInt64)
    (options : PutOptions) (incarnation : Uuid) :
    (∃ e eta, e.request = request ∧ Reached J fs request now e ∧
      putWithEta J request options now incarnation fs = ⟨.ok (e, eta), []⟩) ∨
    ∃ i, Taken J fs request now i ∧ held J fs (probe request now i) = none ∧
      ((∃ err : StoreError, err.isCapacity = true ∧
        putWithEta J request options now incarnation fs = ⟨.error err, []⟩) ∨
      ∃ e eta, e.id = probe request now i ∧ e.Repeats request now ∧ Enrolls J fs e ∧
        putWithEta J request options now incarnation fs =
          ⟨.ok (e, eta), [.writeAtomic (.entry e.id) e.toVecPretty]⟩) := by
  obtain ⟨i, existing, hi, hheld, hreq, hresolved⟩ := h.resolves request now
  cases existing with
  | some e =>
    obtain ⟨eta, hput⟩ := h.put_existing hresolved options incarnation
    exact Or.inl ⟨e, eta, hreq e rfl, ⟨i, hi, hheld⟩, hput⟩
  | none =>
    refine Or.inr ⟨i, hi, hheld, (h.put_free hresolved options incarnation).imp_left ?_⟩
    rintro ⟨err, hcapacity, -, hput⟩
    exact ⟨err, hcapacity, hput⟩

/-- A put that returns the only repeat. -/
theorem deduplicates_of_existing {options : PutOptions} {incarnation : Uuid} {e : StoredEntry}
    {eta : UInt64} (he : e ∈ queued J fs) (hr : e.Repeats request now)
    (honly : ∀ x ∈ queued J fs, x.Repeats request now → x = e)
    (hput : putWithEta J request options now incarnation fs = ⟨.ok (e, eta), []⟩) :
    Deduplicates J fs request options now incarnation := by
  refine ⟨⟨fun _ => ⟨e, he, hr⟩, fun _ => ⟨e, eta, he, hput⟩⟩, ?_,
    fun hnone => absurd hr (hnone e he)⟩
  intro x hx hrx
  rw [honly x hx hrx]
  exact ⟨eta, hput⟩

/-- A put that finds no repeat and stores its entry under a free identifier. -/
theorem deduplicates_of_free {options : PutOptions} {incarnation : Uuid} {id : String}
    (hnone : ∀ e ∈ queued J fs, ¬ e.Repeats request now) (hfree : ∀ e ∈ queued J fs, e.id ≠ id)
    (hput : (∃ err : StoreError, err.isCapacity = true ∧
        putWithEta J request options now incarnation fs = ⟨.error err, []⟩) ∨
      ∃ e eta, e.id = id ∧ e.Repeats request now ∧ Enrolls J fs e ∧
        putWithEta J request options now incarnation fs =
          ⟨.ok (e, eta), [.writeAtomic (.entry e.id) e.toVecPretty]⟩) :
    Deduplicates J fs request options now incarnation := by
  refine ⟨⟨?_, ?_⟩, fun e he hr => absurd hr (hnone e he), fun _ => hput.imp_right ?_⟩
  · rintro ⟨e, eta, he, hrun⟩
    rcases hput with ⟨err, -, hput⟩ | ⟨x, eta', -, -, -, hput⟩
    · rw [hput] at hrun
      cases hrun
    · rw [hput] at hrun
      cases hrun
  · rintro ⟨e, he, hr⟩
    exact absurd hr (hnone e he)
  · rintro ⟨e, eta, rfl, hr, hen, hput⟩
    have hsize : e.toVecPretty.length ≤ maxEntryBytes := by
      have := hen.size
      omega
    have hfinal : final (putWithEta J request options now incarnation) fs =
        fs.write e.toVecPretty (.entry e.id) := by
      unfold final
      rw [hput]
      rfl
    have hmem : ∀ x, x ∈ queued J (fs.write e.toVecPretty (.entry e.id)) ↔
        x = e ∨ x ∈ queued J fs := by
      intro x
      rw [mem_queued_write hen.valid hsize]
      exact or_congr_right (and_iff_left_of_imp (hfree x))
    refine ⟨e, eta, _, by rw [hput], hfinal.symm, hfree, ?_, hmem, ?_⟩
    · intro id hne
      exact AList.lookup_insert_ne hne
    · intro x hx
      constructor
      · intro hrx
        rcases (hmem x).1 hx with rfl | hx
        · rfl
        · exact absurd hrx (hnone x hx)
      · rintro rfl
        exact hr

/-- A put is de-duplicated exactly if, of the entries with its request, probing reaches those of its
second and no others. -/
theorem Clean.deduplicates_iff (h : Clean J fs) (request : CommentRequest) (now : UInt64)
    (options : PutOptions) (incarnation : Uuid) :
    Deduplicates J fs request options now incarnation ↔
      ∀ e ∈ queued J fs, e.request = request →
      (Reached J fs request now e ↔ e.enqueuedAt = now) := by
  have hput := h.put_probes request now options incarnation
  constructor
  · intro hd e he hreq
    rcases hput with ⟨x, eta, hxreq, hx, hput⟩ | ⟨i, hi, hheld, hput⟩
    · -- the put returns `x`, so `x` is a repeat, and the only one
      obtain ⟨y, hy, hyr⟩ := hd.unchanged_iff.1 ⟨x, eta, hx.mem, hput⟩
      have honly : ∀ z ∈ queued J fs, z.Repeats request now → z = x := by
        intro z hz hzr
        obtain ⟨eta', hput'⟩ := hd.returns z hz hzr
        rw [hput] at hput'
        exact (Prod.mk.inj (Outcome.ok.inj (Ran.mk.inj hput').1)).1.symm
      obtain rfl := honly y hy hyr
      constructor
      · intro hreached
        rw [hreached.unique hreq hx hxreq]
        exact hyr.2
      · intro htime
        rw [honly e he ⟨hreq, htime⟩]
        exact hx
    · -- the put returns no queued entry, so there is no repeat
      have hnone : ¬ ∃ e ∈ queued J fs, e.Repeats request now := by
        rw [← hd.unchanged_iff]
        rintro ⟨x, eta, hx, hrun⟩
        rcases hput with ⟨err, -, hput⟩ | ⟨y, eta', -, -, -, hput⟩
        · rw [hput] at hrun
          cases hrun
        · rw [hput] at hrun
          cases hrun
      refine iff_of_false (fun hreached => ?_) fun htime => hnone ⟨e, he, hreq, htime⟩
      exact Reaches.ne_none hreached hreq hi hheld
  · intro hexact
    rcases hput with ⟨e, eta, hreq, he, hput⟩ | ⟨i, hi, hheld, hput⟩
    · refine deduplicates_of_existing he.mem ⟨hreq, (hexact e he.mem hreq).1 he⟩ ?_ hput
      rintro x hx ⟨hxreq, hxtime⟩
      exact Reaches.unique ((hexact x hx hxreq).2 hxtime) hxreq he hreq
    · refine deduplicates_of_free ?_ ?_ hput
      · rintro e he ⟨hreq, htime⟩
        exact Reaches.ne_none ((hexact e he hreq).2 htime) hreq hi hheld
      · intro e he hid
        rw [← hid, held_eq_some_iff.2 ⟨he, rfl⟩] at hheld
        cases hheld

/-! ## Runs -/

/-- Every entry is within reach of its own repeats. -/
def Probed (J : SerdeJson) (fs : QueueFs) : Prop :=
  ∀ e ∈ queued J fs, Reached J fs e.request e.enqueuedAt e

/-- The identifier is tried before the one the entry is stored under. -/
def StoredEntry.Behind (e : StoredEntry) (id : String) : Prop :=
  ∃ i, probe e.request e.enqueuedAt i = id ∧ ∀ j ≤ i, probe e.request e.enqueuedAt j ≠ e.id

/-- From `fs` to `fs'` an entry is gone that a queued one was stored behind. -/
def Strands (J : SerdeJson) (fs fs' : QueueFs) : Prop :=
  ∃ gone ∈ queued J fs, (∀ x ∈ queued J fs', x.id ≠ gone.id) ∧
    ∃ e ∈ queued J fs', e.Behind gone.id

/-- The directories that calls leave behind, finished or cut off, none of which removes an entry
that a queued one was stored behind. -/
inductive Unstranded (J : SerdeJson) : QueueFs → Prop
  | empty : Unstranded J QueueFs.empty
  | step {fs fs' : QueueFs} {op : Op} : Unstranded J fs → op.Sound → op.Leaves J fs fs' →
      ¬ Strands J fs fs' → Unstranded J fs'
  | history {fs : QueueFs} (log : Option Bytes) : Unstranded J fs →
      Unstranded J { fs with history := log }

theorem Unstranded.reachable (h : Unstranded J fs) : Reachable J fs := by
  induction h with
  | empty => exact .empty
  | step _ hs hl _ ih => exact ih.step hs hl
  | history log _ ih => exact ih.history log

/-- An entry out of reach of its repeats. -/
theorem Clean.not_deduplicates (h : Clean J fs) {e : StoredEntry} (he : e ∈ queued J fs)
    (hn : ¬ Reached J fs e.request e.enqueuedAt e) (options : PutOptions) (incarnation : Uuid) :
    ¬ Deduplicates J fs e.request options e.enqueuedAt incarnation := by
  rw [h.deduplicates_iff]
  intro hexact
  exact hn ((hexact e he rfl).2 rfl)

/-- A stranded entry is out of reach. -/
theorem Strands.not_reached {fs' : QueueFs} (h : Strands J fs fs') :
    ∃ e ∈ queued J fs', ¬ Reached J fs' e.request e.enqueuedAt e := by
  obtain ⟨gone, -, hgone, e, he, i, hi, hbefore⟩ := h
  refine ⟨e, he, ?_⟩
  rintro ⟨k, hk, hslot⟩
  have hlt : i < k := by
    by_contra hle
    exact hbefore k (Nat.le_of_not_lt hle) (held_eq_some_iff.1 hslot).2.symm
  obtain ⟨x, hx, -⟩ := hk i hlt
  obtain ⟨hmem, hid⟩ := held_eq_some_iff.1 hx
  exact hgone x hmem (hid.trans hi)

/-- What a put leaves behind: nothing new, or its entry where probing ended. -/
theorem Clean.put_leaves (h : Clean J fs) {options : PutOptions} {incarnation : Uuid}
    {fs' : QueueFs} (hl : (Op.put request options now incarnation).Leaves J fs fs') :
    fs' = fs ∨ ∃ i e, Taken J fs request now i ∧ e.id = probe request now i ∧
      e.Repeats request now ∧ Enrolls J fs e ∧ fs' = fs.write e.toVecPretty (.entry e.id) := by
  obtain ⟨p, hp, rfl⟩ := hl
  rw [Op.exec, trace_map] at hp
  have hnothing : ∀ outcome, putWithEta J request options now incarnation fs = ⟨outcome, []⟩ →
      CrashTrace.run QueueFs.step fs p = fs := by
    intro outcome hput
    rw [hput] at hp
    cases hp
    rfl
  rcases h.put_probes request now options incarnation with ⟨e, eta, -, -, hput⟩ |
    ⟨i, hi, -, ⟨err, -, hput⟩ | ⟨e, eta, hid, hr, hen, hput⟩⟩
  · exact Or.inl (hnothing _ hput)
  · exact Or.inl (hnothing _ hput)
  · rw [hput] at hp
    cases hp with
    | torn ht => cases ht
    | stop => exact Or.inl rfl
    | step _ hq =>
      cases hq
      exact Or.inr ⟨i, e, hi, hid, hr, hen, rfl⟩

/-- A new entry takes a free identifier, so every other one keeps its own. -/
theorem Enrolls.held_write {e x : StoredEntry} {id : String} (hen : Enrolls J fs e)
    (hx : held J fs id = some x) : held J (fs.write e.toVecPretty (.entry e.id)) id = some x := by
  have hsize : e.toVecPretty.length ≤ maxEntryBytes := by
    have := hen.size
    omega
  obtain ⟨hmem, rfl⟩ := held_eq_some_iff.1 hx
  obtain ⟨-, bytes, hfile, -⟩ := mem_queued.1 hmem
  have hne : x.id ≠ e.id := by
    intro heq
    rw [heq, hen.free] at hfile
    cases hfile
  exact held_eq_some_iff.2 ⟨(mem_queued_write hen.valid hsize).2 (Or.inr ⟨hmem, hne⟩), rfl⟩

theorem Probed.write {e : StoredEntry} {i : ℕ} (h : Probed J fs)
    (hi : Taken J fs e.request e.enqueuedAt i) (hid : e.id = probe e.request e.enqueuedAt i)
    (hen : Enrolls J fs e) : Probed J (fs.write e.toVecPretty (.entry e.id)) := by
  have hsize : e.toVecPretty.length ≤ maxEntryBytes := by
    have := hen.size
    omega
  have hkeep : ∀ {request now k}, Taken J fs request now k →
      Taken J (fs.write e.toVecPretty (.entry e.id)) request now k := fun hk =>
    hk.mono fun j _ a ha hn => ⟨a, hen.held_write ha, hn⟩
  intro x hx
  rcases (mem_queued_write hen.valid hsize).1 hx with rfl | ⟨hold, -⟩
  · exact ⟨i, hkeep hi, held_eq_some_iff.2 ⟨hx, hid⟩⟩
  · obtain ⟨k, hk, hslot⟩ := h x hold
    exact ⟨k, hkeep hk, hen.held_write hslot⟩

/-- Other calls than a put only rewrite or remove entries. -/
theorem Clean.descends (h : Clean J fs) {op : Op} {fs' : QueueFs} (hs : op.Sound)
    (hop : ∀ request options now incarnation, op ≠ .put request options now incarnation)
    (hl : op.Leaves J fs fs') : ∀ x ∈ queued J fs', ∃ e ∈ queued J fs,
      e.id = x.id ∧ e.request = x.request ∧ e.enqueuedAt = x.enqueuedAt := by
  refine Op.leaves_invariant h hs hl
    (I := fun g => ∀ x ∈ queued J g, ∃ e ∈ queued J fs,
      e.id = x.id ∧ e.request = x.request ∧ e.enqueuedAt = x.enqueuedAt)
    (fun x hx => ⟨x, hx, rfl, rfl, rfl⟩) ?_ fun g bytes hi => hi
  intro g k ev _ hi hk hch x hx
  rcases hch.mem_queued hx with hx | ⟨rfl, -⟩ | ⟨y, hy, hup, -⟩
  · exact hi x hx
  · cases op with
    | put request options now incarnation => exact absurd rfl (hop _ _ _ _)
    | _ => simp [Op.Kinds, finishing] at hk
  · obtain ⟨e, he, hid, hreq, htime⟩ := hi y hy
    have hcore := hup.core
    exact ⟨e, he, hid.trans hup.id_eq.symm, hreq.trans (congrArg StoredEntry.request hcore).symm,
      htime.trans (congrArg StoredEntry.enqueuedAt hcore).symm⟩

/-- A call that strands no entry keeps all within reach. -/
theorem Probed.descends {fs' : QueueFs} (h : Probed J fs)
    (hdesc : ∀ x ∈ queued J fs', ∃ e ∈ queued J fs,
      e.id = x.id ∧ e.request = x.request ∧ e.enqueuedAt = x.enqueuedAt)
    (hn : ¬ Strands J fs fs') : Probed J fs' := by
  intro x hx
  obtain ⟨e, he, hid, hreq, htime⟩ := hdesc x hx
  obtain ⟨k, hk, hslot⟩ := h e he
  rw [hreq, htime] at hk hslot
  -- no identifier before the last names `x`, since other requests hold them
  have hothers : ∀ j < k, probe x.request x.enqueuedAt j ≠ x.id := by
    intro j hj heq
    obtain ⟨a, ha, hother⟩ := hk j hj
    obtain ⟨hmem, haid⟩ := held_eq_some_iff.1 ha
    apply hother
    rw [eq_of_mem_queued hmem he (haid.trans (heq.trans hid.symm)), hreq]
  refine ⟨k, hk.mono fun j hj a ha hother => ?_, ?_⟩
  · obtain ⟨hmem, haid⟩ := held_eq_some_iff.1 ha
    by_cases hkept : ∃ y ∈ queued J fs', y.id = a.id
    · obtain ⟨y, hy, hya⟩ := hkept
      obtain ⟨a', ha', hid', hreq', -⟩ := hdesc y hy
      obtain rfl := eq_of_mem_queued ha' hmem (hid'.trans hya)
      exact ⟨y, held_eq_some_iff.2 ⟨hy, hya.trans haid⟩, fun hy' => hother (hreq'.trans hy')⟩
    · refine absurd ⟨a, hmem, fun y hy hya => hkept ⟨y, hy, hya⟩, x, hx, j, haid.symm, ?_⟩ hn
      exact fun j' hj' => hothers j' (Nat.lt_of_le_of_lt hj' hj)
  · exact held_eq_some_iff.2 ⟨hx, hid ▸ (held_eq_some_iff.1 hslot).2⟩

theorem Unstranded.probed (h : Unstranded J fs) : Probed J fs := by
  induction h with
  | empty => intro e he; cases he
  | @step fs fs' op hrun hs hl hn ih =>
    have hclean := hrun.reachable.clean
    by_cases hop : ∃ request options now incarnation, op = .put request options now incarnation
    · obtain ⟨request, options, now, incarnation, rfl⟩ := hop
      rcases hclean.put_leaves hl with rfl | ⟨i, e, hi, hid, ⟨rfl, rfl⟩, hen, rfl⟩
      · exact ih
      · exact ih.write hi hid hen
    · push Not at hop
      exact ih.descends (hclean.descends hs hop hl) hn
  | history log _ ih => exact ih

end Put

/-- In every run in which no entry is removed that a queued one was stored behind, whatever the
collisions: a put is de-duplicated exactly unless probing reaches an entry with its request and
another second. A call that removes such an entry leaves one whose repeat is not de-duplicated. -/
theorem put_deduplicates {J : SerdeJson} {fs : QueueFs} (h : Unstranded J fs) :
    (∀ request now options incarnation, Deduplicates J fs request options now incarnation ↔
      ∀ e ∈ queued J fs, e.request = request → Reached J fs request now e → e.enqueuedAt = now) ∧
    ∀ (op : Op) (fs' : QueueFs), op.Sound → op.Leaves J fs fs' → Strands J fs fs' →
      ∃ e ∈ queued J fs', ∀ options incarnation,
        ¬ Deduplicates J fs' e.request options e.enqueuedAt incarnation := by
  constructor
  · intro request now options incarnation
    rw [h.reachable.clean.deduplicates_iff]
    constructor
    · intro hexact e he hreq
      exact (hexact e he hreq).1
    · rintro hsecond e he rfl
      refine ⟨hsecond e he rfl, ?_⟩
      rintro rfl
      exact h.probed e he
  · intro op fs' hs hl hstrands
    obtain ⟨e, he, hn⟩ := hstrands.not_reached
    exact ⟨e, he, (h.reachable.step hs hl).clean.not_deduplicates he hn⟩

/-! ## Samples -/

section Puts

variable {J : SerdeJson} {fs fs' : QueueFs}

/-- A put removes nothing. -/
theorem Clean.not_strands_put (h : Clean J fs) {request : CommentRequest} {options : PutOptions}
    {now : UInt64} {incarnation : Uuid}
    (hl : (Op.put request options now incarnation).Leaves J fs fs') : ¬ Strands J fs fs' := by
  rintro ⟨gone, hmem, hgone, -⟩
  rcases h.put_leaves hl with rfl | ⟨i, e, -, -, -, hen, rfl⟩
  · exact hgone gone hmem rfl
  · have hkept := hen.held_write (held_eq_some_iff.2 ⟨hmem, rfl⟩)
    exact hgone gone (held_eq_some_iff.1 hkept).1 rfl

def Op.isPut : Op → Bool
  | .put .. => true
  | _ => false

theorem unstranded_afterPuts {ops : List Op} (h : ∀ op ∈ ops, op.isPut = true) :
    Unstranded J (afterCalls J ops) := by
  induction ops using List.reverseRecOn with
  | nil => exact .empty
  | append_singleton ops op ih =>
    have hop := h op (List.mem_append_right _ (List.mem_singleton_self op))
    have hrun := ih fun x hx => h x (List.mem_append_left _ hx)
    rw [afterCalls_concat]
    cases op with
    | put request options now incarnation =>
      have hs : (Op.put request options now incarnation).Sound := trivial
      have hl := Op.leaves_final J (.put request options now incarnation) (afterCalls J ops)
      exact hrun.step hs hl (hrun.reachable.clean.not_strands_put hl)
    | _ => cases hop

end Puts

/-- What a put leaves of an entry for good. -/
def StoredEntry.origin (e : StoredEntry) : String × CommentRequest × UInt64 :=
  (e.id, e.request, e.enqueuedAt)

/-- Three puts, of which the second finds its unsalted identifier taken. -/
def sampleThreePuts : QueueFs :=
  afterCalls serdeJson [.put (sampleBody "11723") ⟨900, 0, true⟩ 1000 (sampleUuid 1),
    .put (sampleBody "90017") ⟨900, 0, true⟩ 1000 (sampleUuid 2),
    .put sampleRequest ⟨900, 0, true⟩ 1000 (sampleUuid 3)]

/-- The entry of the third is deleted; none was stored behind it. -/
def sampleCollided : QueueFs := final ((Op.del "4e881b86").exec serdeJson) sampleThreePuts

theorem sampleCollided_eq :
    (∀ e ∈ queued serdeJson sampleThreePuts, e.id ≠ "4e881b86" →
      ∃ x ∈ queued serdeJson sampleCollided, x.id = e.id) ∧
    (queued serdeJson sampleCollided).map StoredEntry.origin =
      [("62fae500", sampleBody "90017", 1000), ("e51e3667", sampleBody "11723", 1000)] ∧
    probe (sampleBody "11723") 1000 0 = "e51e3667" ∧
    probe (sampleBody "90017") 1000 0 = "e51e3667" ∧
    probe (sampleBody "90017") 1000 1 = "62fae500" := by decide +kernel

theorem mem_sampleCollided {e : StoredEntry} (h : e ∈ queued serdeJson sampleCollided) :
    e.enqueuedAt = 1000 ∧ (e.id = "62fae500" ∧ e.request = sampleBody "90017" ∨
      e.id = "e51e3667" ∧ e.request = sampleBody "11723") := by
  have hmem := List.mem_map_of_mem (f := StoredEntry.origin) h
  rw [sampleCollided_eq.2.1] at hmem
  simp only [StoredEntry.origin, List.mem_cons, Prod.mk.injEq, List.not_mem_nil, or_false] at hmem
  rcases hmem with ⟨hid, hreq, htime⟩ | ⟨hid, hreq, htime⟩
  · exact ⟨htime, Or.inl ⟨hid, hreq⟩⟩
  · exact ⟨htime, Or.inr ⟨hid, hreq⟩⟩

theorem unstranded_sampleCollided : Unstranded serdeJson sampleCollided := by
  have hputs : Unstranded serdeJson sampleThreePuts := unstranded_afterPuts (by simp [Op.isPut])
  obtain ⟨hkept, -, hfirst, hother, hsalted⟩ := sampleCollided_eq
  have hs : (Op.del "4e881b86").Sound := trivial
  refine hputs.step hs (Op.leaves_final ..) ?_
  rintro ⟨gone, hmem, hgone, e, he, i, hi, hbefore⟩
  have hid : gone.id = "4e881b86" := by
    by_contra hne
    obtain ⟨x, hx, hid⟩ := hkept gone hmem hne
    exact hgone x hx hid
  obtain ⟨htime, ⟨heid, hreq⟩ | ⟨heid, hreq⟩⟩ := mem_sampleCollided he
  · -- only the unsalted identifier is tried before
    rw [htime, hreq] at hi hbefore
    rw [heid] at hbefore
    rcases Nat.eq_zero_or_pos i with rfl | hpos
    · rw [hi, hid] at hother
      exact absurd hother (by decide)
    · exact hbefore 1 hpos hsalted
  · rw [htime, hreq, heid] at hbefore
    exact hbefore 0 (Nat.zero_le i) hfirst

/-- The put with the salted identifier is repeated in its second. -/
theorem put_deduplicates_repeat :
    (∃ e ∈ queued serdeJson sampleCollided, e.id = "62fae500" ∧
      e.Repeats (sampleBody "90017") 1000) ∧
    entryIdWithSalt (sampleBody "90017") 1000 none = "e51e3667" ∧
    Deduplicates serdeJson sampleCollided (sampleBody "90017") ⟨900, 0, true⟩ 1000
      (sampleUuid 4) := by
  refine ⟨?_, sampleCollided_eq.2.2.2.1,
    ((put_deduplicates unstranded_sampleCollided).1 _ _ _ _).2 fun e he _ _ =>
    (mem_sampleCollided he).1⟩
  obtain ⟨e, he, horigin⟩ := List.mem_map.1
    (sampleCollided_eq.2.1 ▸ List.mem_cons_self : ("62fae500", sampleBody "90017", 1000) ∈
      (queued serdeJson sampleCollided).map StoredEntry.origin)
  obtain ⟨hid, hreq, htime⟩ := by simpa only [StoredEntry.origin, Prod.mk.injEq] using horigin
  exact ⟨e, he, hid, hreq, htime⟩

/-- A queue after one put of `sampleRequest`. -/
def sampleFirstPut : QueueFs :=
  afterCalls serdeJson [.put sampleRequest ⟨900, 0, true⟩ 1700759343 (sampleUuid 1)]

/-- Two puts collide at second 1000: the later one gets a salted identifier, and the earlier entry
is deleted. -/
def sampleOrphaned : QueueFs :=
  afterCalls serdeJson [.put (sampleBody "11723") ⟨900, 0, true⟩ 1000 (sampleUuid 1),
    .put (sampleBody "90017") ⟨900, 0, true⟩ 1000 (sampleUuid 2), .del "e51e3667"]

theorem sampleConfused_eq :
    (queued serdeJson sampleFirstPut).map StoredEntry.origin =
      [("bec3aa28", sampleRequest, 1700759343)] ∧
    probe sampleRequest 1704460981 0 = "bec3aa28" ∧
    (queued serdeJson sampleOrphaned).map StoredEntry.origin =
      [("62fae500", sampleBody "90017", 1000)] := by decide +kernel

theorem exists_of_origin {fs : QueueFs} {id : String} {request : CommentRequest} {now : UInt64}
    (h : (queued serdeJson fs).map StoredEntry.origin = [(id, request, now)]) :
    ∃ e, queued serdeJson fs = [e] ∧ e.id = id ∧ e.Repeats request now := by
  obtain ⟨e, he, horigin⟩ := List.map_eq_singleton_iff.1 h
  obtain ⟨hid, hreq, htime⟩ := by simpa only [StoredEntry.origin, Prod.mk.injEq] using horigin
  exact ⟨e, he, hid, hreq, htime⟩

/-- The unsalted identifier is free again, so probing ends there. -/
theorem not_reached_sampleOrphaned {e : StoredEntry} :
    ¬ Reached serdeJson sampleOrphaned (sampleBody "90017") 1000 e := by
  obtain ⟨-, -, -, hfree, -⟩ := sampleCollided_eq
  obtain ⟨-, -, hkeys⟩ := sampleConfused_eq
  obtain ⟨last, hqueued, hid, -⟩ := exists_of_origin hkeys
  have hempty : ∀ x,
      held serdeJson sampleOrphaned (probe (sampleBody "90017") 1000 0) ≠ some x := by
    intro x hx
    obtain ⟨hmem, hxid⟩ := held_eq_some_iff.1 hx
    rw [hqueued, List.mem_singleton] at hmem
    rw [hmem, hid, hfree] at hxid
    exact absurd hxid (by decide)
  rintro ⟨k, hk, hslot⟩
  rcases Nat.eq_zero_or_pos k with rfl | hpos
  · exact hempty e hslot
  · obtain ⟨x, hx, -⟩ := hk 0 hpos
    exact hempty x hx

/-- A put 43 days later is taken for a repeat, and a repeat in the same second is stored twice. -/
theorem put_confuses_seconds :
    (Reachable serdeJson sampleFirstPut ∧
      (∃ e eta, e ∈ queued serdeJson sampleFirstPut ∧ e.enqueuedAt = 1700759343 ∧
        putWithEta serdeJson sampleRequest ⟨900, 0, true⟩ 1704460981 (sampleUuid 2) sampleFirstPut =
          ⟨.ok (e, eta), []⟩) ∧
      ¬ Deduplicates serdeJson sampleFirstPut sampleRequest ⟨900, 0, true⟩ 1704460981
        (sampleUuid 2)) ∧
    Reachable serdeJson sampleOrphaned ∧
      (∀ e eta, putWithEta serdeJson (sampleBody "90017") ⟨900, 0, true⟩ 1000 (sampleUuid 3)
        sampleOrphaned ≠ ⟨.ok (e, eta), []⟩) ∧
      ¬ Deduplicates serdeJson sampleOrphaned (sampleBody "90017") ⟨900, 0, true⟩ 1000
        (sampleUuid 3) := by
  have hfirst : Reachable serdeJson sampleFirstPut := reachable_afterCalls (by simp [Op.Sound])
  have horphan : Reachable serdeJson sampleOrphaned := reachable_afterCalls (by simp [Op.Sound])
  obtain ⟨hfirstKeys, hsame, horphanKeys⟩ := sampleConfused_eq
  refine ⟨⟨hfirst, ?_⟩, horphan, ?_⟩
  · obtain ⟨e, hqueued, hid, hreq, htime⟩ := exists_of_origin hfirstKeys
    have he : e ∈ queued serdeJson sampleFirstPut := hqueued ▸ List.mem_singleton_self e
    have hreached : Reached serdeJson sampleFirstPut sampleRequest 1704460981 e :=
      ⟨0, passes_zero, held_eq_some_iff.2 ⟨he, hid.trans hsame.symm⟩⟩
    constructor
    · rcases hfirst.clean.put_probes sampleRequest 1704460981 ⟨900, 0, true⟩ (sampleUuid 2) with
        ⟨x, eta, hxreq, hx, hput⟩ | ⟨i, hi, hfree, -⟩
      · exact ⟨e, eta, he, htime, hreached.unique hreq hx hxreq ▸ hput⟩
      · exact absurd hfree (hreached.ne_none hreq hi)
    · rw [hfirst.clean.deduplicates_iff]
      intro hexact
      have hother := (hexact e he hreq).1 hreached
      rw [htime] at hother
      exact absurd hother (by decide)
  · obtain ⟨e, hqueued, hid, hreq, htime⟩ := exists_of_origin horphanKeys
    have he : e ∈ queued serdeJson sampleOrphaned := hqueued ▸ List.mem_singleton_self e
    constructor
    · intro x eta hput
      rcases horphan.clean.put_probes (sampleBody "90017") 1000 ⟨900, 0, true⟩ (sampleUuid 3) with
        ⟨y, eta', -, hy, -⟩ | ⟨i, -, -, ⟨err, -, hrun⟩ | ⟨y, eta', -, -, -, hrun⟩⟩
      · exact not_reached_sampleOrphaned hy
      · rw [hrun] at hput
        cases hput
      · rw [hrun] at hput
        cases hput
    · have hn : ¬ Reached serdeJson sampleOrphaned e.request e.enqueuedAt e := by
        rw [hreq, htime]
        exact not_reached_sampleOrphaned
      have hnot := horphan.clean.not_deduplicates he hn ⟨900, 0, true⟩ (sampleUuid 3)
      rw [hreq, htime] at hnot
      exact hnot

end Comenq
