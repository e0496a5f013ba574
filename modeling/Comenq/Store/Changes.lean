import Comenq.Store.Admission
import Comenq.Store.AwaitLookup

/-!
# What a store operation can do

`Change` lists the file-system events the store performs, by kind and with the conditions under
which it does so. For each operation a theorem says of which kinds its changes are (`Performs`),
whatever directory it starts in. Invariants of the store are proved once for each kind and then
hold throughout every operation, wherever it is interrupted.
-/

namespace Comenq

open JsonText Traced

/-! ## Kinds of change -/

/-- The part of an entry that no update touches. -/
def StoredEntry.core (e : StoredEntry) : StoredEntry :=
  { e with incarnation := "", order := 0, claimToken := none }

/-- `e'` is `e` after a change of its order key or its claim, or with the lifetime it lacked. -/
structure StoredEntry.Updates (e e' : StoredEntry) : Prop where
  core : e'.core = e.core
  incarnation : e'.incarnation = e.incarnation ∨
    (e.incarnation = "" ∧ ∃ u : Uuid, e'.incarnation = u.text)
  claim : e'.claimToken = e.claimToken ∨ e'.claimToken = none ∨
    ∃ u : Uuid, e'.claimToken = some u.text

namespace StoredEntry

theorem Updates.id_eq {e e' : StoredEntry} (h : e.Updates e') : e'.id = e.id := by
  have hc := congrArg StoredEntry.id h.core
  exact hc

theorem updates_order (e : StoredEntry) (order : Int64) : e.Updates { e with order := order } :=
  ⟨rfl, Or.inl rfl, Or.inl rfl⟩

theorem updates_claim (e : StoredEntry) (token : Uuid) :
    e.Updates { e with claimToken := some token.text } :=
  ⟨rfl, Or.inl rfl, Or.inr (Or.inr ⟨token, rfl⟩)⟩

theorem updates_release (e : StoredEntry) : e.Updates { e with claimToken := none } :=
  ⟨rfl, Or.inl rfl, Or.inr (Or.inl rfl)⟩

theorem updates_reclaimed (e : StoredEntry) (fresh : String → Uuid) :
    e.Updates (e.reclaimed fresh) := by
  refine ⟨rfl, ?_, Or.inr (Or.inl rfl)⟩
  by_cases hi : e.incarnation = ""
  · exact Or.inr ⟨hi, fresh e.id, if_pos hi⟩
  · exact Or.inl (if_neg hi)

end StoredEntry

/-- What an event does to the directory. -/
inductive Kind
  | enroll (id incarnation : String)
  | reorder (id : String)
  | claim (id token : String)
  | unclaim (id : String)
  | drop (id : String)
  | take (c : CompletionRecord)
  | mark (id : String)
  | unmark (id : String)
  | tidy (id : String)
  | posted
  | attempted
  | journal (c : CompletionRecord)
  | finished
  | log
  | sync
deriving DecidableEq

/-- The three ways an entry file is rewritten: a new order key, a claim, no claim. -/
def Kind.Rewrites (e e' : StoredEntry) : Kind → Prop
  | .reorder id => e.id = id ∧ e' = { e with order := e'.order }
  | .claim id token => e.id = id ∧ e' = { e with claimToken := some token }
  | .unclaim id => e.id = id ∧ e'.claimToken = none ∧ e'.order = e.order
  | _ => False

/-- An event the store may perform in `fs`, with its kind. -/
inductive Change (J : SerdeJson) (fs : QueueFs) : Kind → FsEvent → Prop
  | enroll {e : StoredEntry} (valid : isValidId e.id = true)
      (free : fs.entries.lookup e.id = none) (limits : WithinLimits J fs)
      (count : fileCount fs + 1 ≤ maxQueueEntries)
      (size : e.toVecPretty.length ≤ maxEntryBytes - entryMutationHeadroomBytes)
      (budget : accountedBytes J fs + e.weight ≤ maxQueueBytes)
      (unclaimed : e.claimToken = none) (lifetime : ∃ u : Uuid, e.incarnation = u.text) :
      Change J fs (.enroll e.id e.incarnation) (.writeAtomic (.entry e.id) e.toVecPretty)
  | update {k : Kind} {e e' : StoredEntry} (queued : e ∈ queued J fs) (updates : e.Updates e')
      (rewrites : k.Rewrites e e') (size : e'.toVecPretty.length ≤ maxEntryBytes) :
      Change J fs k (.writeAtomic (.entry e'.id) e'.toVecPretty)
  | drop {e : StoredEntry} (queued : e ∈ queued J fs) :
      Change J fs (.drop e.id) (.removeFile (.entry e.id))
  | take {c : CompletionRecord} {e : StoredEntry} (queued : e ∈ queued J fs) (id_eq : e.id = c.id)
      (claim : ∀ token ∈ c.claimToken, e.claimToken = some token) :
      Change J fs (.take c) (.removeFile (.entry e.id))
  | mark {e : StoredEntry} (queued : e ∈ queued J fs) :
      Change J fs (.mark e.id)
        (.writeAtomic (.awaitDeletion e.id) (AwaitDeletionRecord.toVec ⟨e.incarnation⟩))
  | unmark (id : String) : Change J fs (.unmark id) (.removeFile (.awaitDeletion id))
  | tidy {e : StoredEntry} (queued : e ∈ queued J fs) :
      Change J fs (.tidy e.id) (.removeFile (.awaitDeletion e.id))
  | posted (time : UInt64) : Change J fs .posted (.writeAtomic .lastPost (decimalU64 time))
  | attempted (time : UInt64) :
      Change J fs .attempted (.writeAtomic .lastAttempt (decimalU64 time))
  | journal {c : CompletionRecord} (valid : isValidId c.id = true)
      (post : c.history.isSome = true) : Change J fs (.journal c) (.writeAtomic .completion c.toVec)
  | finished : Change J fs .finished (.removeFile .completion)
  | openLog : Change J fs .log .openHistory
  | log (bytes : Bytes) : Change J fs .log (.appendHistory bytes)
  | syncLog : Change J fs .log .syncHistory
  | sync (d : QueueDir) : Change J fs .sync (.syncDir d)

/-- An event that is a change of a kind in `K`. -/
def Permitted (J : SerdeJson) (K : Kind → Prop) (fs : QueueFs) (ev : FsEvent) : Prop :=
  ∃ k, K k ∧ Change J fs k ev

/-- Started in `fs`, `m` only performs changes of kinds in `K`; a result satisfies `Q` in the state
left behind. -/
abbrev Performs {α : Type} (J : SerdeJson) (K : Kind → Prop) (m : Store α) (fs : QueueFs)
    (Q : α → QueueFs → Prop) : Prop :=
  Does (Permitted J K) m fs Q fun _ => True

section Operations

variable {J : SerdeJson} {K : Kind → Prop} {fs : QueueFs} {α : Type}

/-- Anything holds of the result of an operation without a stated postcondition. -/
abbrev anything : α → QueueFs → Prop := fun _ _ => True

theorem performs_read {f : QueueFs → Except StoreError α} :
    Performs J K (Traced.read f) fs fun a fs' => fs = fs' ∧ f fs = .ok a :=
  does_read (fun _ h => ⟨rfl, h⟩) fun _ _ => trivial

theorem performs_emit {k : Kind} {ev : FsEvent} (hK : K k) (h : Change J fs k ev) :
    Performs J K (Traced.emit ev) fs fun _ fs' => fs.step ev = fs' :=
  does_emit ⟨k, hK, h⟩ rfl

/-- An emitted change that ends an operation. -/
theorem performs_last {k : Kind} {ev : FsEvent} (hK : K k) (h : Change J fs k ev) :
    Performs J K (Traced.emit ev) fs anything :=
  does_emit ⟨k, hK, h⟩ trivial

/-! ## Entry writes -/

theorem performs_writeEntry {k : Kind} {e e' : StoredEntry} (hK : K k) (he : e ∈ queued J fs)
    (hu : e.Updates e') (hk : k.Rewrites e e') :
    Performs J K (writeEntry J e') fs fun _ fs' =>
      fs.write e'.toVecPretty (.entry e'.id) = fs' ∧ e'.toVecPretty.length ≤ maxEntryBytes := by
  refine does_bind performs_read ?_
  rintro ⟨es, usage⟩ _ ⟨rfl, hscan⟩
  have hw := withinLimits_of_ok hscan
  rw [entriesWithUsage_eq hw] at hscan
  obtain ⟨-, rfl⟩ : sortEntries (queued J fs) = es ∧ usageOf J fs = usage := by simpa using hscan
  refine does_bind performs_read ?_
  rintro _ _ ⟨rfl, hadmit⟩
  have hs := ((admitEntry_replace_iff he hu.id_eq hw.count).1 hadmit).1
  exact does_emit ⟨_, hK, .update he hu hk hs⟩ ⟨rfl, hs⟩

theorem performs_writeEntryWithUsage {e : StoredEntry} (hK : K (.enroll e.id e.incarnation))
    (hv : isValidId e.id = true)
    (hfree : fs.entries.lookup e.id = none) (hw : WithinLimits J fs) (hc : e.claimToken = none)
    (hi : ∃ u : Uuid, e.incarnation = u.text) :
    Performs J K (writeEntryWithUsage J e (usageOf J fs)) fs anything := by
  refine does_bind performs_read ?_
  rintro _ _ ⟨rfl, hadmit⟩
  obtain ⟨hcount, hsize, hbudget⟩ := (admitEntry_new_iff hv hfree).1 hadmit
  exact performs_last hK (.enroll hv hfree hw hcount hsize hbudget hc hi)

theorem performs_putWithEta {request : CommentRequest} {options : PutOptions} {now : UInt64}
    {incarnation : Uuid}
    (hK : ∀ id, resolveEntryId J fs request now = some (.ok (id, none)) →
      K (.enroll id incarnation.text)) :
    Performs J K (putWithEta J request options now incarnation) fs anything := by
  refine does_inspect ?_
  cases hr : resolveEntryId J fs request now with
  | none => exact does_diverge
  | some result =>
    cases result with
    | error e => exact does_fail trivial
    | ok found =>
      obtain ⟨id, existing⟩ := found
      obtain ⟨hv, hres⟩ := resolveEntryId_ok hr
      refine does_bind performs_read ?_
      rintro ⟨es, usage⟩ _ ⟨rfl, hscan⟩
      refine does_bind performs_read ?_
      rintro previous _ ⟨rfl, -⟩
      cases existing with
      | some entry => exact does_pure trivial
      | none =>
        simp only
        split
        · exact does_fail trivial
        · have hw := withinLimits_of_ok hscan
          rw [entriesWithUsage_eq hw] at hscan
          obtain ⟨-, rfl⟩ : sortEntries (queued J fs) = es ∧ usageOf J fs = usage := by
            simpa using hscan
          obtain ⟨other, hfind⟩ := hres
          obtain ⟨-, -, hfree⟩ := find_unknownId_iff.1 hfind
          exact does_bind
            (performs_writeEntryWithUsage (hK id hr) hv hfree hw rfl ⟨incarnation, rfl⟩)
            fun _ _ _ => does_pure trivial

theorem performs_reorder {id : String} {newOrder : StoredEntry → List StoredEntry → Int64}
    (hK : K (.reorder id)) :
    Performs J K (reorder J id newOrder) fs anything := by
  refine does_bind performs_read ?_
  rintro all _ ⟨rfl, -⟩
  refine does_bind performs_read ?_
  rintro e _ ⟨rfl, hfind⟩
  obtain ⟨he, rfl⟩ := find_ok_iff.1 hfind
  exact (performs_writeEntry hK he (e.updates_order _) ⟨rfl, rfl⟩).mono
    (fun _ _ _ => trivial) fun _ h => h

theorem entries_ok {es : List StoredEntry} (h : entries J fs = .ok es) :
    WithinLimits J fs ∧ es = sortEntries (queued J fs) := by
  unfold entries at h
  cases hs : entriesWithUsage J fs with
  | error e => rw [hs] at h; cases h
  | ok r =>
    have hw := withinLimits_of_ok hs
    rw [entriesWithUsage_eq hw] at h
    exact ⟨hw, (Except.ok.inj h).symm⟩

theorem map_fst_projectedSchedule (cooldown now : UInt64) (es : List StoredEntry)
    (previous : Option UInt64) :
    (projectedSchedule cooldown now es previous).map Prod.fst = es := by
  induction es generalizing previous with
  | nil => rfl
  | cons e es ih => simp only [projectedSchedule, List.map_cons, ih]

/-- The entry `nextDue` returns heads the unclaimed queue. -/
theorem nextDue_ok {cooldown now : UInt64} {due : Option (StoredEntry × UInt64)}
    (h : nextDue J cooldown now fs = .ok due) :
    ∃ previous, WithinLimits J fs ∧ previousActivity fs = .ok previous ∧
      due = if (sortEntries (queued J fs)).any fun e => e.claimToken.isSome then none
        else (projectedSchedule cooldown now (sortEntries (queued J fs)) previous).head? := by
  unfold nextDue schedule at h
  cases he : entries J fs with
  | error e => rw [he] at h; cases h
  | ok es =>
    obtain ⟨hw, rfl⟩ := entries_ok he
    rw [he] at h
    cases hp : previousActivity fs with
    | error e => rw [hp] at h; cases h
    | ok previous =>
      rw [hp] at h
      refine ⟨previous, hw, rfl, ?_⟩
      have hany : (projectedSchedule cooldown now (sortEntries (queued J fs)) previous).any
          (fun p => p.1.claimToken.isSome) =
          (sortEntries (queued J fs)).any fun e => e.claimToken.isSome := by
        conv_rhs => rw [← map_fst_projectedSchedule cooldown now (sortEntries _) previous,
          List.any_map]
        rfl
      simp only [bind, Except.bind, pure, Except.pure, hany] at h
      split at h
      · next hc => rw [if_pos hc]; exact (Except.ok.inj h).symm
      · next hc => rw [if_neg hc]; exact (Except.ok.inj h).symm

theorem mem_of_nextDue {cooldown now : UInt64} {e : StoredEntry} {wait : UInt64}
    (h : nextDue J cooldown now fs = .ok (some (e, wait))) : e ∈ queued J fs := by
  obtain ⟨previous, -, -, hd⟩ := nextDue_ok h
  split at hd
  · cases hd
  · have hm := List.mem_of_mem_head? hd.symm
    have := List.mem_map_of_mem (f := Prod.fst) hm
    rw [map_fst_projectedSchedule] at this
    exact mem_sortEntries.1 this

theorem performs_claimNextDue {cooldown now : UInt64} {token : Uuid}
    (hK : ∀ e wait, nextDue J cooldown now fs = .ok (some (e, wait)) →
      K (.claim e.id token.text)) :
    Performs J K (claimNextDue J cooldown now token) fs anything := by
  refine does_bind performs_read ?_
  rintro due _ ⟨rfl, hdue⟩
  cases due with
  | none => exact does_pure trivial
  | some p =>
    obtain ⟨e, wait⟩ := p
    simp only
    split
    · exact does_pure trivial
    · have he := mem_of_nextDue hdue
      exact does_bind (performs_writeEntry (hK e wait hdue) he (e.updates_claim token) ⟨rfl, rfl⟩)
        fun _ _ _ => does_pure trivial

theorem performs_releaseClaim {id token : String} {time : UInt64} (hA : K .attempted)
    (hU : K (.unclaim id)) :
    Performs J K (releaseClaim J id token time) fs anything := by
  refine does_inspect ?_
  split
  · exact does_pure trivial
  · exact does_fail trivial
  · next e hfind =>
    obtain ⟨he, rfl⟩ := find_ok_iff.1 hfind
    split
    · refine does_bind performs_read ?_
      rintro previous _ ⟨rfl, -⟩
      refine does_bind (performs_emit hA (.attempted _)) ?_
      rintro _ _ rfl
      have he' : e ∈ queued J (fs.step (.writeAtomic .lastAttempt
          (decimalU64 (Saturating.maxU (previous.getD 0) time)))) := he
      exact (performs_writeEntry hU he' e.updates_release ⟨rfl, rfl, rfl⟩).mono
        (fun _ _ _ => trivial) fun _ h => h
    · exact does_pure trivial

/-! ## Reclaiming -/

/-- Other entries keep their place in the queue when one entry is rewritten. -/
theorem mem_queued_write_of_ne {e x : StoredEntry} (hv : isValidId e.id = true)
    (hs : e.toVecPretty.length ≤ maxEntryBytes) (hx : x ∈ queued J fs) (hne : x.id ≠ e.id) :
    x ∈ queued J (fs.write e.toVecPretty (.entry e.id)) :=
  (mem_queued_write hv hs).2 (Or.inr ⟨hx, hne⟩)

theorem isValidId_of_mem {e : StoredEntry} (h : e ∈ queued J fs) : isValidId e.id = true :=
  (mem_queued.1 h).1

theorem performs_reclaimFrom {fresh : String → Uuid} {es : List StoredEntry}
    (hK : ∀ id, K (.unclaim id)) (hn : (es.map StoredEntry.id).Nodup)
    (hm : ∀ e ∈ es, e ∈ queued J fs) : Performs J K (reclaimFrom J fresh es) fs anything := by
  induction es generalizing fs with
  | nil => exact does_pure trivial
  | cons e es ih =>
    obtain ⟨hne, hn⟩ := List.nodup_cons.1 hn
    have he : e ∈ queued J fs := hm e List.mem_cons_self
    have hrest : ∀ x ∈ es, x ∈ queued J fs := fun x hx => hm x (List.mem_cons_of_mem e hx)
    refine does_bind (Q := fun _ fs' => ∀ x ∈ es, x ∈ queued J fs') ?_ fun _ _ h => ih hn h
    refine does_when (fun _ => ?_) fun _ => hrest
    refine (performs_writeEntry (hK e.id) he (e.updates_reclaimed fresh)
      ⟨rfl, rfl, rfl⟩).mono ?_ fun _ h => h
    rintro _ _ ⟨rfl, hs⟩ x hx
    -- the remaining entries have other names, so the write leaves them queued
    have hv := isValidId_of_mem he
    refine mem_queued_write_of_ne (e := e.reclaimed fresh) hv hs (hrest x hx) fun hid => ?_
    exact hne (List.mem_map.2 ⟨x, hx, hid⟩)

theorem performs_reclaimClaims {fresh : String → Uuid} (hK : ∀ id, K (.unclaim id)) :
    Performs J K (reclaimClaims J fresh) fs anything := by
  refine does_bind performs_read ?_
  rintro es _ ⟨rfl, hes⟩
  obtain ⟨-, rfl⟩ := entries_ok hes
  refine performs_reclaimFrom hK ?_ fun e he => mem_sortEntries.1 he
  exact (((sortEntries_perm _).map StoredEntry.id).nodup_iff).2 (nodup_queued J fs)

/-! ## Deletion markers -/

theorem performs_del {id : String} (hM : K (.mark id)) (hD : K (.drop id)) :
    Performs J K (del J id) fs anything := by
  refine does_bind performs_read ?_
  rintro e _ ⟨rfl, hfind⟩
  obtain ⟨he, rfl⟩ := find_ok_iff.1 hfind
  unfold writeAwaitDeletion
  rw [if_pos (isValidId_of_mem he)]
  refine does_bind (performs_emit hM (.mark he)) ?_
  rintro _ _ rfl
  exact performs_last hD (.drop (e := e) he)

theorem performs_clearAwaitDeletion {id incarnation : String} (hU : K (.unmark id))
    (hS : K .sync) :
    Performs J K (clearAwaitDeletion J id incarnation) fs anything := by
  unfold clearAwaitDeletion
  split
  · refine does_inspect ?_
    split
    · exact does_pure trivial
    · split
      · exact does_fail trivial
      · refine does_bind performs_read ?_
        rintro current _ ⟨rfl, -⟩
        split
        · exact does_pure trivial
        · refine does_bind (performs_emit hU (.unmark id)) ?_
          rintro _ _ rfl
          exact performs_last hS (.sync _)
  · exact does_fail trivial

theorem performs_removeMarkers {es : List StoredEntry} {removed : Bool}
    (hK : ∀ id, K (.tidy id)) (hm : ∀ e ∈ es, e ∈ queued J fs) :
    Performs J K (removeMarkers es removed) fs anything := by
  induction es generalizing fs removed with
  | nil => exact does_pure trivial
  | cons e es ih =>
    have hrest : ∀ x ∈ es, x ∈ queued J fs := fun x hx => hm x (List.mem_cons_of_mem e hx)
    refine does_inspect ?_
    split
    · exact does_fail trivial
    · refine does_bind (performs_emit (hK e.id) (.tidy (hm e List.mem_cons_self))) ?_
      rintro _ _ rfl
      exact ih hrest
    · exact ih hrest

theorem performs_reconcileAwaitDeletions (hT : ∀ id, K (.tidy id)) (hS : K .sync) :
    Performs J K (reconcileAwaitDeletions J) fs anything := by
  refine does_bind performs_read ?_
  rintro es _ ⟨rfl, hes⟩
  obtain ⟨-, rfl⟩ := entries_ok hes
  refine does_bind (performs_removeMarkers hT fun e he => mem_sortEntries.1 he)
    fun removed _ _ => ?_
  exact does_when (fun _ => performs_last hS (.sync _)) fun _ => trivial

/-! ## Completion -/

section Log

variable (hL : K .log) (hS : K .sync)
include hL

theorem performs_appendLine {line log : Bytes} :
    Performs J K (appendLine line log) fs anything := by
  refine does_bind (Q := anything) ?_ fun _ _ _ => ?_
  · exact does_when (fun _ => performs_last hL (.log _)) fun _ => trivial
  · refine does_bind (performs_emit hL (.log _)) ?_
    rintro _ _ rfl
    exact performs_last hL .syncLog

include hS

theorem performs_append {record : HistoryRecord} : Performs J K (append record) fs anything := by
  refine does_inspect (does_bind (performs_emit hL .openLog) ?_)
  rintro _ _ rfl
  refine does_bind (performs_appendLine hL) fun _ _ _ => ?_
  exact does_when (fun _ => performs_last hS (.sync _)) fun _ => trivial

theorem performs_appendOnce {record : HistoryRecord} {searchFrom : Nat} :
    Performs J K (appendOnce J record searchFrom) fs anything := by
  refine does_inspect ?_
  split
  · exact does_pure trivial
  · exact performs_append hL hS

theorem performs_recordCompletion {record : CompletionRecord} (hU : K (.unmark record.id)) :
    Performs J K (recordCompletion J record) fs anything := by
  unfold recordCompletion
  split
  · exact does_pure trivial
  · exact does_bind (performs_appendOnce hL hS) fun _ _ _ => performs_clearAwaitDeletion hU hS

end Log

/-- A completion only removes an entry that is queued under its identifier. -/
theorem mem_of_removesEntry {record : CompletionRecord} (h : removesEntry J fs record = .ok true) :
    ∃ e ∈ queued J fs, e.id = record.id ∧
      ∀ token ∈ record.claimToken, e.claimToken = some token := by
  unfold removesEntry at h
  split at h
  · next e hfind =>
    obtain ⟨he, hid⟩ := find_ok_iff.1 hfind
    refine ⟨e, he, hid, fun token ht => ?_⟩
    rw [Option.mem_def] at ht
    simp only [ht] at h
    simpa using h
  · cases h
  · cases h

/-- The kinds of change by which a completion is finished. -/
def finishing (c : CompletionRecord) : Kind → Prop
  | .log | .sync | .posted | .finished => True
  | .unmark id => id = c.id
  | .take other => other = c
  | _ => False

theorem performs_finishCompletion {record : CompletionRecord}
    (hK : ∀ k, finishing record k → K k) :
    Performs J K (finishCompletion J record) fs anything := by
  unfold finishCompletion
  split
  · have hrecord : Performs J K (recordCompletion J record) fs anything :=
      performs_recordCompletion (hK .log trivial) (hK .sync trivial) (hK (.unmark _) rfl)
    refine does_bind hrecord fun _ fs₁ _ => ?_
    refine does_bind performs_read ?_
    rintro removeEntry _ ⟨rfl, hrm⟩
    refine does_bind (Q := anything) ?_ fun _ _ _ => ?_
    · refine does_when (fun hr => ?_) fun _ => trivial
      subst hr
      obtain ⟨e, he, hid, hclaim⟩ := mem_of_removesEntry hrm
      exact hid ▸ performs_last (hK (.take record) rfl) (.take he hid hclaim)
    · refine does_bind (performs_emit (hK .posted trivial) (.posted _)) ?_
      rintro _ _ rfl
      refine does_bind (performs_emit (hK .finished trivial) .finished) ?_
      rintro _ _ rfl
      exact performs_last (hK .sync trivial) (.sync _)
  · exact does_fail trivial

/-- The journalled completion of a directory. -/
def pendingCompletion (J : SerdeJson) (fs : QueueFs) : Option CompletionRecord :=
  fs.completion.bind J.completion

theorem performs_reconcileCompletion
    (hK : ∀ c, pendingCompletion J fs = some c → ∀ k, finishing c k → K k) :
    Performs J K (reconcileCompletion J) fs anything := by
  refine does_inspect ?_
  split
  · exact does_pure trivial
  · next bytes hb =>
    split
    · exact does_fail trivial
    · split
      · exact does_fail trivial
      · next c hc =>
        refine performs_finishCompletion (hK c ?_)
        unfold pendingCompletion
        rw [hb]
        exact hc

theorem performs_completeClaimWithToken {entry : StoredEntry} {tokenHash : String} {now : UInt64}
    {commentUrl : Option String} {attempt : Uuid} (hv : isValidId entry.id = true)
    (hJ : K (.journal (completionRecord entry tokenHash now commentUrl attempt
      fs.historyBytes.length)))
    (hK : ∀ k, finishing (completionRecord entry tokenHash now commentUrl attempt
      fs.historyBytes.length) k → K k) :
    Performs J K (completeClaimWithToken J entry tokenHash now commentUrl attempt) fs anything := by
  refine does_bind (Q := fun _ fs' => fs = fs') ?_ ?_
  · exact does_when (fun _ => does_read (fun _ _ => rfl) fun _ _ => trivial) fun _ => rfl
  · rintro _ _ rfl
    refine does_bind (does_inspect (performs_emit hJ (.journal hv rfl))) ?_
    rintro _ _ rfl
    refine performs_reconcileCompletion fun c hc => ?_
    have hpending : pendingCompletion J (fs.step (.writeAtomic .completion
        (completionRecord entry tokenHash now commentUrl attempt fs.historyBytes.length).toVec)) =
        some (completionRecord entry tokenHash now commentUrl attempt fs.historyBytes.length) :=
      J.completion_toVec _
    rw [hpending] at hc
    obtain rfl := Option.some.inj hc
    exact hK

theorem performs_recoverWorkerState {fresh : String → Uuid}
    (hK : ∀ c, pendingCompletion J fs = some c → ∀ k, finishing c k → K k)
    (hU : ∀ id, K (.unclaim id)) : Performs J K (recoverWorkerState J fresh) fs anything :=
  does_bind (performs_reconcileCompletion hK) fun _ _ _ => performs_reclaimClaims hU

theorem performs_openStore {fresh : String → Uuid}
    (hK : ∀ c, pendingCompletion J fs = some c → ∀ k, finishing c k → K k)
    (hU : ∀ id, K (.unclaim id)) (hM : ∀ id, K (.tidy id)) (hS : K .sync) :
    Performs J K (openStore J fresh) fs anything := by
  refine does_bind (performs_reconcileCompletion hK) fun _ _ _ => ?_
  refine does_bind (Q := anything) (does_read (fun _ _ => trivial) fun _ _ => trivial)
    fun _ _ _ => ?_
  exact does_bind (performs_reclaimClaims hU) fun _ _ _ => performs_reconcileAwaitDeletions hM hS

end Operations

end Comenq
