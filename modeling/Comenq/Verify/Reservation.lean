import Comenq.Verify.Opening

/-!
# Reserved capacity along runs

In a directory whose limits cover its entries (`Covered`), the calls that update entries report
exhausted capacity only for a file too large to be read (`Oversized`), and no call makes such a
file. This file follows a store from the directory it was opened on.

A directory in the store's own format keeps its accounting exactly, through every call.
-/

namespace Comenq

open Saturating JsonText Directory Traced CrashTrace

variable {J : SerdeJson} {fs fs' : QueueFs}

/-! ## Other errors -/

/-- No call makes a file too large to be read. -/
theorem Oversized.of_step {k : Kind} {ev : FsEvent} (hc : Change J fs k ev) {id : String}
    (h : Oversized (fs.step ev) id) : Oversized fs id := by
  have hwrite : ∀ {e : StoredEntry}, e.toVecPretty.length ≤ maxEntryBytes →
      Oversized (fs.write e.toVecPretty (.entry e.id)) id → Oversized fs id := by
    intro e hsize ⟨bytes, hl, hlt⟩
    change AList.lookup id (fs.entries.insert e.id (.file e.toVecPretty)) = _ at hl
    by_cases hid : id = e.id
    · rw [hid, AList.lookup_insert] at hl
      obtain rfl : e.toVecPretty = bytes := by simpa using hl
      omega
    · rw [AList.lookup_insert_ne hid] at hl
      exact ⟨bytes, hl, hlt⟩
  have hremove : ∀ name, Oversized (fs.remove (.entry name)) id → Oversized fs id := by
    intro name ⟨bytes, hl, hlt⟩
    change AList.lookup id (fs.entries.erase name) = _ at hl
    by_cases hid : id = name
    · rw [hid, AList.lookup_erase] at hl
      cases hl
    · rw [AList.lookup_erase_ne hid] at hl
      exact ⟨bytes, hl, hlt⟩
  cases hc with
  | enroll _ _ _ _ hsize => exact hwrite (by omega) h
  | update _ _ _ hsize => exact hwrite hsize h
  | drop => exact hremove _ h
  | take => exact hremove _ h
  | _ => exact h.congr rfl

theorem readMarker_error {invalid : ParseIntError → StoreError}
    (hinvalid : ∀ e, (invalid e).isCapacity = false) {marker : Option Bytes} {err : StoreError}
    (h : readMarker invalid marker = .error err) : err.isCapacity = false := by
  unfold readMarker at h
  split at h
  · cases h
  · split at h
    · obtain rfl := Except.error.inj h
      rfl
    · split at h
      · obtain rfl := Except.error.inj h
        exact hinvalid _
      · cases h

theorem lastAttempt_error {err : StoreError} (h : lastAttempt fs = .error err) :
    err.isCapacity = false :=
  readMarker_error (fun _ => rfl) h

theorem previousActivity_error {err : StoreError} (h : previousActivity fs = .error err) :
    err.isCapacity = false := by
  unfold previousActivity at h
  cases hp : lastPost fs with
  | error e =>
    rw [hp] at h
    obtain rfl := Except.error.inj h
    exact readMarker_error (fun _ => rfl) hp
  | ok post =>
    cases ha : lastAttempt fs with
    | error e =>
      rw [hp, ha] at h
      obtain rfl := Except.error.inj h
      exact lastAttempt_error ha
    | ok attempt =>
      rw [hp, ha] at h
      cases h

/-! ## Calls in covered directories -/

namespace Covered

theorem reorder_capacity (h : Covered J fs) {id : String}
    {newOrder : StoredEntry → List StoredEntry → Int64} {err : StoreError}
    (he : (reorder J id newOrder fs).outcome = .error err) (hc : err.isCapacity = true) :
    Oversized fs id := by
  cases hf : find J fs id with
  | ok e =>
    rw [h.reorder_run hf] at he
    cases he
  | error bad =>
    rw [h.reorder_error hf] at he
    obtain rfl := Outcome.error.inj he
    exact oversized_of_find hf hc

theorem claimNextDue_capacity (h : Covered J fs) {cooldown now : UInt64} {token : Uuid}
    {err : StoreError} (he : (claimNextDue J cooldown now token fs).outcome = .error err) :
    err.isCapacity = false := by
  rcases h.claimNextDue_cases cooldown now token with ⟨bad, hd, hr⟩ | ⟨due, -, -, hr⟩ | ⟨e, -, hr⟩
  · rw [hr] at he
    obtain rfl := Outcome.error.inj he
    unfold nextDue schedule at hd
    rw [h.entries_eq] at hd
    cases hp : previousActivity fs with
    | error bad =>
      rw [hp] at hd
      obtain rfl := Except.error.inj hd
      exact previousActivity_error hp
    | ok previous =>
      rw [hp] at hd
      simp only [pure, Except.pure, bind, Except.bind] at hd
      split at hd <;> cases hd
  · rw [hr] at he
    cases he
  · rw [hr] at he
    cases he

theorem releaseClaim_capacity (h : Covered J fs) {id token : String} {time : UInt64}
    {err : StoreError} (he : (releaseClaim J id token time fs).outcome = .error err)
    (hc : err.isCapacity = true) : Oversized fs id := by
  cases hf : find J fs id with
  | ok e =>
    by_cases ht : e.claimToken = some token
    · cases hp : lastAttempt fs with
      | ok previous =>
        rw [h.releaseClaim_run hf ht hp] at he
        cases he
      | error bad =>
        have hrun : releaseClaim J id token time fs = ⟨.error bad, []⟩ := by
          unfold releaseClaim
          rw [run_inspect, hf]
          simp only
          rw [if_pos ht]
          exact run_bind_error (run_read_error hp)
        rw [hrun] at he
        obtain rfl := Outcome.error.inj he
        rw [lastAttempt_error hp] at hc
        cases hc
    · unfold releaseClaim at he
      rw [run_inspect, hf] at he
      simp only at he
      rw [if_neg ht] at he
      cases he
  | error bad =>
    unfold releaseClaim at he
    rw [run_inspect, hf] at he
    cases bad with
    | unknownId other => cases he
    | _ =>
      obtain rfl := Outcome.error.inj he
      exact oversized_of_find hf hc

end Covered

namespace Roomy

theorem succeeds_reclaimFrom (h : Roomy J fs) (fresh : String → Uuid) {es : List StoredEntry}
    (hn : (es.map StoredEntry.id).Nodup) (hm : ∀ e ∈ es, e ∈ queued J fs) :
    Succeeds (reclaimFrom J fresh es) fs fun _ fs' => Roomy J fs' := by
  induction es generalizing fs with
  | nil => exact succeeds_pure h
  | cons e es ih =>
    obtain ⟨hne, hn⟩ := List.nodup_cons.1 hn
    have he : e ∈ queued J fs := hm e List.mem_cons_self
    have hrest : ∀ x ∈ es, x ∈ queued J fs := fun x hx => hm x (List.mem_cons_of_mem e hx)
    have hu := e.updates_reclaimed fresh
    have hsized : (e.reclaimed fresh).Sized := sized_of_none rfl
    refine succeeds_bind (Q := fun _ fs₁ => Roomy J fs₁ ∧ ∀ x ∈ es, x ∈ queued J fs₁) ?_ ?_
    · refine succeeds_when (fun _ => ?_) fun _ => ⟨h, hrest⟩
      refine ⟨(), _, h.writeEntry_run he hu hsized, h.write_update he hu hsized, fun x hx => ?_⟩
      have hv := isValidId_of_mem he
      change isValidId (e.reclaimed fresh).id = true at hv
      apply (mem_queued_write hv (h.length_le_of_updates he hu hsized).2).2
      exact Or.inr ⟨hrest x hx, fun hid => hne (List.mem_map.2 ⟨x, hx, hid⟩)⟩
    · rintro _ fs₁ ⟨h₁, hm₁⟩
      exact ih h₁ hn hm₁

theorem succeeds_reclaimClaims (h : Roomy J fs) (fresh : String → Uuid) :
    Succeeds (reclaimClaims J fresh) fs fun _ fs' => Roomy J fs' :=
  succeeds_read_bind (entries_eq h.limits)
    (h.succeeds_reclaimFrom fresh (nodup_sortEntries J fs) fun _ he => mem_sortEntries.1 he)

end Roomy

/-- The calls that may add an entry. -/
def Op.Enrolls : Op → Prop
  | .put .. => True
  | _ => False

theorem Op.kinds_ne_enroll {op : Op} (h : ¬ op.Enrolls) {k : Kind} (hk : op.Kinds J fs k)
    (id incarnation : String) : k ≠ .enroll id incarnation := by
  rintro rfl
  cases op with
  | put => exact h trivial
  | bump | bust => cases hk
  | del | releaseClaim | appendHistory => rcases hk with hk | hk <;> cases hk
  | claimNextDue =>
    obtain ⟨e, wait, -, hk⟩ := hk
    cases hk
  | completeClaim => rcases hk with hk | hk <;> cases hk
  | recoverWorkerState =>
    rcases hk with ⟨c, -, hk⟩ | ⟨name, hk⟩ <;> cases hk
  | reopen =>
    rcases hk with ⟨c, -, hk⟩ | ⟨name, hk⟩ | ⟨name, hk⟩ | hk <;> cases hk

namespace Covered

theorem leaves (h : Covered J fs) {op : Op} (hs : op.Sound) (hn : ¬ op.Enrolls)
    (hl : op.Leaves J fs fs') : Covered J fs' :=
  Op.leaves_of_changes hs hl h fun _ _ _ hg hk hc => hg.step hc (Op.kinds_ne_enroll hn hk)

theorem recoverWorkerState_capacity (h : Covered J fs) (fresh : String → Uuid) :
    Reports (∃ c, pendingCompletion J fs = some c ∧ Oversized fs c.id)
      (recoverWorkerState J fresh) fs anything := by
  have hp : Performs J (fun k => ∀ id incarnation, k ≠ .enroll id incarnation)
      (reconcileCompletion J) fs anything := by
    apply performs_reconcileCompletion
    rintro c - k hk id incarnation rfl
    cases hk
  have hcovered : Throughout QueueFs.step Tears (Covered J) fs
      (reconcileCompletion J fs).trace := by
    refine hp.along.throughout ?_ ?_ h
    · rintro g ev hg ⟨k, hk, hc⟩
      exact hg.step hc hk
    · rintro g ev ev' hg - ht
      cases ht
      exact hg.congr rfl
  refine does_bind (Q := fun _ fs₁ => Covered J fs₁) ?_ fun _ fs₁ h₁ => ?_
  · exact ⟨along_true _, fun _ _ => hcovered.finish, reports_reconcileCompletion.fault⟩
  · exact does_of_succeeds ((h₁.toRoomy.succeeds_reclaimClaims fresh).mono fun _ _ _ => trivial)

end Covered

/-! ## Runs of an opened store -/

/-- Calls of a store that was opened on the directory `start`, finished or cut off. A call that may
add an entry leaves a directory as `Admits` says. -/
inductive OpenedRun (J : SerdeJson) (Admits : QueueFs → Prop) (start : QueueFs) : QueueFs → Prop
  | opened {fresh : String → Uuid} : (openStore J fresh start).outcome = .ok () →
      OpenedRun J Admits start (final (openStore J fresh) start)
  | call {fs fs' : QueueFs} {op : Op} : OpenedRun J Admits start fs → op.Sound →
      (op.Enrolls → Admits fs') → op.Leaves J fs fs' → OpenedRun J Admits start fs'

namespace OpenedRun

variable {Admits : QueueFs → Prop} {start : QueueFs}

/-- The files too large to be read were there from the start. -/
theorem oversized (h : OpenedRun J Admits start fs) {id : String} (ho : Oversized fs id) :
    Oversized start id := by
  have hleaves : ∀ {op : Op} {g g' : QueueFs}, op.Sound → op.Leaves J g g' → Oversized g' id →
      Oversized g id := by
    intro op g g' hs hl
    exact Op.leaves_of_changes (I := fun g' => Oversized g' id → Oversized g id) hs hl (fun h => h)
      fun _ _ _ hi _ hc hlarge => hi (hlarge.of_step hc)
  induction h with
  | @opened fresh hok =>
    have hl := Op.leaves_final J (.reopen fresh) start
    rw [Op.exec, final_map] at hl
    exact hleaves (show (Op.reopen fresh).Sound from trivial) hl ho
  | call hrun hs hput hl ih => exact ih (hleaves hs hl ho)

end OpenedRun

/-! ## The store's own format -/

/-- Readable entries are stored as the store writes them, with claims as wide as a UUID. -/
structure StoreFormat (J : SerdeJson) (fs : QueueFs) : Prop where
  native : ∀ {e bytes}, e ∈ queued J fs → fs.entries.lookup e.id = some (.file bytes) →
    bytes = e.toVecPretty
  sized : ∀ {e}, e ∈ queued J fs → e.Sized

namespace StoreFormat

theorem congr (h : StoreFormat J fs) (he : fs'.entries = fs.entries) : StoreFormat J fs' := by
  have hq : queued J fs' = queued J fs := queued_congr he
  refine ⟨?_, ?_⟩
  · intro e bytes
    rw [hq, he]
    exact h.native
  · intro e
    rw [hq]
    exact h.sized

theorem remove (h : StoreFormat J fs) (id : String) : StoreFormat J (fs.remove (.entry id)) := by
  refine ⟨?_, fun hx => h.sized (mem_queued_remove.1 hx).1⟩
  intro x bytes hx hl
  obtain ⟨hx, hne⟩ := mem_queued_remove.1 hx
  change AList.lookup x.id (fs.entries.erase id) = _ at hl
  rw [AList.lookup_erase_ne hne] at hl
  exact h.native hx hl

theorem write (h : StoreFormat J fs) {e : StoredEntry} (hv : isValidId e.id = true)
    (hs : e.toVecPretty.length ≤ maxEntryBytes) (hsized : e.Sized) :
    StoreFormat J (fs.write e.toVecPretty (.entry e.id)) := by
  refine ⟨?_, ?_⟩
  · intro x bytes hx hl
    change AList.lookup x.id (fs.entries.insert e.id (.file e.toVecPretty)) = _ at hl
    rcases (mem_queued_write hv hs).1 hx with rfl | ⟨hx, hne⟩
    · rw [AList.lookup_insert] at hl
      simpa using hl.symm
    · rw [AList.lookup_insert_ne hne] at hl
      exact h.native hx hl
  · intro x hx
    rcases (mem_queued_write hv hs).1 hx with rfl | ⟨hx, -⟩
    · exact hsized
    · exact h.sized hx

theorem step {k : Kind} {ev : FsEvent} (h : StoreFormat J fs) (hc : Change J fs k ev) :
    StoreFormat J (fs.step ev) := by
  cases hc with
  | enroll hv _ _ _ hsize _ hclaim => exact h.write hv (by omega) (sized_of_none hclaim)
  | update he hu _ hsize =>
    exact h.write (hu.id_eq ▸ isValidId_of_mem he) hsize (hu.sized (h.sized he))
  | drop => exact h.remove _
  | take => exact h.remove _
  | _ => exact h.congr rfl

/-- A successful opening has checked what the accounting needs. -/
theorem accounted_openStore (h : StoreFormat J fs) {fresh : String → Uuid}
    (hok : (openStore J fresh fs).outcome = .ok ()) :
    Accounted J (final (openStore J fresh) fs) := by
  obtain ⟨hnormal, -⟩ := (leadsTo_openStore fresh).post () hok
  have hformat : StoreFormat J (final (openStore J fresh) fs) := by
    have hl := Op.leaves_final J (.reopen fresh) fs
    rw [Op.exec, final_map] at hl
    exact Op.leaves_of_changes (show (Op.reopen fresh).Sound from trivial) hl h
      fun _ _ _ hg _ hc => hg.step hc
  refine ⟨hnormal.limits.count, hnormal.budget, hformat.native, hformat.sized, ?_⟩
  intro e he
  obtain ⟨hv, bytes, hl, hr⟩ := mem_queued.1 he
  have hgrowth := hnormal.limits.growth e.id bytes e hl (itemEntry_eq_some.2 ⟨bytes, rfl, hr, hv⟩)
  rw [hformat.native he hl] at hgrowth
  exact hgrowth

end StoreFormat

theorem OpenedRun.accounted {Admits : QueueFs → Prop} {start : QueueFs}
    (hformat : StoreFormat J start) (h : OpenedRun J Admits start fs) : Accounted J fs := by
  induction h with
  | opened hok => exact hformat.accounted_openStore hok
  | call hrun hs hput hl ih =>
    exact Op.leaves_of_changes hs hl ih fun _ _ _ hg _ hc => hg.step hc

/-! ## Accounting through updates -/

theorem accountedBytes_congr (he : fs'.entries = fs.entries) :
    accountedBytes J fs' = accountedBytes J fs := by
  have hq : queued J fs' = queued J fs := queued_congr he
  unfold accountedBytes usedBytes reservedBytes
  rw [hq, he]

theorem Accounted.accountedBytes_update (h : Accounted J fs) {e e' : StoredEntry}
    (he : e ∈ queued J fs) (hu : e.Updates e') :
    accountedBytes J (fs.write e'.toVecPretty (.entry e'.id)) = accountedBytes J fs := by
  have hv : isValidId e'.id = true := hu.id_eq ▸ isValidId_of_mem he
  rw [accountedBytes_write hv (h.length_le_of_updates he hu), hu.id_eq, hu.weight_eq (h.sized he),
    h.accounted_split he]

/-- The calls that update queued entries. -/
def Op.Updating : Op → Prop
  | .bump _ | .bust _ | .claimNextDue .. | .releaseClaim .. | .recoverWorkerState _ => True
  | _ => False

/-- The identifier whose file a call looks up by name. -/
def Op.LooksUp (J : SerdeJson) (fs : QueueFs) : Op → String → Prop
  | .bump id, name | .bust id, name | .releaseClaim id .., name => name = id
  | .recoverWorkerState _, name => ∃ c, pendingCompletion J fs = some c ∧ name = c.id
  | _, _ => False

/-- An updating call reports exhausted capacity only for a file it cannot read. -/
theorem Covered.updating_capacity (h : Covered J fs) {op : Op} (hop : op.Updating)
    {err : StoreError} (he : (op.exec J fs).outcome = .error err) (hc : err.isCapacity = true) :
    ∃ id, op.LooksUp J fs id ∧ Oversized fs id := by
  have hmap : ∀ {α : Type} {g : α → Reply} {m : Store α}, ((g <$> m) fs).outcome = .error err →
      (m fs).outcome = .error err := by
    intro α g m hg
    rw [outcome_map] at hg
    cases ho : (m fs).outcome with
    | ok a => rw [ho] at hg; cases hg
    | error bad => rw [ho] at hg; exact congrArg _ (Outcome.error.inj hg)
    | diverges => rw [ho] at hg; cases hg
  cases op with
  | put | del | completeClaim | reopen | appendHistory => exact hop.elim
  | bump id => exact ⟨id, rfl, h.reorder_capacity (hmap he) hc⟩
  | bust id => exact ⟨id, rfl, h.reorder_capacity (hmap he) hc⟩
  | claimNextDue cooldown now token =>
    rw [h.claimNextDue_capacity (hmap he)] at hc
    cases hc
  | releaseClaim id token time => exact ⟨id, rfl, h.releaseClaim_capacity (hmap he) hc⟩
  | recoverWorkerState fresh =>
    obtain ⟨c, hpending, hlarge⟩ := (h.recoverWorkerState_capacity fresh).fault err (hmap he) hc
    exact ⟨c.id, ⟨c, hpending, rfl⟩, hlarge⟩

/-- A recovery on the way from `fs` to `g`: the queue is what is left of that of `fs`, and so are
the bytes it takes. -/
structure Remaining (J : SerdeJson) (fs g : QueueFs) : Prop where
  accounted : Accounted J g
  origin : ∀ x ∈ queued J g, ∃ y ∈ queued J fs, y.id = x.id ∧ y.weight = x.weight ∧
    ∀ token, x.claimToken = some token → y.claimToken = some token
  bytes : accountedBytes J g = accountedBytes J fs ∨
    ∃ e ∈ queued J fs, RemovedByJournal J fs e ∧ (∀ x ∈ queued J g, x.id ≠ e.id) ∧
      accountedBytes J g + e.weight = accountedBytes J fs

namespace Remaining

variable {g : QueueFs}

theorem congr {g' : QueueFs} (h : Remaining J fs g) (he : g'.entries = g.entries) :
    Remaining J fs g' := by
  have hq : queued J g' = queued J g := queued_congr he
  refine ⟨h.accounted.congr he, ?_, ?_⟩
  · rw [hq]
    exact h.origin
  · rw [hq, accountedBytes_congr he]
    exact h.bytes

theorem unclaim (h : Remaining J fs g) {e e' : StoredEntry} (he : e ∈ queued J g)
    (hu : e.Updates e') (hclaim : e'.claimToken = none) :
    Remaining J fs (g.write e'.toVecPretty (.entry e'.id)) := by
  have hmem := fun x => @Accounted.mem_write_update J g h.accounted e e' he hu x
  refine ⟨h.accounted.write_update he hu, ?_, ?_⟩
  · intro x hx
    rcases (hmem x).1 hx with rfl | ⟨hx, -⟩
    · obtain ⟨y, hy, hid, hweight, -⟩ := h.origin e he
      refine ⟨y, hy, hid.trans hu.id_eq.symm,
        hweight.trans (hu.weight_eq (h.accounted.sized he)).symm, fun token ht => ?_⟩
      rw [hclaim] at ht
      cases ht
    · exact h.origin x hx
  · rw [h.accounted.accountedBytes_update he hu]
    refine h.bytes.imp id ?_
    rintro ⟨y, hy, hremoved, hgone, hsum⟩
    refine ⟨y, hy, hremoved, fun x hx => ?_, hsum⟩
    rcases (hmem x).1 hx with rfl | ⟨hx, -⟩
    · rw [hu.id_eq]
      exact hgone e he
    · exact hgone x hx

theorem take (h : Remaining J fs g) {c : CompletionRecord}
    (hpending : pendingCompletion J fs = some c) {e : StoredEntry} (he : e ∈ queued J g)
    (hid : e.id = c.id) (hclaim : ∀ token ∈ c.claimToken, e.claimToken = some token) :
    Remaining J fs (g.remove (.entry e.id)) := by
  have hsplit := h.accounted.accounted_split he
  refine ⟨h.accounted.remove e.id, fun x hx => h.origin x (mem_queued_remove.1 hx).1, Or.inr ?_⟩
  rcases h.bytes with hbytes | ⟨y, hy, hremoved, hgone, -⟩
  · obtain ⟨y, hy, hyid, hweight, htoken⟩ := h.origin e he
    refine ⟨y, hy, ?_, fun x hx => ?_, by omega⟩
    · exact (removed_iff hpending).2 ⟨hyid.trans hid, fun token ht =>
        htoken token (hclaim token ht)⟩
    · rw [hyid]
      exact (mem_queued_remove.1 hx).2
  · -- nothing is queued any more under the journalled identifier
    obtain ⟨hyid, -⟩ := (removed_iff hpending).1 hremoved
    exact absurd (hid.trans hyid.symm) (hgone e he)

theorem step (h : Remaining J fs g) {k : Kind} {ev : FsEvent} {fresh : String → Uuid}
    (hk : (Op.recoverWorkerState fresh).Kinds J fs k) (hc : Change J g k ev) :
    Remaining J fs (g.step ev) := by
  cases hc with
  | enroll =>
    exact absurd rfl (@Op.kinds_ne_enroll J fs (.recoverWorkerState fresh) (fun h => h) _ hk _ _)
  | update he hu hrewrites _ =>
    rcases hk with ⟨c, -, hk⟩ | ⟨name, rfl⟩
    · cases k <;> first | exact hk.elim | exact hrewrites.elim
    · exact h.unclaim he hu hrewrites.2.1
  | drop => rcases hk with ⟨c, -, hk⟩ | ⟨name, hk⟩ <;> cases hk
  | take he hid hclaim =>
    rcases hk with ⟨c, hpending, rfl⟩ | ⟨name, hk⟩
    · exact h.take hpending he hid hclaim
    · cases hk
  | _ => exact h.congr rfl

end Remaining

/-- An updating call keeps the accounted bytes, apart from the entry a pending journal removes. -/
theorem Accounted.updating_bytes (h : Accounted J fs) {op : Op} (hop : op.Updating)
    (hl : op.Leaves J fs fs') :
    accountedBytes J fs' = accountedBytes J fs ∨
      (∃ fresh, op = .recoverWorkerState fresh) ∧ ∃ e ∈ queued J fs, RemovedByJournal J fs e ∧
        accountedBytes J fs' + e.weight = accountedBytes J fs := by
  -- of the other calls only the rewriting of an entry concerns the accounting
  have hupdate : op.Sound → (∀ k, op.Kinds J fs k → k = .attempted ∨ ∃ id, k = .reorder id ∨
        k = .unclaim id ∨ ∃ token, k = .claim id token) →
      accountedBytes J fs' = accountedBytes J fs := by
    intro hs hkinds
    have hboth : Accounted J fs' ∧ accountedBytes J fs' = accountedBytes J fs := by
      refine Op.leaves_of_changes
        (I := fun g => Accounted J g ∧ accountedBytes J g = accountedBytes J fs) hs hl ⟨h, rfl⟩ ?_
      rintro g k ev ⟨hg, hbytes⟩ hk hc
      refine ⟨hg.step hc, ?_⟩
      have hkind := hkinds k hk
      cases hc with
      | update he hu _ _ => exact (hg.accountedBytes_update he hu).trans hbytes
      | enroll | drop | take => simp at hkind
      | _ => exact (accountedBytes_congr rfl).trans hbytes
    exact hboth.2
  cases op with
  | put | del | completeClaim | reopen | appendHistory => exact hop.elim
  | bump id =>
    exact Or.inl (hupdate trivial fun k hk => Or.inr ⟨id, Or.inl hk⟩)
  | bust id =>
    exact Or.inl (hupdate trivial fun k hk => Or.inr ⟨id, Or.inl hk⟩)
  | claimNextDue cooldown now token =>
    refine Or.inl (hupdate trivial ?_)
    rintro k ⟨e, wait, -, rfl⟩
    exact Or.inr ⟨e.id, Or.inr (Or.inr ⟨_, rfl⟩)⟩
  | releaseClaim id token time =>
    exact Or.inl (hupdate trivial fun k hk => hk.imp_right fun hk => ⟨id, Or.inr (Or.inl hk)⟩)
  | recoverWorkerState fresh =>
    have hstart : Remaining J fs fs :=
      ⟨h, fun x hx => ⟨x, hx, rfl, rfl, fun _ ht => ht⟩, Or.inl rfl⟩
    have hend : Remaining J fs fs' :=
      Op.leaves_of_changes (show (Op.recoverWorkerState fresh).Sound from trivial) hl hstart
        fun _ _ _ hg hk hc => hg.step hk hc
    refine hend.bytes.imp id ?_
    rintro ⟨e, he, hremoved, -, hsum⟩
    exact ⟨⟨fresh, rfl⟩, e, he, hremoved, hsum⟩

/-- What is reserved in a directory of the store's own format is enough for every later update. Only
a file that was too large to be read from the start is reported as such. -/
theorem capacity_reserved {start : QueueFs} (hformat : StoreFormat J start)
    (h : OpenedRun J (fun _ => True) start fs) :
    (fileCount fs ≤ maxQueueEntries ∧ accountedBytes J fs ≤ maxQueueBytes ∧ RoomToGrow J fs ∧
      entries J fs = .ok (sortEntries (queued J fs))) ∧
    ∀ op : Op, op.Updating →
      (∀ err, (op.exec J fs).outcome = .error err → err.isCapacity = true →
        ∃ id, op.LooksUp J fs id ∧ Oversized start id) ∧
      ∀ fs', op.Leaves J fs fs' → accountedBytes J fs' = accountedBytes J fs ∨
        (∃ fresh, op = .recoverWorkerState fresh) ∧ ∃ e ∈ queued J fs, RemovedByJournal J fs e ∧
          accountedBytes J fs' + e.weight = accountedBytes J fs := by
  have ha := h.accounted hformat
  refine ⟨⟨ha.count, ha.budget, ha.withinLimits.growth, ha.covered.entries_eq⟩, fun op hop => ?_⟩
  refine ⟨fun err he hc => ?_, fun fs' hl => ha.updating_bytes hop hl⟩
  obtain ⟨id, hlook, hlarge⟩ := ha.covered.updating_capacity hop he hc
  exact ⟨id, hlook, h.oversized hlarge⟩

/-! ## Entries of any size -/

/-- The same entry with another comment text. -/
def StoredEntry.withBody (e : StoredEntry) (body : String) : StoredEntry :=
  { e with request := { e.request with body := body } }

theorem StoredEntry.length_withBody (e : StoredEntry) (body : String) :
    (e.withBody body).toVecPretty.length + (quote e.request.body).length =
      e.toVecPretty.length + (quote body).length := by
  unfold StoredEntry.withBody StoredEntry.toVecPretty StoredEntry.members CommentRequest.members
    prettyObject
  by_cases hi : e.incarnation = ""
  · simp only [hi, ↓reduceIte, List.append_nil, List.cons_append, List.nil_append, List.map_cons,
      List.map_nil, List.intercalate_cons_cons, List.intercalate_singleton, List.length_cons,
      List.length_append, List.length_nil]
    omega
  · simp only [hi, ↓reduceIte, List.cons_append, List.nil_append, List.map_cons, List.map_nil,
      List.intercalate_cons_cons, List.intercalate_singleton, List.length_cons, List.length_append,
      List.length_nil]
    omega

/-- An entry whose comment is empty. -/
def sampleBlank : StoredEntry :=
  ⟨"4e881b86", (sampleUuid 1).text, 0, 0, 1000, 0, none, { sampleRequest with body := "" }⟩

theorem length_sampleBlank : sampleBlank.toVecPretty.length = 282 := by decide +kernel

/-- An entry with a comment of `n` letters. -/
def sampleLong (n : Nat) : StoredEntry :=
  sampleBlank.withBody (String.ofList (List.replicate n 'a'))

theorem length_sampleLong (n : Nat) : (sampleLong n).toVecPretty.length = n + 282 := by
  have hbody := sampleBlank.length_withBody (String.ofList (List.replicate n 'a'))
  have hempty : (quote sampleBlank.request.body).length = 2 := by decide
  rw [length_quote_replicate, hempty, length_sampleBlank] at hbody
  unfold sampleLong
  omega

/-- A directory with one file. -/
def loneFile (id : String) (bytes : Bytes) : QueueFs := QueueFs.empty.write bytes (.entry id)

section Lone

variable {id : String} {bytes : Bytes}

theorem lookup_loneFile : (loneFile id bytes).entries.lookup id = some (.file bytes) :=
  AList.lookup_insert _

theorem lookup_loneFile_some {name : String} {node : Node}
    (h : (loneFile id bytes).entries.lookup name = some node) : name = id ∧ node = .file bytes := by
  by_cases hid : name = id
  · rw [hid, lookup_loneFile] at h
    exact ⟨hid, (Option.some.inj h).symm⟩
  · have hnone : (loneFile id bytes).entries.lookup name = none := AList.lookup_insert_ne hid
    rw [hnone] at h
    cases h

theorem fileCount_loneFile : fileCount (loneFile id bytes) = 1 :=
  fileCount_write QueueFs.empty id bytes

theorem usedBytes_loneFile : usedBytes (loneFile id bytes) = bytes.length :=
  usedBytes_write QueueFs.empty id bytes

/-- A file that holds an entry of its name is the queue. -/
theorem queued_loneFile {e : StoredEntry} (h : itemEntry J ⟨id, .file bytes⟩ = some e) :
    queued J (loneFile id bytes) = [e] :=
  NameReader.values_insert (r := entryReader J) QueueFs.empty.entries h

/-- A file too large to be read is skipped: the queue is empty, and there is nothing to do. -/
theorem normalized_loneFile (hlarge : maxEntryBytes < bytes.length)
    (hle : bytes.length ≤ maxQueueBytes) : Normalized J (loneFile id bytes) := by
  have hread : readEntryBytes J bytes = .error (.entryTooLarge bytes.length maxEntryBytes) := by
    rw [readEntryBytes_eq, if_pos hlarge]
  have hempty : queued J (loneFile id bytes) = [] := by
    apply List.eq_nil_iff_forall_not_mem.2
    intro e he
    obtain ⟨-, b, hl, hr⟩ := mem_queued.1 he
    obtain ⟨-, hb⟩ := lookup_loneFile_some hl
    cases hb
    rw [hread] at hr
    cases hr
  have hnone : ∀ x, x ∉ queued J (loneFile id bytes) := by
    rw [hempty]
    exact fun x hx => List.not_mem_nil hx
  refine ⟨rfl, fun x hx => absurd hx (hnone x), fun x hx => absurd hx (hnone x),
    fun x hx => absurd hx (hnone x), ⟨?_, ?_, ?_⟩, ?_⟩
  · rw [fileCount_loneFile]
    decide
  · rw [usedBytes_loneFile]
    exact hle
  · intro name b e hl hi
    obtain ⟨b', hp, hr, hv⟩ := itemEntry_eq_some.1 hi
    obtain ⟨rfl, rfl⟩ : name = e.id ∧ b = b' := by simpa using hp
    exact absurd (mem_queued.2 ⟨hv, b, hl, hr⟩) (hnone e)
  · unfold accountedBytes reservedBytes
    rw [usedBytes_loneFile, hempty]
    exact hle

theorem find_loneFile (hv : isValidId id = true) (hlarge : maxEntryBytes < bytes.length) :
    find J (loneFile id bytes) id = .error (.entryTooLarge bytes.length maxEntryBytes) := by
  unfold find readEntry
  rw [if_pos hv, lookup_loneFile]
  simp only [readEntryBytes_eq]
  rw [if_pos hlarge]

end Lone

/-- An entry file as the store would write it, too large for the store to read: it is accepted at
startup, and moving it to the front reports its size. -/
theorem oversized_entry_rejected :
    ∃ e : StoredEntry, isValidId e.id = true ∧ e.claimToken = none ∧
      openStore serdeJson (fun _ => sampleUuid 4) (loneFile e.id e.toVecPretty) = ⟨.ok (), []⟩ ∧
      bump serdeJson e.id (loneFile e.id e.toVecPretty) =
        ⟨.error (.entryTooLarge e.toVecPretty.length maxEntryBytes), []⟩ := by
  have hsizes : ∃ n, maxEntryBytes ≤ n ∧ n + 282 ≤ maxQueueBytes :=
    ⟨maxEntryBytes, Nat.le_refl _, by decide⟩
  obtain ⟨n, hlow, hhigh⟩ := hsizes
  have hlength := length_sampleLong n
  have hv : isValidId (sampleLong n).id = true := by
    change isValidId "4e881b86" = true
    decide
  have hnormal : Normalized serdeJson (loneFile (sampleLong n).id (sampleLong n).toVecPretty) :=
    normalized_loneFile (by omega) (by omega)
  have hfind := @find_loneFile serdeJson _ (sampleLong n).toVecPretty hv (by omega)
  exact ⟨sampleLong n, hv, rfl, hnormal.openStore_eq _,
    run_bind (run_read_ok (entries_eq hnormal.limits)) (run_bind_error (run_find_error hfind))⟩

theorem StoreFormat.of_clean (h : Clean J fs) : StoreFormat J fs :=
  ⟨h.accounted.native, h.accounted.sized⟩

/-- Every file of a clean directory can be read. -/
theorem Clean.not_oversized (h : Clean J fs) (id : String) : ¬ Oversized fs id := by
  rintro ⟨bytes, hl, hlarge⟩
  obtain ⟨e, he, rfl⟩ := h.readable hl
  obtain ⟨-, bytes', hl', hr⟩ := mem_queued.1 he
  obtain rfl : bytes' = bytes := by simpa using hl'.symm.trans hl
  rw [readEntryBytes_eq, if_pos hlarge] at hr
  cases hr

/-- A queue of two comments, the first of them claimed. -/
def sampleStocked : QueueFs :=
  afterCalls serdeJson [.put sampleRequest ⟨900, 0, true⟩ 1000 (sampleUuid 1),
    .put { sampleRequest with body := "pong" } ⟨900, 0, false⟩ 1001 (sampleUuid 2),
    .claimNextDue 900 1001 (sampleUuid 3)]

/-- The queue after it was opened again, a third comment was put and the first was claimed again. -/
def sampleRestocked : QueueFs :=
  let put := Op.put { sampleRequest with body := "pang" } ⟨900, 0, false⟩ 1002 (sampleUuid 5)
  let claim := Op.claimNextDue 900 1002 (sampleUuid 6)
  final (claim.exec serdeJson) (final (put.exec serdeJson)
    (final (openStore serdeJson fun _ => sampleUuid 4) sampleStocked))

theorem sampleRestocked_eq :
    (openStore serdeJson (fun _ => sampleUuid 4) sampleStocked).outcome = .ok () ∧
    fileCount sampleStocked = 2 ∧ fileCount sampleRestocked = 3 ∧
    ∃ e ∈ queued serdeJson sampleRestocked, e.claimToken = some (sampleUuid 6).text := by
  decide +kernel

/-- In a queue that was opened with two comments and then got a third and a claim, every update has
the room it needs. -/
theorem capacity_reserved_restocked :
    fileCount sampleStocked = 2 ∧ fileCount sampleRestocked = 3 ∧
    (∃ e ∈ queued serdeJson sampleRestocked, e.claimToken = some (sampleUuid 6).text) ∧
    accountedBytes serdeJson sampleRestocked ≤ maxQueueBytes ∧
    ∀ op : Op, op.Updating → ∀ err, (op.exec serdeJson sampleRestocked).outcome = .error err →
      err.isCapacity = false := by
  obtain ⟨hok, hstart, hend, hclaim⟩ := sampleRestocked_eq
  have hclean : Clean serdeJson sampleStocked :=
    (reachable_afterCalls (by simp [Op.Sound])).clean
  have hrun : OpenedRun serdeJson (fun _ => True) sampleStocked sampleRestocked := by
    let put := Op.put { sampleRequest with body := "pang" } ⟨900, 0, false⟩ 1002 (sampleUuid 5)
    let claim := Op.claimNextDue 900 1002 (sampleUuid 6)
    have hopened : OpenedRun serdeJson (fun _ => True) sampleStocked _ := .opened hok
    have hput := hopened.call (show put.Sound from trivial) (fun _ => trivial)
      (put.leaves_final _ _)
    exact hput.call (show claim.Sound from trivial) (fun _ => trivial) (claim.leaves_final _ _)
  obtain ⟨⟨-, hbudget, -, -⟩, hcalls⟩ := capacity_reserved (.of_clean hclean) hrun
  refine ⟨hstart, hend, hclaim, hbudget, fun op hop err he => ?_⟩
  cases hc : err.isCapacity with
  | false => rfl
  | true =>
    obtain ⟨id, -, hlarge⟩ := (hcalls op hop).1 err he hc
    exact absurd hlarge (hclean.not_oversized id)

end Comenq
