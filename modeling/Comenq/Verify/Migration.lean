import Comenq.Verify.Reservation

/-!
# Older formats at startup

Opening a store rewrites entries in the store's own form, one file at a time, and later updates do
so with the others. A directory of an older release may pass the check made at startup and still be
short of the bytes that this takes: opening then fails after it has rewritten files.

It is enough that the limits also have room for the store's own form of every entry (`Padded`).
Where no entry takes more than that form, the condition is exact: rewriting an entry moves bytes
from `missingBytes` to `accountedBytes` and keeps their sum (`Migrating`), and moving every entry to
the front leaves nothing missing.
-/

namespace Comenq

open Saturating JsonText Directory Traced CrashTrace

variable {J : SerdeJson} {fs start : QueueFs}

/-! ## Room for every entry -/

namespace Roomy

theorem succeeds_reconcileAwaitDeletions (h : Roomy J fs) :
    Succeeds (reconcileAwaitDeletions J) fs fun _ fs' => Roomy J fs' := by
  have hv : ∀ e ∈ sortEntries (queued J fs), isValidId e.id = true := fun e he =>
    isValidId_of_mem (mem_sortEntries.1 he)
  refine succeeds_read_bind (entries_eq h.limits)
    (succeeds_bind (Clean.succeeds_removeMarkers hv false) ?_)
  rintro removed fs₁ ⟨hfs₁, -⟩
  have h₁ : Roomy J fs₁ := h.congr (by rw [hfs₁])
  exact succeeds_when (fun _ => succeeds_emit (h₁.congr rfl)) fun _ => h₁

/-- Opening succeeds, and no claim is left. -/
theorem succeeds_openStore (h : Roomy J fs) (hvalid : validateExistingLimits J fs = .ok ())
    (hnone : fs.completion = none) (fresh : String → Uuid) :
    Succeeds (openStore J fresh) fs fun _ fs' => Covered J fs' := by
  have hopen : Succeeds (openStore J fresh) fs fun _ fs' => Roomy J fs' := by
    refine succeeds_bind (Q := fun _ fs₁ => fs₁ = fs)
      ⟨(), [], Clean.reconcileCompletion_none hnone, rfl⟩ ?_
    rintro _ _ rfl
    refine succeeds_read_bind hvalid
      (succeeds_bind (h.succeeds_reclaimClaims fresh) fun _ fs₁ h₁ => ?_)
    exact h₁.succeeds_reconcileAwaitDeletions
  obtain ⟨u, t, hrun, hroomy⟩ := hopen
  have hok : (openStore J fresh fs).outcome = .ok () := by rw [hrun]
  obtain ⟨hnormal, -⟩ := (leadsTo_openStore fresh).post () hok
  unfold final at hnormal
  rw [hrun] at hnormal
  exact ⟨u, t, hrun, hroomy, fun hx => sized_of_none (hnormal.unclaimed _ hx)⟩

end Roomy

/-- An opening refused by the check at startup has written nothing. -/
theorem openStore_refused (hnone : fs.completion = none) {err : StoreError}
    (h : validateExistingLimits J fs = .error err) (fresh : String → Uuid) :
    openStore J fresh fs = ⟨.error err, []⟩ :=
  run_bind (Clean.reconcileCompletion_none hnone) (run_bind_error (run_read_error h))

theorem WithinLimits.enroll (h : WithinLimits J fs) {e : StoredEntry} (hv : isValidId e.id = true)
    (hcount : fileCount fs + 1 ≤ maxQueueEntries)
    (hsize : e.toVecPretty.length ≤ maxEntryBytes - entryMutationHeadroomBytes)
    (hbudget : accountedBytes J fs + e.weight ≤ maxQueueBytes)
    (hlife : ∃ u : Uuid, e.incarnation = u.text) :
    WithinLimits J (fs.write e.toVecPretty (.entry e.id)) := by
  have hc := fileCount_split fs e.id
  have hu := usedBytes_split fs e.id
  unfold accountedBytes StoredEntry.weight at hbudget
  refine ⟨?_, ?_, h.growth_write hv (by omega) (StoredEntry.reach_le_of_new hsize hlife)⟩
  · rw [fileCount_write]
    omega
  · rw [usedBytes_write]
    omega

/-- A new entry stays within the limits, and its claim is no wider than a UUID. -/
theorem Covered.leaves_put {fs' : QueueFs} (h : Covered J fs) {op : Op} (hs : op.Sound)
    (hn : op.Enrolls) (hl : op.Leaves J fs fs') (hp : Padded J fs') : Covered J fs' := by
  have hboth : WithinLimits J fs' ∧ ∀ e ∈ queued J fs', e.Sized := by
    refine Op.leaves_of_changes (I := fun g => WithinLimits J g ∧ ∀ e ∈ queued J g, e.Sized) hs hl
      ⟨h.limits, fun e he => h.sized he⟩ ?_
    rintro g k ev ⟨hlimits, hsized⟩ hk hc
    cases op with
    | put =>
      obtain ⟨id, hkind⟩ := hk
      cases hc with
      | @enroll e hv _ _ hcount hsize hbudget hclaim hlife =>
        refine ⟨hlimits.enroll hv hcount hsize hbudget hlife, fun x hx => ?_⟩
        rcases (mem_queued_write hv (by omega)).1 hx with rfl | ⟨hx, -⟩
        · exact sized_of_none hclaim
        · exact hsized x hx
      | update _ _ hrewrites =>
        rw [hkind] at hrewrites
        exact hrewrites.elim
      | _ => cases hkind
    | _ => exact hn.elim
  exact ⟨⟨hboth.1, hp⟩, fun he => hboth.2 _ he⟩

theorem OpenedRun.covered (hnone : start.completion = none)
    (hpadded : validateExistingLimits J start = .ok () → Padded J start)
    (h : OpenedRun J (Padded J) start fs) : Covered J fs := by
  induction h with
  | @opened fresh hok =>
    cases hvalid : validateExistingLimits J start with
    | error err =>
      rw [openStore_refused hnone hvalid fresh] at hok
      cases hok
    | ok u =>
      have hroomy : Roomy J start := ⟨(limits_of_validate hvalid).1, hpadded hvalid⟩
      obtain ⟨_, -, hfinal⟩ := (hroomy.succeeds_openStore hvalid hnone fresh).final
      exact hfinal
  | @call g g' op hrun hs hput hl ih =>
    by_cases hn : op.Enrolls
    · exact ih.leaves_put hs hn hl (hput hn)
    · exact ih.leaves hs hn hl

/-- Startup fails closed: an opening succeeds, or the check at startup refuses it and nothing is
written; and no later update is refused for want of room, as long as what is added leaves room for
the entries. Only a file that was too large to be read from the start is reported as such. -/
def FailsClosed (J : SerdeJson) (start : QueueFs) : Prop :=
  (∀ fresh, (openStore J fresh start).outcome = .ok () ∨
    ∃ err, validateExistingLimits J start = .error err ∧
      openStore J fresh start = ⟨.error err, []⟩) ∧
  ∀ fs, OpenedRun J (Padded J) start fs → ∀ op : Op, op.Updating →
    ∀ err, (op.exec J fs).outcome = .error err → err.isCapacity = true →
      ∃ id, op.LooksUp J fs id ∧ Oversized start id

theorem failsClosed_of_padded (hnone : start.completion = none)
    (hpadded : validateExistingLimits J start = .ok () → Padded J start) : FailsClosed J start := by
  constructor
  · intro fresh
    cases hvalid : validateExistingLimits J start with
    | error err => exact Or.inr ⟨err, rfl, openStore_refused hnone hvalid fresh⟩
    | ok u =>
      have hroomy : Roomy J start := ⟨(limits_of_validate hvalid).1, hpadded hvalid⟩
      obtain ⟨_, hok, -⟩ := (hroomy.succeeds_openStore hvalid hnone fresh).final
      exact Or.inl hok
  · intro fs hrun op hop err he hc
    obtain ⟨id, hlook, hlarge⟩ := (OpenedRun.covered hnone hpadded hrun).updating_capacity hop he hc
    exact ⟨id, hlook, hrun.oversized hlarge⟩

/-! ## Rewriting every entry -/

theorem share_write_self (fs : QueueFs) (e : StoredEntry) :
    share (fs.write e.toVecPretty (.entry e.id)) e = e.weight := by
  unfold share StoredEntry.weight
  rw [sizeAt_write]
  simp

theorem share_write_ne {e x : StoredEntry} (h : x.id ≠ e.id) :
    share (fs.write e.toVecPretty (.entry e.id)) x = share fs x := by
  have hl : (fs.write e.toVecPretty (.entry e.id)).entries.lookup x.id = fs.entries.lookup x.id :=
    AList.lookup_insert_ne h
  unfold share sizeAt
  rw [hl]

/-- Entries on their way to the store's own form: the bytes they take and those they lack add up to
what they did in `start`, and every entry can still grow as far as it could. -/
structure Migrating (J : SerdeJson) (start fs : QueueFs) : Prop where
  total : accountedBytes J fs + missingBytes J fs = accountedBytes J start + missingBytes J start
  short : ∀ x ∈ queued J fs, share fs x ≤ x.unclaimed.weight
  origin : ∀ e ∈ queued J start, ∃ x ∈ queued J fs, x.id = e.id ∧
    x.unclaimed.reach = e.unclaimed.reach

namespace Migrating

theorem congr {fs' : QueueFs} (h : Migrating J start fs) (he : fs'.entries = fs.entries) :
    Migrating J start fs' := by
  have hq : queued J fs' = queued J fs := queued_congr he
  have hshare : share fs' = share fs := by
    funext x
    unfold share sizeAt
    rw [he]
  have hmissing : missingBytes J fs' = missingBytes J fs := by
    unfold missingBytes shortfall
    rw [hq, hshare]
  refine ⟨?_, ?_, ?_⟩
  · rw [accountedBytes_congr he, hmissing]
    exact h.total
  · rw [hq, hshare]
    exact h.short
  · rw [hq]
    exact h.origin

theorem rewrite (h : Migrating J start fs) {e e' : StoredEntry} (he : e ∈ queued J fs)
    (hu : e.Updates e') (hsized : e'.Sized) (hsize : e'.toVecPretty.length ≤ maxEntryBytes) :
    Migrating J start (fs.write e'.toVecPretty (.entry e'.id)) := by
  have hv : isValidId e'.id = true := hu.id_eq ▸ isValidId_of_mem he
  refine ⟨?_, ?_, ?_⟩
  · have hsplit := padded_split he
    have hshort := h.short e he
    rw [accountedBytes_write hv hsize, missingBytes_write hv hsize hsized, hu.id_eq,
      hu.weight_unclaimed hsized, ← h.total]
    omega
  · intro x hx
    rcases (mem_queued_write hv hsize).1 hx with rfl | ⟨hx, hne⟩
    · rw [share_write_self, StoredEntry.weight_eq hsized, x.weight_unclaimed]
    · rw [share_write_ne hne]
      exact h.short x hx
  · intro y hy
    obtain ⟨x, hx, hid, hreach⟩ := h.origin y hy
    by_cases hne : x.id = e'.id
    · obtain rfl : x = e := eq_of_mem_queued hx he (hne.trans hu.id_eq)
      refine ⟨e', (mem_queued_write hv hsize).2 (Or.inl rfl), hne.symm.trans hid, ?_⟩
      rw [e'.reach_unclaimed, hu.rigidBytes_eq, hu.lifetimeBytes_eq, ← x.reach_unclaimed]
      exact hreach
    · exact ⟨x, (mem_queued_write hv hsize).2 (Or.inr ⟨hx, hne⟩), hid, hreach⟩

/-- Opening rewrites the entries that carry a claim or lack a lifetime. -/
theorem openStore (hnone : start.completion = none)
    (hshort : ∀ e ∈ queued J start, share start e ≤ e.unclaimed.weight) (fresh : String → Uuid) :
    Migrating J start (final (openStore J fresh) start) := by
  have hl := Op.leaves_final J (.reopen fresh) start
  rw [Op.exec, final_map] at hl
  have hpending : pendingCompletion J start = none := by
    unfold pendingCompletion
    rw [hnone]
    rfl
  refine Op.leaves_of_changes (show (Op.reopen fresh).Sound from trivial) hl
    ⟨rfl, hshort, fun e he => ⟨e, he, rfl, rfl⟩⟩ ?_
  intro g k ev hg hk hc
  have hkind : (∃ id, k = .unclaim id) ∨ (∃ id, k = .tidy id) ∨ k = .sync := by
    rcases hk with ⟨c, hp, -⟩ | hk
    · rw [hpending] at hp
      cases hp
    · exact hk
  cases hc with
  | update he hu hrewrites hsize =>
    obtain ⟨id, rfl⟩ | ⟨id, rfl⟩ | rfl := hkind
    · exact hg.rewrite he hu (sized_of_none hrewrites.2.1) hsize
    · exact hrewrites.elim
    · exact hrewrites.elim
  | enroll | drop | take => simp at hkind
  | _ => exact hg.congr rfl

end Migrating

/-- Moving a queued entry to the front reports exhausted capacity, or it has found the directory
within its limits and written the entry in the store's own form. -/
theorem bump_cases {x : StoredEntry} (hx : x ∈ queued J fs) :
    (∃ err, err.isCapacity = true ∧ ((Op.bump x.id).exec J fs).outcome = .error err) ∨
    WithinLimits J fs ∧ ∃ x', x.Updates x' ∧ x'.toVecPretty.length ≤ maxEntryBytes ∧
      accountedBytes J (fs.remove (.entry x.id)) + x'.weight ≤ maxQueueBytes ∧
      final ((Op.bump x.id).exec J) fs = fs.write x'.toVecPretty (.entry x'.id) := by
  have hrefused : ∀ {err : StoreError}, err.isCapacity = true → bump J x.id fs = ⟨.error err, []⟩ →
      ∃ err, err.isCapacity = true ∧ ((Op.bump x.id).exec J fs).outcome = .error err := by
    intro err hc hrun
    refine ⟨err, hc, ?_⟩
    rw [Op.exec, outcome_map, hrun]
    rfl
  cases hscan : entriesWithUsage J fs with
  | error err =>
    have hentries : entries J fs = .error err := by
      unfold entries
      rw [hscan]
      rfl
    exact Or.inl (hrefused (entriesWithUsage_error hscan)
      (run_bind_error (run_read_error hentries)))
  | ok r =>
    have hw := withinLimits_of_ok hscan
    let x' := { x with order := headOrder x (sortEntries (queued J fs)) }
    have hu : x.Updates x' := x.updates_order _
    have hbump : ∀ {outcome trace}, writeEntry J x' fs = ⟨outcome, trace⟩ →
        bump J x.id fs = ⟨outcome, trace⟩ := by
      intro outcome trace hr
      exact run_bind (run_read_ok (entries_eq hw)) (run_bind (run_find (find_of_mem hx)) hr)
    cases hadmits : admitEntry J fs x' (usageOf J fs) with
    | error err =>
      have hc := admitEntry_replace_error hx hu.id_eq hw.count hadmits
      refine Or.inl (hrefused hc (hbump ?_))
      exact run_bind (run_read_ok (entriesWithUsage_eq hw))
        (run_bind_error (run_read_error hadmits))
    | ok u =>
      obtain ⟨hsize, hbudget⟩ := (admitEntry_replace_iff hx hu.id_eq hw.count).1 hadmits
      refine Or.inr ⟨hw, x', hu, hsize, hbudget, ?_⟩
      rw [Op.exec, final_map]
      unfold final
      rw [hbump (writeEntry_admitted hw hadmits)]
      rfl

/-- The entries that are not named in `todo` have been rewritten. -/
structure Rewritten (J : SerdeJson) (start fs : QueueFs) (todo : List String) : Prop
    extends Migrating J start fs where
  budget : accountedBytes J fs ≤ maxQueueBytes
  sized : ∀ x ∈ queued J fs, x.Sized
  done : ∀ x ∈ queued J fs, x.id ∉ todo → share fs x = x.weight

namespace Rewritten

theorem write {id : String} {todo : List String} (h : Rewritten J start fs (id :: todo))
    {x x' : StoredEntry} (hx : x ∈ queued J fs) (hid : x.id = id) (hu : x.Updates x')
    (hsize : x'.toVecPretty.length ≤ maxEntryBytes)
    (hbudget : accountedBytes J (fs.remove (.entry x.id)) + x'.weight ≤ maxQueueBytes) :
    Rewritten J start (fs.write x'.toVecPretty (.entry x'.id)) todo := by
  have hv : isValidId x'.id = true := hu.id_eq ▸ isValidId_of_mem hx
  have hsized := hu.sized (h.sized x hx)
  refine ⟨h.rewrite hx hu hsized hsize, ?_, ?_, ?_⟩
  · rw [accountedBytes_write hv hsize, hu.id_eq]
    omega
  · intro y hy
    rcases (mem_queued_write hv hsize).1 hy with rfl | ⟨hy, -⟩
    · exact hsized
    · exact h.sized y hy
  · intro y hy htodo
    rcases (mem_queued_write hv hsize).1 hy with rfl | ⟨hy, hne⟩
    · exact share_write_self fs y
    · rw [share_write_ne hne]
      refine h.done y hy fun hmem => ?_
      rcases List.mem_cons.1 hmem with hyid | hmem
      · exact hne (hyid.trans (hid.symm.trans hu.id_eq.symm))
      · exact htodo hmem

/-- Once all is rewritten, nothing is missing. -/
theorem missingBytes_eq (h : Rewritten J start fs []) : missingBytes J fs = 0 := by
  apply List.sum_eq_zero
  intro n hn
  obtain ⟨x, hx, rfl⟩ := List.mem_map.1 hn
  unfold shortfall
  rw [h.done x hx List.not_mem_nil, x.weight_unclaimed, StoredEntry.weight_eq (h.sized x hx),
    Nat.sub_self]

/-- An entry in the store's own form may grow as far as the scan has checked. -/
theorem reach_le (h : Rewritten J start fs []) (hw : WithinLimits J fs) {x : StoredEntry}
    (hx : x ∈ queued J fs) : x.unclaimed.reach ≤ maxEntryBytes := by
  obtain ⟨hv, bytes, hl, hr⟩ := mem_queued.1 hx
  have hgrowth := hw.growth x.id bytes x hl (itemEntry_eq_some.2 ⟨bytes, rfl, hr, hv⟩)
  have hshare := h.done x hx List.not_mem_nil
  unfold share sizeAt StoredEntry.weight at hshare
  rw [hl] at hshare
  rw [x.reach_unclaimed, ← StoredEntry.reach_eq (h.sized x hx)]
  unfold StoredEntry.reach
  simp only [List.sum_cons, List.sum_nil] at hshare
  omega

end Rewritten

section Converse

variable (hclosed : FailsClosed J start)
include hclosed

/-- Where startup fails closed, moving an entry of the start directory to the front is not
refused. -/
theorem FailsClosed.bump (hrun : OpenedRun J (Padded J) start fs) {e x : StoredEntry}
    (he : e ∈ queued J start) (hx : x ∈ queued J fs) (hid : x.id = e.id) :
    WithinLimits J fs ∧ ∃ x', x.Updates x' ∧ x'.toVecPretty.length ≤ maxEntryBytes ∧
      accountedBytes J (fs.remove (.entry x.id)) + x'.weight ≤ maxQueueBytes ∧
      OpenedRun J (Padded J) start (fs.write x'.toVecPretty (.entry x'.id)) := by
  rcases bump_cases hx with ⟨err, hc, hout⟩ | ⟨hw, x', hu, hsize, hbudget, hfinal⟩
  · obtain ⟨name, hlook, bytes, hl, hlarge⟩ := hclosed.2 fs hrun (.bump x.id) trivial err hout hc
    obtain rfl : name = x.id := hlook
    -- the entry could be read from the start
    obtain ⟨-, bytes', hl', hr⟩ := mem_queued.1 he
    rw [hid, hl'] at hl
    obtain rfl : bytes' = bytes := by simpa using hl
    rw [readEntryBytes_eq, if_pos hlarge] at hr
    cases hr
  · refine ⟨hw, x', hu, hsize, hbudget, ?_⟩
    have hnext := hrun.call (show (Op.bump x.id).Sound from trivial) (fun hn => hn.elim)
      (Op.leaves_final J (.bump x.id) fs)
    rwa [hfinal] at hnext

theorem FailsClosed.rewritten {todo : List String}
    (htodo : ∀ id ∈ todo, ∃ e ∈ queued J start, e.id = id)
    (hrun : OpenedRun J (Padded J) start fs) (h : Rewritten J start fs todo) :
    ∃ g, OpenedRun J (Padded J) start g ∧ Rewritten J start g [] := by
  induction todo generalizing fs with
  | nil => exact ⟨fs, hrun, h⟩
  | cons id todo ih =>
    obtain ⟨e, he, rfl⟩ := htodo id List.mem_cons_self
    obtain ⟨x, hx, hid, -⟩ := h.origin e he
    obtain ⟨-, x', hu, hsize, hbudget, hnext⟩ := hclosed.bump hrun he hx hid
    exact ih (fun name hname => htodo name (List.mem_cons_of_mem _ hname)) hnext
      (h.write hx hid hu hsize hbudget)

/-- Where no entry takes more than the store's own form of it, room for these forms is also
needed. -/
theorem padded_of_failsClosed (hnone : start.completion = none)
    (hvalid : validateExistingLimits J start = .ok ())
    (hshort : ∀ e ∈ queued J start, share start e ≤ e.unclaimed.weight) : Padded J start := by
  let fresh : String → Uuid := fun _ => sampleUuid 0
  have hok : (openStore J fresh start).outcome = .ok () := by
    rcases hclosed.1 fresh with hok | ⟨err, herr, -⟩
    · exact hok
    · rw [hvalid] at herr
      cases herr
  obtain ⟨hnormal, hkeeps⟩ := (leadsTo_openStore fresh).post () hok
  have hopened : Rewritten J start (final (openStore J fresh) start)
      ((queued J start).map StoredEntry.id) := by
    refine ⟨.openStore hnone hshort fresh, hnormal.budget,
      fun x hx => sized_of_none (hnormal.unclaimed x hx), fun x hx htodo => ?_⟩
    obtain ⟨e, he, -, rfl⟩ := (hkeeps.queue x).1 hx
    exact absurd (List.mem_map.2 ⟨e, he, rfl⟩) htodo
  obtain ⟨g, hrun, hg⟩ := hclosed.rewritten (fun id hid => List.mem_map.1 hid) (.opened hok) hopened
  refine ⟨?_, ?_⟩
  · rw [← hg.total, hg.missingBytes_eq, Nat.add_zero]
    exact hg.budget
  · intro e he
    obtain ⟨x, hx, hid, hreach⟩ := hg.origin e he
    obtain ⟨hw, -⟩ := hclosed.bump hrun he hx hid
    rw [← hreach]
    exact hg.reach_le hw hx

end Converse

/-! ## Startup -/

/-- Startup fails closed where the limits also have room for the store's own form of every entry.
Where no entry takes more than that form, as in a directory of an older release whose files only
lack members, it fails closed in no other directory. -/
theorem startup_fails_closed (hnone : start.completion = none) :
    ((validateExistingLimits J start = .ok () → Padded J start) → FailsClosed J start) ∧
    ((∀ e ∈ queued J start, share start e ≤ e.unclaimed.weight) → FailsClosed J start →
      validateExistingLimits J start = .ok () → Padded J start) :=
  ⟨failsClosed_of_padded hnone, fun hshort hclosed hvalid =>
    padded_of_failsClosed hclosed hnone hvalid hshort⟩

/-- The two members an older file lacks besides the lifetime take 42 bytes. -/
theorem StoredEntry.length_legacyText {e : StoredEntry} (hi : e.incarnation = "")
    (hb : e.notBefore = 0) (hc : e.claimToken = none) :
    e.toVecPretty.length = e.legacyText.length + 42 := by
  have hfloor : (quote "not_before").length = 12 := by decide
  have hclaim : (quote "claim_token").length = 13 := by decide
  have hzero : (decimalU64 0).length = 1 := by decide
  have hnull : (orNull (Option.map quote none)).length = 4 := by decide
  unfold StoredEntry.toVecPretty StoredEntry.members StoredEntry.legacyText prettyObject
  simp only [hi, hb, hc, ↓reduceIte, List.append_nil, List.cons_append, List.nil_append,
    List.map_cons, List.map_nil, List.intercalate_cons_cons, List.intercalate_singleton,
    List.length_cons, List.length_append, List.length_nil, hfloor, hclaim, hzero, hnull, indent,
    List.length_replicate]
  omega

/-- Reclaiming a queue of one entry without a lifetime rewrites that entry. -/
theorem reclaimClaims_lone {J : SerdeJson} {fs : QueueFs} {e : StoredEntry} {fresh : String → Uuid}
    {trace : List FsEvent} (h : WithinLimits J fs) (hqueued : queued J fs = [e])
    (hi : e.incarnation = "")
    (hwrite : writeEntry J (e.reclaimed fresh) fs = ⟨.ok (), trace⟩) :
    reclaimClaims J fresh fs = ⟨.ok (), trace⟩ := by
  have hreclaim : reclaimFrom J fresh [e] fs = ⟨.ok (), trace⟩ := by
    have hblank : (e.incarnation == "") = true := beq_iff_eq.2 hi
    unfold reclaimFrom
    rw [hblank, Bool.or_true]
    exact (run_bind hwrite rfl).trans (by rw [List.append_nil])
  refine run_bind (run_read_ok (entries_eq h)) ?_
  rw [hqueued]
  exact hreclaim

section Legacy

variable {J : SerdeJson} {e : StoredEntry} (hjson : J.entry e.legacyText = some e)
  (hi : e.incarnation = "") (hb : e.notBefore = 0) (hc : e.claimToken = none) (ho : e.order = 0)
  (hhigh : e.legacyText.length + 110 ≤ maxEntryBytes)
include hjson hi hb hc ho hhigh

/-- The entry is read, and the sizes of its file: as it is, and as the store would rewrite it. -/
theorem legacy_sizes (fresh : String → Uuid) :
    readEntryBytes J e.legacyText = .ok e ∧
    maximumMutationGrowth e = 110 ∧ entryHeadroom e = 137 ∧
    (e.reclaimed fresh).reach = e.legacyText.length + 152 ∧
    (e.reclaimed fresh).toVecPretty.length = e.legacyText.length + 99 ∧
    (e.reclaimed fresh).weight = e.legacyText.length + 179 := by
  have hu := e.updates_reclaimed fresh
  have hsized : e.Sized := sized_of_none hc
  have hlength := StoredEntry.length_legacyText hi hb hc
  have horder : (decimal e.order.toInt).length = 1 := by rw [ho]; decide
  have horder' : (decimal (e.reclaimed fresh).order.toInt).length = 1 := horder
  have hclaim : e.claimText.length = 4 := by unfold StoredEntry.claimText; rw [hc]; decide
  have hclaim' : (e.reclaimed fresh).claimText.length = 4 := by
    change (orNull (Option.map quote none)).length = 4
    decide
  have hlife : incarnationGrowth e = 57 := if_pos hi
  have hlife' : incarnationGrowth (e.reclaimed fresh) = 0 :=
    if_neg (e.incarnation_reclaimed_ne fresh)
  have hgrowth : maximumMutationGrowth e = 110 := by
    rw [maximumMutationGrowth_eq, horder, hclaim, hlife]
  have hgrowth' : maximumMutationGrowth (e.reclaimed fresh) = 53 := by
    rw [maximumMutationGrowth_eq, horder', hclaim', hlife']
  have hheadroom : entryHeadroom e = 137 := by
    rw [entryHeadroom_eq, horder, hclaim, hlife]
    rfl
  have hreach := hu.reach_eq hsized
  have hweight := hu.weight_eq hsized
  unfold StoredEntry.reach at hreach
  unfold StoredEntry.weight at hweight
  refine ⟨?_, hgrowth, hheadroom, ?_, by omega, ?_⟩
  · rw [readEntryBytes_eq, if_neg (by omega), hjson]
  · unfold StoredEntry.reach
    omega
  · unfold StoredEntry.weight
    omega

/-- The check at startup accepts the directory whose only file is that of the entry. -/
theorem legacy_accepted (hv : isValidId e.id = true) (fresh : String → Uuid) :
    queued J (loneFile e.id e.legacyText) = [e] ∧ WithinLimits J (loneFile e.id e.legacyText) ∧
    validateExistingLimits J (loneFile e.id e.legacyText) = .ok () := by
  obtain ⟨hread, hgrowth, hheadroom, -, -, -⟩ := legacy_sizes hjson hi hb hc ho hhigh fresh
  have hroom : maxEntryBytes + 200 ≤ maxQueueBytes := by decide
  have hitem : itemEntry J ⟨e.id, .file e.legacyText⟩ = some e :=
    itemEntry_eq_some.2 ⟨_, rfl, hread, hv⟩
  have hqueued : queued J (loneFile e.id e.legacyText) = [e] := queued_loneFile hitem
  have haccounted : accountedBytes J (loneFile e.id e.legacyText) = e.legacyText.length + 137 := by
    unfold accountedBytes reservedBytes
    rw [usedBytes_loneFile, hqueued]
    simp [hheadroom]
  have hlimits : WithinLimits J (loneFile e.id e.legacyText) := by
    refine ⟨by rw [fileCount_loneFile]; decide, by rw [usedBytes_loneFile]; omega, ?_⟩
    intro name b x hl hx
    obtain ⟨rfl, hbytes⟩ := lookup_loneFile_some hl
    cases hbytes
    rw [hitem] at hx
    obtain rfl := Option.some.inj hx
    omega
  exact ⟨hqueued, hlimits, validateExistingLimits_ok hlimits (by omega)⟩

/-- Opening a directory with one file of an older release, close to the size limit: the check at
startup accepts it, the file is rewritten, and the next scan finds it too large. -/
theorem openStore_legacy (hv : isValidId e.id = true)
    (hlow : maxEntryBytes < e.legacyText.length + 152) (fresh : String → Uuid) :
    validateExistingLimits J (loneFile e.id e.legacyText) = .ok () ∧
    ∃ err, err.isCapacity = true ∧ openStore J fresh (loneFile e.id e.legacyText) =
      ⟨.error err, [.writeAtomic (.entry e.id) (e.reclaimed fresh).toVecPretty]⟩ := by
  obtain ⟨-, -, -, hreach, hsize, hweight⟩ := legacy_sizes hjson hi hb hc ho hhigh fresh
  obtain ⟨hqueued, hlimits, hvalid⟩ := legacy_accepted hjson hi hb hc ho hhigh hv fresh
  have hroom : maxEntryBytes + 200 ≤ maxQueueBytes := by decide
  have he : e ∈ queued J (loneFile e.id e.legacyText) := hqueued ▸ List.mem_singleton_self e
  have hrest : accountedBytes J ((loneFile e.id e.legacyText).remove (.entry e.id)) = 0 := by
    unfold loneFile
    rw [remove_write]
    rfl
  refine ⟨hvalid, ?_⟩
  -- reclaiming gives the entry its lifetime
  have hadmits : admitEntry J (loneFile e.id e.legacyText) (e.reclaimed fresh)
      (usageOf J (loneFile e.id e.legacyText)) = .ok () := by
    have hid : (e.reclaimed fresh).id = e.id := rfl
    apply (admitEntry_replace_iff he hid hlimits.count).2
    rw [hrest]
    omega
  have hwrite : writeEntry J (e.reclaimed fresh) (loneFile e.id e.legacyText) =
      ⟨.ok (), [.writeAtomic (.entry e.id) (e.reclaimed fresh).toVecPretty]⟩ :=
    writeEntry_admitted hlimits hadmits
  have hreclaim : reclaimClaims J fresh (loneFile e.id e.legacyText) =
      ⟨.ok (), [.writeAtomic (.entry e.id) (e.reclaimed fresh).toVecPretty]⟩ :=
    reclaimClaims_lone hlimits hqueued hi hwrite
  -- the rewritten file is over the limit that the next scan enforces
  have hv' : isValidId (e.reclaimed fresh).id = true := hv
  have hsize' : (e.reclaimed fresh).toVecPretty.length ≤ maxEntryBytes := by omega
  have hlarge : ∃ err, entriesWithUsage J
      ((loneFile e.id e.legacyText).write (e.reclaimed fresh).toVecPretty (.entry e.id)) =
      .error err := by
    cases hscan : entriesWithUsage J
        ((loneFile e.id e.legacyText).write (e.reclaimed fresh).toVecPretty (.entry e.id)) with
    | error err => exact ⟨err, rfl⟩
    | ok r =>
      have hgrow := (withinLimits_of_ok hscan).growth e.id _ (e.reclaimed fresh)
        (AList.lookup_insert _) (itemEntry_toVecPretty hv' hsize')
      unfold StoredEntry.reach at hreach
      omega
  obtain ⟨err, hscan⟩ := hlarge
  have hentries : entries J
      ((loneFile e.id e.legacyText).write (e.reclaimed fresh).toVecPretty (.entry e.id)) =
      .error err := by
    unfold entries
    rw [hscan]
    rfl
  refine ⟨err, entriesWithUsage_error hscan, ?_⟩
  exact run_bind (Clean.reconcileCompletion_none rfl) (run_bind (run_read_ok hvalid)
    (run_bind hreclaim (run_bind_error (run_read_error hentries))))

end Legacy

theorem serdeJson_legacyText {e : StoredEntry} (hi : e.incarnation = "") (hb : e.notBefore = 0)
    (hc : e.claimToken = none) : serdeJson.entry e.legacyText = some e := by
  have hentry : serdeJson.entry = Codec.whole Codec.entry := rfl
  rw [hentry]
  exact Codec.whole_of (Codec.entry_legacyText hi hb hc [])

/-- An entry without a lifetime, a floor or a claim. -/
def sampleLegacy (body : String) : StoredEntry :=
  { sampleBlank with incarnation := "" }.withBody body

theorem length_sampleLegacy (n : Nat) :
    (sampleLegacy (String.ofList (List.replicate n 'a'))).legacyText.length = n + 183 := by
  have hbody := { sampleBlank with incarnation := "" }.length_withBody
    (String.ofList (List.replicate n 'a'))
  have hempty : (quote sampleBlank.request.body).length = 2 := by decide
  have hblank : { sampleBlank with incarnation := "" }.toVecPretty.length = 225 := by decide +kernel
  rw [length_quote_replicate, hempty, hblank] at hbody
  have hlegacy := @StoredEntry.length_legacyText
    (sampleLegacy (String.ofList (List.replicate n 'a'))) rfl rfl rfl
  unfold sampleLegacy at hlegacy ⊢
  omega

/-- A file of an older release passes the check at startup, is rewritten, and then is too large. -/
theorem legacy_rewritten_then_rejected :
    ∃ e : StoredEntry, (loneFile e.id e.legacyText).completion = none ∧
      validateExistingLimits serdeJson (loneFile e.id e.legacyText) = .ok () ∧
      ∃ err, err.isCapacity = true ∧
        openStore serdeJson (fun _ => sampleUuid 4) (loneFile e.id e.legacyText) =
          ⟨.error err,
            [.writeAtomic (.entry e.id) (e.reclaimed fun _ => sampleUuid 4).toVecPretty]⟩ := by
  have hsizes : ∃ n, n + 293 ≤ maxEntryBytes ∧ maxEntryBytes < n + 335 :=
    ⟨maxEntryBytes - 293, by decide, by decide⟩
  obtain ⟨n, hhigh, hlow⟩ := hsizes
  have hlength := length_sampleLegacy n
  have hv : isValidId (sampleLegacy (String.ofList (List.replicate n 'a'))).id = true := by
    change isValidId "4e881b86" = true
    decide
  exact ⟨sampleLegacy (String.ofList (List.replicate n 'a')), rfl,
    openStore_legacy (serdeJson_legacyText rfl rfl rfl) rfl rfl rfl rfl (by omega) hv (by omega) _⟩

/-- An entry with a claim that is not of UUID width. -/
def sampleForeign : StoredEntry :=
  { sampleBlank with id := "0000000a", claimToken := some "worker" }

/-- A directory with a file of an older release and one with a foreign claim. -/
def sampleOlder : QueueFs :=
  (loneFile "4e881b86" (sampleLegacy "ping").legacyText).write sampleForeign.toVecPretty
    (.entry sampleForeign.id)

theorem padded_sampleOlder : Padded serdeJson sampleOlder := by
  have hfacts : accountedBytes serdeJson sampleOlder + missingBytes serdeJson sampleOlder ≤
        maxQueueBytes ∧
      ∀ e ∈ queued serdeJson sampleOlder, e.unclaimed.reach ≤ maxEntryBytes := by
    decide +kernel
  exact ⟨hfacts.1, fun he => hfacts.2 _ he⟩

/-- Both entries are rewritten, and then a claim has the room it needs. -/
theorem startup_fails_closed_older :
    (queued serdeJson sampleOlder).length = 2 ∧ ¬ sampleForeign.Sized ∧
    (openStore serdeJson (fun _ => sampleUuid 4) sampleOlder).outcome = .ok () ∧
    ∀ err, ((Op.claimNextDue 900 1000 (sampleUuid 5)).exec serdeJson
      (final (openStore serdeJson fun _ => sampleUuid 4) sampleOlder)).outcome = .error err →
      err.isCapacity = false := by
  have hclosed := (@startup_fails_closed serdeJson sampleOlder rfl).1 fun _ => padded_sampleOlder
  have hfacts : (queued serdeJson sampleOlder).length = 2 ∧ sampleForeign.claimText.length = 8 ∧
      validateExistingLimits serdeJson sampleOlder = .ok () := by
    decide +kernel
  obtain ⟨hlength, hwidth, hvalid⟩ := hfacts
  have hok : (openStore serdeJson (fun _ => sampleUuid 4) sampleOlder).outcome = .ok () := by
    rcases hclosed.1 fun _ => sampleUuid 4 with hok | ⟨err, herr, -⟩
    · exact hok
    · rw [hvalid] at herr
      cases herr
  refine ⟨hlength, ?_, hok, fun err he => ?_⟩
  · unfold StoredEntry.Sized
    rw [hwidth]
    decide
  · cases hc : err.isCapacity with
    | false => rfl
    | true =>
      obtain ⟨id, hlook, -⟩ :=
        hclosed.2 _ (.opened hok) (.claimNextDue 900 1000 (sampleUuid 5)) trivial err he hc
      exact hlook.elim

end Comenq
