import Comenq.Daemon.SharedQueue
import Comenq.Verify.ListModel

/-!
# One wait for every entry

A client learns when its comment will be posted in three ways: `put` projects the queue with the new
entry pushed behind it, `claim_next_due` and `list` project the sorted directory, and an await
lookup reads a projection that all waiters share. They agree. The new entry's order key is behind
all others, so that sorting the directory after the write appends it; and the shared projection is
the schedule of the present directory at the second it was built (`QueueState.Coherent`), because
every call that changes the schedule drops it.
-/

namespace Comenq

open Traced CrashTrace KeyOrder

/-! ## Schedules -/

section Schedules

variable {J : SerdeJson} {fs fs' : QueueFs} {cooldown now : UInt64}
  {planned : List (StoredEntry × UInt64)} {id : String} {eta : UInt64}

/-- The schedule lists the wait `eta` for `id` and no other. -/
structure ListsEta (planned : List (StoredEntry × UInt64)) (id : String) (eta : UInt64) : Prop where
  listed : ∃ e, (e, eta) ∈ planned ∧ e.id = id
  only : ∀ p ∈ planned, p.1.id = id → p.2 = eta

theorem schedule_eq (cooldown now : UInt64) {previous : Option UInt64} (hw : WithinLimits J fs)
    (hp : previousActivity fs = .ok previous) :
    schedule J cooldown now fs =
      .ok (projectedSchedule cooldown now (sortEntries (queued J fs)) previous) := by
  unfold schedule
  rw [entries_eq hw, hp]
  rfl

theorem schedule_ok (h : schedule J cooldown now fs = .ok planned) :
    ∃ previous, WithinLimits J fs ∧ previousActivity fs = .ok previous ∧
      planned = projectedSchedule cooldown now (sortEntries (queued J fs)) previous := by
  unfold schedule at h
  cases he : entries J fs with
  | error e => rw [he] at h; cases h
  | ok es =>
    obtain ⟨hw, rfl⟩ := entries_ok he
    rw [he] at h
    cases hp : previousActivity fs with
    | error e => rw [hp] at h; cases h
    | ok previous =>
      rw [hp] at h
      exact ⟨previous, hw, rfl, (Except.ok.inj h).symm⟩

/-- The schedule reads the entry files and the two time markers only. -/
theorem schedule_congr (he : fs'.entries = fs.entries) (hp : fs'.lastPost = fs.lastPost)
    (ha : fs'.lastAttempt = fs.lastAttempt) :
    schedule J cooldown now fs' = schedule J cooldown now fs := by
  have hprevious : previousActivity fs' = previousActivity fs := by
    unfold previousActivity lastPost lastAttempt
    rw [hp, ha]
  have hentries : entries J fs' = entries J fs := by
    unfold entries entriesWithUsage scanEntryFiles
    rw [he]
  unfold schedule
  rw [hprevious, hentries]

theorem nodup_schedule (h : schedule J cooldown now fs = .ok planned) :
    (planned.map fun p => p.1.id).Nodup := by
  obtain ⟨previous, -, -, rfl⟩ := schedule_ok h
  have hids : (projectedSchedule cooldown now (sortEntries (queued J fs)) previous).map
      (fun p => p.1.id) = (sortEntries (queued J fs)).map StoredEntry.id := by
    conv_rhs => rw [← map_fst_projectedSchedule cooldown now (sortEntries _) previous, List.map_map]
    rfl
  rw [hids]
  exact Refines.nodup_sorted J fs

theorem mem_schedule (h : schedule J cooldown now fs = .ok planned) {e : StoredEntry}
    (he : e ∈ queued J fs) : ∃ eta, (e, eta) ∈ planned := by
  obtain ⟨previous, -, -, rfl⟩ := schedule_ok h
  have hm :
      e ∈ (projectedSchedule cooldown now (sortEntries (queued J fs)) previous).map Prod.fst := by
    rw [map_fst_projectedSchedule]
    exact mem_sortEntries.2 he
  obtain ⟨⟨x, eta⟩, hp, rfl⟩ := List.mem_map.1 hm
  exact ⟨eta, hp⟩

theorem listsEta_of_mem (hn : (planned.map fun p => p.1.id).Nodup) {e : StoredEntry}
    (h : (e, eta) ∈ planned) : ListsEta planned e.id eta := by
  refine ⟨⟨e, h, rfl⟩, fun p hp hid => ?_⟩
  have := List.inj_on_of_nodup_map hn hp h hid
  rw [this]

theorem ListsEta.etaOf_eq (h : ListsEta planned id eta) : etaOf planned id = eta := by
  obtain ⟨⟨e, he, hid⟩, honly⟩ := h
  unfold etaOf
  cases hf : planned.find? fun p => p.1.id = id with
  | none => exact absurd hid (by simpa using List.find?_eq_none.1 hf _ he)
  | some p =>
    obtain ⟨x, eta'⟩ := p
    exact honly _ (List.mem_of_find?_eq_some hf) (by simpa using List.find?_some hf)

/-- A listed identifier's wait, whichever of the two ways it is looked up. -/
theorem etaOf_listed (h : schedule J cooldown now fs = .ok planned) {e : StoredEntry}
    (he : e ∈ queued J fs) : ListsEta planned e.id (etaOf planned e.id) := by
  obtain ⟨eta, hm⟩ := mem_schedule h he
  have hl := listsEta_of_mem (nodup_schedule h) hm
  rw [hl.etaOf_eq]
  exact hl

theorem lookup_of_mem {l : List (String × UInt64)} (hn : (l.map Prod.fst).Nodup)
    (h : (id, eta) ∈ l) : l.lookup id = some eta := by
  induction l with
  | nil => cases h
  | cons p l ih =>
    obtain ⟨key, value⟩ := p
    obtain ⟨hne, hn⟩ := List.nodup_cons.1 hn
    rcases List.mem_cons.1 h with heq | hm
    · obtain ⟨rfl, rfl⟩ := Prod.mk.inj heq
      simp
    · have hkey : id ≠ key := by
        rintro rfl
        exact hne (List.mem_map.2 ⟨(id, eta), hm, rfl⟩)
      rw [List.lookup_cons, beq_eq_false_iff_ne.2 hkey]
      exact ih hn hm

/-- Collecting a schedule of distinct identifiers into a map loses nothing. -/
theorem AwaitSchedule.eta_collect (now : UInt64) (hn : (planned.map fun p => p.1.id).Nodup)
    (h : ListsEta planned id eta) : AwaitSchedule.eta ⟨now, collectEtas planned⟩ id = eta := by
  obtain ⟨⟨e, he, rfl⟩, -⟩ := h
  have hm : (e.id, eta) ∈ (collectEtas planned).reverse :=
    List.mem_reverse.2 (List.mem_map.2 ⟨(e, eta), he, rfl⟩)
  have hkeys : ((collectEtas planned).reverse.map Prod.fst).Nodup := by
    unfold collectEtas
    rw [List.map_reverse, List.nodup_reverse, List.map_map]
    exact hn
  change ((collectEtas planned).reverse.lookup e.id).getD 0 = eta
  rw [lookup_of_mem hkeys hm]
  rfl

end Schedules

/-! ## The shared projection -/

section Cache

variable {J : SerdeJson} {cooldown : UInt64}

/-- The cached projection is the schedule of the present directory at the second it was built. -/
def QueueState.Coherent (J : SerdeJson) (cooldown : UInt64) (s : QueueState) : Prop :=
  ∀ projection ∈ s.awaitSchedule, ∃ planned,
    schedule J cooldown projection.builtAt s.fs = .ok planned ∧
      projection.etas = collectEtas planned

theorem coherent_none (J : SerdeJson) (cooldown : UInt64) (fs : QueueFs) :
    QueueState.Coherent J cooldown ⟨fs, none⟩ := by
  intro projection h
  cases h

/-- Only the schedule matters. -/
theorem QueueState.Coherent.congr {s s' : QueueState} (h : s.Coherent J cooldown)
    (hc : s'.awaitSchedule = s.awaitSchedule)
    (hs : ∀ now, schedule J cooldown now s'.fs = schedule J cooldown now s.fs) :
    s'.Coherent J cooldown := by
  intro projection hp
  rw [hc] at hp
  obtain ⟨planned, hplanned, hetas⟩ := h projection hp
  exact ⟨planned, (hs _).trans hplanned, hetas⟩

theorem rebuildEta_eq {fs : QueueFs} (cache : Option AwaitSchedule) {e : StoredEntry}
    (he : e ∈ queued J fs) (now : UInt64) :
    (rebuildEta J fs cache e.id cooldown now).1 = scheduledEta J fs cooldown now e := by
  unfold rebuildEta scheduledEta
  cases hs : schedule J cooldown now fs with
  | error err => rfl
  | ok planned =>
    change Except.ok (AwaitSchedule.eta ⟨now, collectEtas planned⟩ e.id) = .ok (etaOf planned e.id)
    rw [AwaitSchedule.eta_collect now (nodup_schedule hs) (etaOf_listed hs he)]

/-- Through a coherent cache a queued entry gets the wait of the present schedule. -/
theorem cachedEta_eq {s : QueueState} (h : s.Coherent J cooldown) {e : StoredEntry}
    (he : e ∈ queued J s.fs) (now : UInt64) :
    (cachedEta J s.fs s.awaitSchedule e.id cooldown now).1 =
    scheduledEta J s.fs cooldown now e := by
  unfold cachedEta
  cases hc : s.awaitSchedule with
  | none => exact rebuildEta_eq none he now
  | some projection =>
    simp only
    split
    · next hnow =>
      obtain ⟨planned, hplanned, hetas⟩ := h projection hc
      rw [hnow] at hplanned
      obtain ⟨builtAt, etas⟩ := projection
      have heta := AwaitSchedule.eta_collect builtAt (nodup_schedule hplanned)
        (etaOf_listed hplanned he)
      unfold scheduledEta
      rw [hplanned]
      change Except.ok (AwaitSchedule.eta ⟨builtAt, etas⟩ e.id) = .ok (etaOf planned e.id)
      rw [show etas = collectEtas planned from hetas, heta]
    · exact rebuildEta_eq _ he now

theorem coherent_cachedEta {s : QueueState} (h : s.Coherent J cooldown) (id : String)
    (now : UInt64) :
    QueueState.Coherent J cooldown
      { s with awaitSchedule := (cachedEta J s.fs s.awaitSchedule id cooldown now).2 } := by
  have hrebuild : QueueState.Coherent J cooldown
      { s with awaitSchedule := (rebuildEta J s.fs s.awaitSchedule id cooldown now).2 } := by
    intro projection hp
    unfold rebuildEta at hp
    cases hs : schedule J cooldown now s.fs with
    | error err =>
      rw [hs] at hp
      exact h projection hp
    | ok planned =>
      rw [hs] at hp
      obtain rfl := Option.some.inj hp
      exact ⟨planned, hs, rfl⟩
  unfold cachedEta
  cases hc : s.awaitSchedule with
  | none =>
    rw [hc] at hrebuild
    exact hrebuild
  | some projection =>
    rw [hc] at hrebuild
    simp only
    split
    · rw [← hc]
      exact h
    · exact hrebuild

/-- A lookup under the lock answers as if it computed the schedule itself. -/
theorem resolvePending_eq {s : QueueState} (h : s.Coherent J cooldown) (id : String)
    (cursor : Option AwaitCursor) (now : UInt64) :
    (resolvePending J s id cursor cooldown now).1 =
      resolveAwaitPendingWithEta J s.fs id cursor (scheduledEta J s.fs cooldown now) := by
  change resolveAwaitPendingWithEta J s.fs id cursor
    (fun entry => (cachedEta J s.fs s.awaitSchedule entry.id cooldown now).1) = _
  cases hf : find J s.fs id with
  | error err => rw [resolveAwaitPending_of_error hf, resolveAwaitPending_of_error hf]
  | ok e =>
    rw [resolveAwaitPending_of_ok hf, resolveAwaitPending_of_ok hf,
      cachedEta_eq h (find_ok_iff.1 hf).1 now]

theorem coherent_resolvePending {s : QueueState} (h : s.Coherent J cooldown) (id : String)
    (cursor : Option AwaitCursor) (now : UInt64) :
    (resolvePending J s id cursor cooldown now).2.Coherent J cooldown := by
  unfold resolvePending
  simp only
  split
  · exact h
  · exact coherent_cachedEta h _ now

theorem fs_resolvePending (s : QueueState) (id : String) (cursor : Option AwaitCursor)
    (now : UInt64) : (resolvePending J s id cursor cooldown now).2.fs = s.fs := by
  unfold resolvePending
  simp only
  split <;> rfl

/-- A pending answer carries the wait the schedule lists. -/
theorem pending_eta {fs : QueueFs} {id : String} {cursor : Option AwaitCursor} {now : UInt64}
    {eta : UInt64} {next : AwaitCursor}
    (h : resolveAwaitPendingWithEta J fs id cursor (scheduledEta J fs cooldown now) =
      .ok (some (.pending eta next))) :
    ∃ planned, schedule J cooldown now fs = .ok planned ∧ ListsEta planned id eta := by
  cases hf : find J fs id with
  | error err =>
    rw [resolveAwaitPending_of_error hf] at h
    cases err <;> cases h
  | ok e =>
    obtain ⟨he, rfl⟩ := find_ok_iff.1 hf
    rw [resolveAwaitPending_of_ok hf] at h
    split at h
    · unfold scheduledEta at h
      cases hs : schedule J cooldown now fs with
      | error err => rw [hs] at h; cases h
      | ok planned =>
        rw [hs] at h
        have hstate := Option.some.inj (Except.ok.inj h)
        have heta : etaOf planned e.id = eta := by
          cases cursor with
          | none => exact (AwaitState.pending.inj hstate).1
          | some cursor => exact (AwaitState.pending.inj hstate).1
        exact ⟨planned, rfl, heta ▸ etaOf_listed hs he⟩
    · cases h

end Cache

/-! ## Store calls and the projection -/

section Calls

variable {J : SerdeJson} {cooldown : UInt64}

/-- A record in the history log leaves the schedule alone. -/
theorem schedule_append (fs : QueueFs) (record : HistoryRecord) (now : UInt64) :
    schedule J cooldown now (final ((Op.appendHistory record).exec J) fs) =
      schedule J cooldown now fs := by
  have hrun : final ((Op.appendHistory record).exec J) fs =
      { fs with history := some (fs.historyBytes ++ appendedBytes record fs.historyBytes) } := by
    rw [Op.exec, final_map]
    exact final_append record fs
  rw [hrun]
  exact schedule_congr rfl rfl rfl

/-- Mutations that succeed drop the projection; what else succeeds leaves the schedule alone. -/
theorem coherent_withStore {q : SharedQueue} (h : q.state.Coherent J cooldown) {op : Op}
    (hserved : op.Served)
    (hrejected : (∀ reply, (op.exec J q.state.fs).outcome ≠ .ok reply) →
      final (op.exec J) q.state.fs = q.state.fs) :
    (q.withStore J op).state.Coherent J cooldown := by
  unfold SharedQueue.withStore
  cases ho : (op.exec J q.state.fs).outcome with
  | ok reply =>
    by_cases hm : op.isStateMutation = true
    · unfold SharedQueue.settle
      rw [if_pos hm]
      exact coherent_none J cooldown _
    · unfold SharedQueue.settle
      rw [if_neg hm]
      cases op with
      | appendHistory record => exact h.congr rfl (schedule_append q.state.fs record)
      | reopen fresh => exact hserved.elim
      | _ => exact absurd rfl hm
  | error err =>
    have hsame := hrejected (by rw [ho]; simp)
    exact h.congr rfl fun now => congrArg _ hsame
  | diverges =>
    have hsame := hrejected (by rw [ho]; simp)
    exact h.congr rfl fun now => congrArg _ hsame

end Calls

/-! ## Enqueueing -/

namespace Refines

variable {J : SerdeJson} {n : Nat} {fs : QueueFs} {items : List Item}

/-- Sorting the directory after a put finds the new entry at the end. -/
theorem sortEntries_put (h : Refines J n fs items) (hn : n + 1 < 2 ^ 63) (request : CommentRequest)
    (options : PutOptions) (now : UInt64) (incarnation : Uuid) {id : String}
    (hen : Enrolls J fs (newEntry request options now incarnation id (sortEntries (queued J fs)))) :
    sortEntries (queued J (fs.write (newEntry request options now incarnation id
      (sortEntries (queued J fs))).toVecPretty (.entry id))) =
      sortEntries (queued J fs) ++
        [newEntry request options now incarnation id (sortEntries (queued J fs))] := by
  set new := newEntry request options now incarnation id (sortEntries (queued J fs)) with hnew
  obtain ⟨hrank, hb⟩ := rank_newEntry h.ranked hn request options now incarnation id
  have hsize := hen.size
  have hranked : Ranked StoredEntry.rank (n + 1) (sortEntries (queued J fs) ++ [new]) :=
    (h.ranked.mono (Nat.le_succ n)).snoc hrank hb
  refine sortEntries_of_ranked hranked fun x => ?_
  have hmem : x ∈ queued J (fs.write new.toVecPretty (.entry id)) ↔
      x = new ∨ (x ∈ queued J fs ∧ x.id ≠ new.id) := mem_queued_write hen.valid (by omega)
  rw [hmem, List.mem_append, List.mem_singleton, mem_sortEntries]
  constructor
  · rintro (hx | rfl)
    · refine Or.inr ⟨hx, fun hid => ?_⟩
      obtain ⟨-, bytes, hl, -⟩ := mem_queued.1 hx
      rw [hid] at hl
      exact Option.some_ne_none _ (hl.symm.trans hen.free)
    · exact Or.inl rfl
  · rintro (rfl | ⟨hx, -⟩)
    · exact Or.inr rfl
    · exact Or.inl hx

/-- The wait `put` returns is the one the schedule lists right after it. -/
theorem put_eta (h : Refines J n fs items) (hn : n + 1 < 2 ^ 63) {request : CommentRequest}
    {options : PutOptions} {now : UInt64} {incarnation : Uuid} {e : StoredEntry} {eta : UInt64}
    (hok : (putWithEta J request options now incarnation fs).outcome = .ok (e, eta)) :
    ∃ planned, schedule J options.cooldown now
        (final (putWithEta J request options now incarnation) fs) = .ok planned ∧
      ListsEta planned e.id eta := by
  have hsound : (Op.put request options now incarnation).Sound := trivial
  have hclean : Clean J (final ((Op.put request options now incarnation).exec J) fs) :=
    h.clean.leaves hsound (Op.leaves_final J _ fs)
  rw [Op.exec, final_map] at hclean
  unfold final at hclean ⊢
  rcases @put_cases J fs request options now incarnation with
    ⟨htrace, hold⟩ | ⟨id, eta', hen, ⟨previous, hprevious, heta⟩, hrun⟩
  · -- the comment is queued already
    obtain ⟨he, -, previous, hprevious, heta⟩ := hold e eta hok
    rw [htrace, run_nil]
    have hs := schedule_eq options.cooldown now h.clean.accounted.withinLimits hprevious
    exact ⟨_, hs, heta ▸ etaOf_listed hs he⟩
  · rw [hrun] at hok hclean ⊢
    obtain ⟨rfl, rfl⟩ := Prod.mk.inj (Outcome.ok.inj hok)
    set new := newEntry request options now incarnation id (sortEntries (queued J fs)) with hnew
    change ∃ planned, schedule J options.cooldown now (fs.write new.toVecPretty (.entry id)) =
      .ok planned ∧ ListsEta planned new.id eta'
    have hlimits : WithinLimits J (fs.write new.toVecPretty (.entry id)) :=
      hclean.accounted.withinLimits
    have hactivity : previousActivity (fs.write new.toVecPretty (.entry id)) = .ok previous :=
      hprevious
    have hs := schedule_eq options.cooldown now hlimits hactivity
    have hsize := hen.size
    have hmem : new ∈ queued J (fs.write new.toVecPretty (.entry id)) :=
      (mem_queued_write hen.valid (by omega)).2 (Or.inl rfl)
    refine ⟨_, hs, ?_⟩
    have hlist := etaOf_listed hs hmem
    rw [h.sortEntries_put hn request options now incarnation hen] at hlist ⊢
    exact heta ▸ hlist

end Refines

/-! ## Runs of the shared queue -/

/-- A queue that was opened after `n` calls in all and has since served calls and lookups. Each call
succeeds or is rejected and leaves the store as it is; lookups may come with any clock values. -/
inductive SharedQueue.Run (J : SerdeJson) (cooldown : UInt64) : Nat → SharedQueue → Prop
  | opened {n : Nat} {fs : QueueFs} {items : List Item} :
      ListRun J n fs items → SharedQueue.Run J cooldown n (.new fs)
  | call {n : Nat} {q : SharedQueue} {op : Op} : SharedQueue.Run J cooldown n q → op.Served →
      ((∀ reply, (op.exec J q.state.fs).outcome ≠ .ok reply) →
        final (op.exec J) q.state.fs = q.state.fs) →
      SharedQueue.Run J cooldown (n + 1) (q.withStore J op)
  | lookup {n : Nat} {q : SharedQueue} (id : String) (cursor : Option AwaitCursor) (now : UInt64) :
      SharedQueue.Run J cooldown n q →
      SharedQueue.Run J cooldown n (q.observeAwaitState J id cursor cooldown now).2
  | relist {n : Nat} {q : SharedQueue} {fs' : QueueFs} : SharedQueue.Run J cooldown n q →
      Relisted q.state.fs fs' → SharedQueue.Run J cooldown n (q.withFs fs')

section Run

variable {J : SerdeJson} {cooldown : UInt64} {n : Nat} {q : SharedQueue}

theorem SharedQueue.fs_settle (q : SharedQueue) (op : Op) (o : Outcome StoreError Reply) :
    (q.settle op o).state.fs = q.state.fs := by
  unfold SharedQueue.settle
  split
  · split <;> rfl
  · rfl

theorem SharedQueue.Run.listRun (h : SharedQueue.Run J cooldown n q) :
    ∃ items, ListRun J n q.state.fs items := by
  induction h with
  | opened h => exact ⟨_, h⟩
  | @call n q op _ hs _ ih =>
    obtain ⟨items, hr⟩ := ih
    refine ⟨op.onList (op.exec J q.state.fs).outcome items, ?_⟩
    unfold SharedQueue.withStore
    rw [SharedQueue.fs_settle]
    exact hr.call hs.sound
  | lookup id cursor now _ ih =>
    obtain ⟨items, hr⟩ := ih
    refine ⟨items, ?_⟩
    change ListRun J _ (resolvePending J _ id cursor cooldown now).2.fs items
    rw [fs_resolvePending]
    exact hr
  | relist _ hl ih =>
    obtain ⟨items, hr⟩ := ih
    exact ⟨items, hr.relist hl⟩

/-- The order in which the directory lists its files does not matter to the schedule. -/
theorem Relisted.schedule_eq {fs fs' : QueueFs} (h : Relisted fs fs') (hc : Clean J fs)
    (now : UInt64) : schedule J cooldown now fs' = schedule J cooldown now fs := by
  obtain ⟨previous, hp⟩ := hc.previousActivity_ok
  have hp' : previousActivity fs' = .ok previous := by
    rw [h.rest]
    exact hp
  have hsorted : sortEntries (queued J fs') = sortEntries (queued J fs) :=
    sortEntries_eq (nodup_queued J fs') ((sortEntries_perm _).trans h.queued_perm.symm)
      (pairwise_sortEntries _)
  rw [Comenq.schedule_eq cooldown now (h.clean hc).accounted.withinLimits hp',
    Comenq.schedule_eq cooldown now hc.accounted.withinLimits hp, hsorted]

theorem SharedQueue.Run.coherent (h : SharedQueue.Run J cooldown n q) (hn : n < 2 ^ 63) :
    q.state.Coherent J cooldown := by
  induction h with
  | opened _ => exact coherent_none J cooldown _
  | call _ hs hr ih => exact coherent_withStore (ih (by omega)) hs hr
  | lookup id cursor now _ ih => exact coherent_resolvePending (ih hn) id cursor now
  | relist h hl ih =>
    obtain ⟨items, hr⟩ := h.listRun
    exact (ih hn).congr rfl (hl.schedule_eq (hr.refines hn).clean)

end Run

/-- **All waits agree.** After fewer than 2^63 calls and any lookups: a put returns the wait that
the schedule lists for its entry right after it; the wait of a claim attempt is the one the schedule
gives the head; and an await lookup returns the wait the schedule lists for its identifier. -/
theorem eta_paths_agree {J : SerdeJson} {cooldown : UInt64} {n : Nat} {q : SharedQueue}
    (h : SharedQueue.Run J cooldown n q) (hn : n < 2 ^ 63) (t : UInt64) :
    (∀ request options incarnation e eta,
      (putWithEta J request options t incarnation q.state.fs).outcome = .ok (e, eta) →
      ∃ planned, schedule J options.cooldown t
          (final (putWithEta J request options t incarnation) q.state.fs) = .ok planned ∧
        ListsEta planned e.id eta) ∧
    (∀ c token head wait,
      (claimNextDue J c t token q.state.fs).outcome = .ok (some (head, wait)) →
      ∃ first rest, schedule J c t q.state.fs = .ok ((first, wait) :: rest) ∧ first.id = head.id) ∧
    (∀ id cursor snapshot eta next,
      (q.observeAwaitState J id cursor cooldown t).1 = .ok snapshot →
      snapshot.pending = some (.pending eta next) →
      ∃ planned, schedule J cooldown t q.state.fs = .ok planned ∧ ListsEta planned id eta) := by
  obtain ⟨items, hrun⟩ := h.listRun
  refine ⟨?_, ?_, ?_⟩
  · intro request options incarnation e eta hok
    exact (hrun.refines_pred (by omega)).1.put_eta (by omega) hok
  · intro c token head wait hok
    have hclean := (hrun.refines hn).clean
    have hhead : ∀ e w, nextDue J c t q.state.fs = .ok (some (e, w)) →
        ∃ rest, schedule J c t q.state.fs = .ok ((e, w) :: rest) := by
      intro e w hd
      obtain ⟨previous, hw, hp, hdue⟩ := nextDue_ok hd
      rw [schedule_eq c t hw hp]
      split at hdue
      · cases hdue
      · obtain ⟨rest, hrest⟩ := List.head?_eq_some_iff.1 hdue.symm
        exact ⟨rest, by rw [hrest]⟩
    rcases hclean.accounted.covered.claimNextDue_cases c t token with
      ⟨err, -, hr⟩ | ⟨due, hd, -, hr⟩ | ⟨e, hd, hr⟩
    · rw [hr] at hok
      cases hok
    · rw [hr] at hok
      obtain rfl := Outcome.ok.inj hok
      obtain ⟨rest, hs⟩ := hhead head wait hd
      exact ⟨head, rest, hs, rfl⟩
    · rw [hr] at hok
      obtain ⟨rfl, rfl⟩ := Prod.mk.inj (Option.some.inj (Outcome.ok.inj hok))
      obtain ⟨rest, hs⟩ := hhead e 0 hd
      exact ⟨e, rest, hs, rfl⟩
  · intro id cursor snapshot eta next hok hpending
    have hresolve := resolvePending_eq (h.coherent hn) id cursor t
    have hanswer : (resolvePending J q.state id cursor cooldown t).1 =
        .ok (some (.pending eta next)) := by
      unfold SharedQueue.observeAwaitState at hok
      cases hp : (resolvePending J q.state id cursor cooldown t).1 with
      | error err =>
        simp only [hp, Except.map] at hok
        cases hok
      | ok pending =>
        simp only [hp, Except.map] at hok
        obtain rfl := Except.ok.inj hok
        exact congrArg Except.ok hpending
    exact pending_eta (hresolve ▸ hanswer)

theorem SharedQueue.Run.call_ok {J : SerdeJson} {cooldown : UInt64} {n : Nat} {q : SharedQueue}
    {op : Op} (h : SharedQueue.Run J cooldown n q) (hs : op.Served) {reply : Reply}
    (hok : (op.exec J q.state.fs).outcome = .ok reply) :
    SharedQueue.Run J cooldown (n + 1) (q.withStore J op) :=
  h.call hs fun hno => absurd hok (hno reply)

def sampleSecond : CommentRequest := { sampleRequest with body := "pong" }

/-- A queue with two comments. -/
def sampleTwoQueued : QueueFs :=
  afterCalls serdeJson [.put sampleRequest ⟨900, 0, true⟩ 1000 (sampleUuid 1),
    .put sampleSecond ⟨900, 0, true⟩ 1000 (sampleUuid 2)]

/-- A queue with one deferred comment, its wait looked up once. -/
def sampleOne : SharedQueue :=
  let put := (SharedQueue.new QueueFs.empty).withStore serdeJson
    (.put sampleRequest ⟨900, 0, false⟩ 1000 (sampleUuid 1))
  (put.observeAwaitState serdeJson "4e881b86" none 900 1000).2

/-- The same queue after a second put and a lookup at a later time. -/
def sampleShared : SharedQueue :=
  let put := sampleOne.withStore serdeJson (.put sampleSecond ⟨900, 5, false⟩ 1000 (sampleUuid 2))
  (put.observeAwaitState serdeJson "4e881b86" none 900 1700).2

theorem sampleShared_run : SharedQueue.Run serdeJson 900 2 sampleShared := by
  let first := newEntry sampleRequest ⟨900, 0, false⟩ 1000 (sampleUuid 1) "4e881b86" []
  let second := newEntry sampleSecond ⟨900, 5, false⟩ 1000 (sampleUuid 2) "0a8013bd" [first]
  have hfirst : ((Op.put sampleRequest ⟨900, 0, false⟩ 1000 (sampleUuid 1)).exec serdeJson
      QueueFs.empty).outcome = .ok (.stored first 900) := by decide +kernel
  have hsecond : ((Op.put sampleSecond ⟨900, 5, false⟩ 1000 (sampleUuid 2)).exec serdeJson
      sampleOne.state.fs).outcome = .ok (.stored second 1805) := by decide +kernel
  have hserved : ∀ request options incarnation,
      (Op.put request options 1000 incarnation).Served := fun _ _ _ => trivial
  have hone : SharedQueue.Run serdeJson 900 1 sampleOne :=
    ((SharedQueue.Run.opened ListRun.start).call_ok (hserved _ _ _) hfirst).lookup
      "4e881b86" none 1000
  exact (hone.call_ok (hserved _ _ _) hsecond).lookup "4e881b86" none 1700

theorem eta_paths_agree_sample :
    ∃ planned, schedule serdeJson 900 1000 sampleShared.state.fs = .ok planned ∧
      ListsEta planned "0a8013bd" 1805 := by
  have hobserve : (sampleShared.observeAwaitState serdeJson "0a8013bd" none 900 1000).1 =
      .ok ⟨2, some (.pending 1805 ⟨0, (sampleUuid 2).text⟩)⟩ := by decide +kernel
  exact (eta_paths_agree sampleShared_run (by decide) 1000).2.2 _ _ _ _ _ hobserve rfl

end Comenq
