import Comenq.Verify.Capacity

/-!
# Runs of store operations

`Op` is a call of the store with its arguments and the UUIDs it draws. `Reachable` collects the
directories that any calls can leave behind, starting from an empty one, when every call may be cut
off at any file-system step and the history log may hold any bytes. `Clean` is what is known of all
of them: nothing in the directory is unreadable, and every file is as the store writes it.
-/

namespace Comenq

open JsonText Traced CrashTrace

/-! ## Operations -/

inductive Op
  | put (request : CommentRequest) (options : PutOptions) (now : UInt64) (incarnation : Uuid)
  | bump (id : String)
  | bust (id : String)
  | del (id : String)
  | claimNextDue (cooldown now : UInt64) (token : Uuid)
  | releaseClaim (id token : String) (attemptedAt : UInt64)
  | completeClaim (entry : StoredEntry) (tokenHash : String) (now : UInt64)
      (commentUrl : Option String) (attempt : Uuid)
  | recoverWorkerState (fresh : String → Uuid)
  | reopen (fresh : String → Uuid)
  | appendHistory (record : HistoryRecord)

inductive Reply
  | done
  | stored (entry : StoredEntry) (eta : UInt64)
  | due (head : Option (StoredEntry × UInt64))
deriving DecidableEq

def Op.exec (J : SerdeJson) : Op → Store Reply
  | .put request options now incarnation =>
    (fun p => .stored p.1 p.2) <$> putWithEta J request options now incarnation
  | .bump id => (fun _ => .done) <$> Comenq.bump J id
  | .bust id => (fun _ => .done) <$> Comenq.bust J id
  | .del id => (fun _ => .done) <$> Comenq.del J id
  | .claimNextDue cooldown now token => .due <$> Comenq.claimNextDue J cooldown now token
  | .releaseClaim id token attemptedAt =>
    (fun _ => .done) <$> Comenq.releaseClaim J id token attemptedAt
  | .completeClaim entry tokenHash now commentUrl attempt =>
    (fun _ => .done) <$> completeClaimWithToken J entry tokenHash now commentUrl attempt
  | .recoverWorkerState fresh => (fun _ => .done) <$> Comenq.recoverWorkerState J fresh
  | .reopen fresh => (fun _ => .done) <$> openStore J fresh
  | .appendHistory record => (fun _ => .done) <$> append record

/-- Completions are of entries the store returned, which carry safe identifiers. -/
def Op.Sound : Op → Prop
  | .completeClaim entry .. => isValidId entry.id = true
  | _ => True

/-- The kinds of change a call makes when it starts in `fs`. -/
def Op.Kinds (J : SerdeJson) (fs : QueueFs) : Op → Kind → Prop
  | .put _ _ _ incarnation, k => ∃ id, k = .enroll id incarnation.text
  | .bump id, k => k = .reorder id
  | .bust id, k => k = .reorder id
  | .del id, k => k = .mark id ∨ k = .drop id
  | .claimNextDue cooldown now token, k =>
    ∃ e wait, nextDue J cooldown now fs = .ok (some (e, wait)) ∧ k = .claim e.id token.text
  | .releaseClaim id _ _, k => k = .attempted ∨ k = .unclaim id
  | .completeClaim entry tokenHash now commentUrl attempt, k =>
    let c := completionRecord entry tokenHash now commentUrl attempt fs.historyBytes.length
    k = .journal c ∨ finishing c k
  | .recoverWorkerState _, k =>
    (∃ c, pendingCompletion J fs = some c ∧ finishing c k) ∨ ∃ id, k = .unclaim id
  | .reopen _, k =>
    (∃ c, pendingCompletion J fs = some c ∧ finishing c k) ∨ (∃ id, k = .unclaim id) ∨
      (∃ id, k = .tidy id) ∨ k = .sync
  | .appendHistory _, k => k = .log ∨ k = .sync

theorem performs_exec {J : SerdeJson} {fs : QueueFs} {op : Op} (h : op.Sound) :
    Performs J (op.Kinds J fs) (op.exec J) fs anything := by
  cases op with
  | put request options now incarnation =>
    exact does_map (performs_putWithEta fun id _ => ⟨id, rfl⟩) fun _ _ h => h
  | bump id => exact does_map (performs_reorder rfl) fun _ _ h => h
  | bust id => exact does_map (performs_reorder rfl) fun _ _ h => h
  | del id =>
    exact does_map (performs_del (Or.inl rfl) (Or.inr rfl)) fun _ _ h => h
  | claimNextDue cooldown now token =>
    exact does_map (performs_claimNextDue fun e wait hd => ⟨e, wait, hd, rfl⟩) fun _ _ h => h
  | releaseClaim id token attemptedAt =>
    exact does_map (performs_releaseClaim (Or.inl rfl) (Or.inr rfl)) fun _ _ h => h
  | completeClaim entry tokenHash now commentUrl attempt =>
    exact does_map (performs_completeClaimWithToken h (Or.inl rfl) fun _ hk => Or.inr hk)
      fun _ _ h => h
  | recoverWorkerState fresh =>
    exact does_map (performs_recoverWorkerState (fun c hc _ hk => Or.inl ⟨c, hc, hk⟩)
      fun id => Or.inr ⟨id, rfl⟩) fun _ _ h => h
  | reopen fresh =>
    exact does_map (performs_openStore (fun c hc _ hk => Or.inl ⟨c, hc, hk⟩)
      (fun id => Or.inr (Or.inl ⟨id, rfl⟩)) (fun id => Or.inr (Or.inr (Or.inl ⟨id, rfl⟩)))
      (Or.inr (Or.inr (Or.inr rfl)))) fun _ _ h => h
  | appendHistory record =>
    exact does_map (performs_append (Or.inl rfl) (Or.inr rfl)) fun _ _ h => h

/-! ## Reachable directories -/

/-- `op.Leaves J fs fs'`: a call of `op` in `fs`, finished or cut off, may leave `fs'`. -/
def Op.Leaves (J : SerdeJson) (op : Op) (fs fs' : QueueFs) : Prop :=
  Interrupted Tears (op.exec J) fs fs'

theorem Op.leaves_final (J : SerdeJson) (op : Op) (fs : QueueFs) :
    op.Leaves J fs (final (op.exec J) fs) :=
  ⟨_, Cut.refl _, rfl⟩

/-- What every change of a call keeps holds wherever the call is cut off. -/
theorem Op.leaves_of_changes {J : SerdeJson} {op : Op} {fs fs' : QueueFs} {I : QueueFs → Prop}
    (hs : op.Sound) (hl : op.Leaves J fs fs') (h0 : I fs)
    (hstep : ∀ g k ev, I g → op.Kinds J fs k → Change J g k ev → I (g.step ev)) : I fs' := by
  obtain ⟨p, hp, rfl⟩ := hl
  have hall : Throughout QueueFs.step Tears I fs (op.exec J fs).trace := by
    refine (performs_exec hs).along.throughout ?_ ?_ h0
    · rintro g ev hi ⟨k, hk, hc⟩
      exact hstep g k ev hi hk hc
    · rintro g ev ev' hi ⟨k, hk, hc⟩ ht
      -- a part of an appended line is appended like the line
      cases ht with
      | append =>
        cases hc with
        | log => exact hstep g _ _ hi hk (.log _)
  exact hall p hp

/-- The directories calls of the store can leave behind. -/
inductive Reachable (J : SerdeJson) : QueueFs → Prop
  | empty : Reachable J QueueFs.empty
  | step {fs fs' : QueueFs} {op : Op} : Reachable J fs → op.Sound → op.Leaves J fs fs' →
      Reachable J fs'
  | history {fs : QueueFs} (log : Option Bytes) : Reachable J fs →
      Reachable J { fs with history := log }

/-- The directory after finished calls in an empty one. -/
def afterCalls (J : SerdeJson) (ops : List Op) : QueueFs :=
  ops.foldl (fun fs op => final (op.exec J) fs) QueueFs.empty

theorem afterCalls_concat (J : SerdeJson) (ops : List Op) (op : Op) :
    afterCalls J (ops ++ [op]) = final (op.exec J) (afterCalls J ops) := by
  simp [afterCalls]

theorem reachable_afterCalls {J : SerdeJson} {ops : List Op} (h : ∀ op ∈ ops, op.Sound) :
    Reachable J (afterCalls J ops) := by
  induction ops using List.reverseRecOn with
  | nil => exact .empty
  | append_singleton ops op ih =>
    rw [afterCalls_concat]
    exact .step (ih fun x hx => h x (List.mem_append_left _ hx)) (h op (by simp))
      (Op.leaves_final ..)

/-! ## Clean directories -/

/-- Every file of the directory is as the store writes it. -/
structure Clean (J : SerdeJson) (fs : QueueFs) : Prop where
  accounted : Accounted J fs
  readable : ∀ {id node}, fs.entries.lookup id = some node → ∃ e ∈ queued J fs, e.id = id
  lifetime : ∀ {e}, e ∈ queued J fs → ∃ u : Uuid, e.incarnation = u.text
  markers : ∀ {id bytes}, fs.awaitDeletions.lookup id = some bytes →
    ∃ d : AwaitDeletionRecord, bytes = d.toVec
  lastPost : ∀ {bytes}, fs.lastPost = some bytes → ∃ time, bytes = decimalU64 time
  lastAttempt : ∀ {bytes}, fs.lastAttempt = some bytes → ∃ time, bytes = decimalU64 time
  journal : ∀ {bytes}, fs.completion = some bytes →
    ∃ c : CompletionRecord, bytes = c.toVec ∧ isValidId c.id = true ∧ c.history.isSome = true

namespace Clean

variable {J : SerdeJson} {fs : QueueFs}

theorem empty (J : SerdeJson) : Clean J QueueFs.empty where
  accounted :=
    { count := by decide
      budget := Nat.zero_le _
      native := by intro e _ he; cases he
      sized := by intro e he; cases he
      reach := by intro e he; cases he }
  readable := by intro id node h; cases h
  lifetime := by intro e he; cases he
  markers := by intro id bytes h; cases h
  lastPost := by intro bytes h; cases h
  lastAttempt := by intro bytes h; cases h
  journal := by intro bytes h; cases h

theorem write_entry (h : Clean J fs) {e : StoredEntry}
    (ha : Accounted J (fs.write e.toVecPretty (.entry e.id))) (hv : isValidId e.id = true)
    (hs : e.toVecPretty.length ≤ maxEntryBytes) (hl : ∃ u : Uuid, e.incarnation = u.text) :
    Clean J (fs.write e.toVecPretty (.entry e.id)) where
  accounted := ha
  readable := by
    intro id node hn
    by_cases hid : id = e.id
    · exact ⟨e, (mem_queued_write hv hs).2 (Or.inl rfl), hid.symm⟩
    · have hn : fs.entries.lookup id = some node := by
        change AList.lookup id (fs.entries.insert e.id (.file e.toVecPretty)) = _ at hn
        rwa [AList.lookup_insert_ne hid] at hn
      obtain ⟨x, hx, rfl⟩ := h.readable hn
      exact ⟨x, (mem_queued_write hv hs).2 (Or.inr ⟨hx, hid⟩), rfl⟩
  lifetime := by
    intro x hx
    rcases (mem_queued_write hv hs).1 hx with rfl | ⟨hx, -⟩
    · exact hl
    · exact h.lifetime hx
  markers := h.markers
  lastPost := h.lastPost
  lastAttempt := h.lastAttempt
  journal := h.journal

theorem remove_entry (h : Clean J fs) (id : String) : Clean J (fs.remove (.entry id)) where
  accounted := h.accounted.remove id
  readable := by
    intro name node hn
    change AList.lookup name (fs.entries.erase id) = _ at hn
    by_cases hid : name = id
    · rw [hid, AList.lookup_erase] at hn; cases hn
    · rw [AList.lookup_erase_ne hid] at hn
      obtain ⟨x, hx, rfl⟩ := h.readable hn
      exact ⟨x, mem_queued_remove.2 ⟨hx, hid⟩, rfl⟩
  lifetime := by intro x hx; exact h.lifetime (mem_queued_remove.1 hx).1
  markers := h.markers
  lastPost := h.lastPost
  lastAttempt := h.lastAttempt
  journal := h.journal

theorem mark (h : Clean J fs) (name : String) (d : AwaitDeletionRecord) :
    Clean J (fs.write d.toVec (.awaitDeletion name)) := by
  refine ⟨h.accounted.congr rfl, h.readable, h.lifetime, ?_, h.lastPost, h.lastAttempt, h.journal⟩
  intro id bytes hb
  change AList.lookup id (fs.awaitDeletions.insert name _) = _ at hb
  by_cases hid : id = name
  · rw [hid, AList.lookup_insert] at hb
    exact ⟨_, (Option.some.inj hb).symm⟩
  · rw [AList.lookup_insert_ne hid] at hb
    exact h.markers hb

theorem unmark (h : Clean J fs) (name : String) : Clean J (fs.remove (.awaitDeletion name)) := by
  refine ⟨h.accounted.congr rfl, h.readable, h.lifetime, ?_, h.lastPost, h.lastAttempt, h.journal⟩
  intro id bytes hb
  change AList.lookup id (fs.awaitDeletions.erase name) = _ at hb
  by_cases hid : id = name
  · rw [hid, AList.lookup_erase] at hb; cases hb
  · rw [AList.lookup_erase_ne hid] at hb
    exact h.markers hb

theorem step {k : Kind} {ev : FsEvent} (h : Clean J fs) (hc : Change J fs k ev) :
    Clean J (fs.step ev) := by
  have ha := h.accounted.step hc
  cases hc with
  | enroll hv _ _ _ hsize _ _ hlife => exact h.write_entry ha hv (by omega) hlife
  | @update _ e e' he hu _ hs =>
    refine h.write_entry ha (hu.id_eq ▸ isValidId_of_mem he) hs ?_
    obtain ⟨u, hl⟩ := h.lifetime he
    rcases hu.incarnation with hi | ⟨hi, -⟩
    · exact ⟨u, hi.trans hl⟩
    · exact absurd (hl.symm.trans hi) u.text_ne_empty
  | drop he => exact h.remove_entry _
  | take he _ _ => exact h.remove_entry _
  | mark he => exact h.mark _ _
  | unmark name => exact h.unmark name
  | tidy he => exact h.unmark _
  | posted time =>
    exact ⟨ha, h.readable, h.lifetime, h.markers, fun hb => ⟨time, (Option.some.inj hb).symm⟩,
      h.lastAttempt, h.journal⟩
  | attempted time =>
    exact ⟨ha, h.readable, h.lifetime, h.markers, h.lastPost,
      fun hb => ⟨time, (Option.some.inj hb).symm⟩, h.journal⟩
  | @journal c hv hp =>
    exact ⟨ha, h.readable, h.lifetime, h.markers, h.lastPost, h.lastAttempt,
      fun hb => ⟨c, (Option.some.inj hb).symm, hv, hp⟩⟩
  | finished =>
    refine ⟨ha, h.readable, h.lifetime, h.markers, h.lastPost, h.lastAttempt, ?_⟩
    intro bytes hb
    cases hb
  | openLog | log | syncLog | sync =>
    exact ⟨ha, h.readable, h.lifetime, h.markers, h.lastPost, h.lastAttempt, h.journal⟩

theorem torn {ev ev' : FsEvent} (h : Clean J fs) (ht : Tears ev ev') : Clean J (fs.step ev') := by
  cases ht with
  | append => exact h.step (.log _)

theorem history (h : Clean J fs) (log : Option Bytes) : Clean J { fs with history := log } :=
  ⟨h.accounted.congr rfl, h.readable, h.lifetime, h.markers, h.lastPost, h.lastAttempt, h.journal⟩

theorem throughout {K : Kind → Prop} {t : List FsEvent} (h : Clean J fs)
    (ha : Along QueueFs.step (Permitted J K) fs t) :
    Throughout QueueFs.step Tears (Clean J) fs t :=
  ha.throughout (fun _ _ hI ⟨_, _, hc⟩ => hI.step hc) (fun _ _ _ hI _ ht => hI.torn ht) h

/-- A call leaves the directory clean, wherever it is cut off. -/
theorem leaves {op : Op} {fs' : QueueFs} (h : Clean J fs) (hs : op.Sound)
    (hl : op.Leaves J fs fs') : Clean J fs' := by
  exact Op.leaves_of_changes hs hl h fun _ _ _ hg _ hc => hg.step hc

end Clean

theorem Reachable.clean {J : SerdeJson} {fs : QueueFs} (h : Reachable J fs) : Clean J fs := by
  induction h with
  | empty => exact Clean.empty J
  | step _ hs hl ih => exact ih.leaves hs hl
  | history log _ ih => exact ih.history log

end Comenq
