import Comenq.Daemon.AwaitServer
import Comenq.Verify.Completions
import Comenq.Verify.Etas

/-!
# Await lookups beside other tasks

A lookup reads the marker and the log without the lock. What it finds there counts only when the
state version is the same before and after. While no mutation is published or under way
(`Shared.Undisturbed`) other tasks can only be rejected or record failed attempts, and such steps
leave the answer of every lookup as it is (`Alike`). So the scan, read at any moments in between, is
the one of the directory at the second observation, and the lookup answers as if it had been made
there in one piece.

Versions are compared modulo 2^64: a round that 2^64 mutations overlap may pair a marker and a log
that never were together.

A handler marks the version it has seen before it looks its entry up. A parked handler whose
subscription is not ready has therefore seen the latest version, and the frame it sent last is still
right.
-/

namespace Comenq

open Traced CrashTrace Signals JsonText LineLog

/-! ## Directories with the same answers -/

/-- The two directories answer every lookup alike whose token lies within `bound` bytes of log. -/
structure Alike (J : SerdeJson) (bound : Nat) (fs fs' : QueueFs) : Prop where
  entries : fs'.entries = fs.entries
  awaitDeletions : fs'.awaitDeletions = fs.awaitDeletions
  lastPost : fs'.lastPost = fs.lastPost
  lastAttempt : fs'.lastAttempt = fs.lastAttempt
  completions : ∀ id token, cursorOffset token ≤ bound →
    completionsIn J id token fs'.historyBytes = completionsIn J id token fs.historyBytes

namespace Alike

variable {J : SerdeJson} {bound : Nat} {fs fs' : QueueFs}

theorem refl (J : SerdeJson) (bound : Nat) (fs : QueueFs) : Alike J bound fs fs :=
  ⟨rfl, rfl, rfl, rfl, fun _ _ _ => rfl⟩

theorem find_eq (h : Alike J bound fs fs') (id : String) : find J fs' id = find J fs id := by
  unfold find readEntry
  rw [h.entries]

theorem schedule_eq (h : Alike J bound fs fs') (cooldown now : UInt64) :
    schedule J cooldown now fs' = schedule J cooldown now fs :=
  schedule_congr h.entries h.lastPost h.lastAttempt

theorem hidden_eq (h : Alike J bound fs fs') (id : String) (token : Option AwaitCursor) :
    Waiter.hidden fs' id token = Waiter.hidden fs id token := by
  unfold Waiter.hidden awaitLifetimeWasDeleted
  rw [h.awaitDeletions]

theorem newest_eq (h : Alike J bound fs fs') (id : String) {token : Option AwaitCursor}
    (ht : cursorOffset token ≤ bound) :
    Waiter.newest J fs' id token = Waiter.newest J fs id token := by
  unfold Waiter.newest
  rw [latestCompletion_eq, latestCompletion_eq, h.completions id token ht]

end Alike

/-! ## Lookups in parts -/

section Parts

variable {J : SerdeJson} {fs : QueueFs} {id : String} {token : Option AwaitCursor}

/-- The completion part of a lookup is the marker read followed by the scan. -/
theorem resolveAwaitCompletion_eq :
    resolveAwaitCompletion J fs id token =
      match Waiter.hidden fs id token with
      | .error err => .error err
      | .ok true => .ok .unknown
      | .ok false => .ok (Waiter.newest J fs id token) := by
  unfold resolveAwaitCompletion Waiter.hidden Waiter.newest
  cases token with
  | none =>
    cases awaitLifetimeWasDeleted fs id with
    | error err => rfl
    | ok hidden =>
      cases hidden with
      | true => rfl
      | false => cases latestCompletion J fs id none <;> rfl
  | some token => cases latestCompletion J fs id (some token) <;> rfl

theorem resolveAwaitCompletion_ne_pending (eta : UInt64) (next : AwaitCursor) :
    resolveAwaitCompletion J fs id token ≠ .ok (.pending eta next) := by
  rw [resolveAwaitCompletion_eq]
  split
  · simp
  · simp
  · unfold Waiter.newest
    split <;> simp

/-- Pending first, then the completion. -/
theorem resolveAwait_eq (J : SerdeJson) (fs : QueueFs) (id : String) (token : Option AwaitCursor)
    (cooldown now : UInt64) :
    resolveAwait J fs id token cooldown now =
      match resolveAwaitPendingWithEta J fs id token (scheduledEta J fs cooldown now) with
      | .error err => .error err
      | .ok (some pending) => .ok pending
      | .ok none => resolveAwaitCompletion J fs id token := by
  unfold resolveAwait resolveAwaitWithEta
  cases resolveAwaitPendingWithEta J fs id token (scheduledEta J fs cooldown now) with
  | error err => rfl
  | ok pending => cases pending <;> rfl

/-- A pending answer is one of the queued entry, with the caller's token or a new one. -/
theorem pending_cases {cooldown now : UInt64} {pending : AwaitState}
    (h : resolveAwaitPendingWithEta J fs id token (scheduledEta J fs cooldown now) =
      .ok (some pending)) :
    ∃ e eta, find J fs id = .ok e ∧ cursorSelects token e = true ∧
      scheduledEta J fs cooldown now e = .ok eta ∧ pending = pendingAwaitState fs e token eta := by
  cases hf : find J fs id with
  | error err =>
    rw [resolveAwaitPending_of_error hf] at h
    cases err <;> cases h
  | ok e =>
    rw [resolveAwaitPending_of_ok hf] at h
    split at h
    · next hsel =>
      cases heta : scheduledEta J fs cooldown now e with
      | error err => rw [heta] at h; cases h
      | ok eta =>
        rw [heta] at h
        exact ⟨e, eta, rfl, hsel, heta, (Option.some.inj (Except.ok.inj h)).symm⟩
    · cases h

/-- A lookup with the token of a pending answer repeats the answer. -/
theorem pending_repeats {cooldown now eta : UInt64} {next : AwaitCursor}
    (h : resolveAwaitPendingWithEta J fs id token (scheduledEta J fs cooldown now) =
      .ok (some (.pending eta next))) :
    resolveAwait J fs id (some next) cooldown now = .ok (.pending eta next) ∧
      (next.offset = fs.historyBytes.length ∨ token = some next) := by
  obtain ⟨e, eta', hf, hsel, heta, hpending⟩ := pending_cases h
  have hstate : eta = eta' ∧ cursorSelects (some next) e = true ∧
      (next.offset = fs.historyBytes.length ∨ token = some next) := by
    cases token with
    | none =>
      obtain ⟨rfl, rfl⟩ := AwaitState.pending.inj hpending
      exact ⟨rfl, beq_self_eq_true _, Or.inl rfl⟩
    | some token =>
      obtain ⟨rfl, rfl⟩ := AwaitState.pending.inj hpending
      exact ⟨rfl, hsel, Or.inr rfl⟩
  obtain ⟨rfl, hnext, hoffset⟩ := hstate
  refine ⟨?_, hoffset⟩
  rw [resolveAwait_eq, resolveAwaitPending_of_ok hf, if_pos hnext, heta]
  rfl

/-- Directories that answer alike repeat a pending answer. -/
theorem Alike.pending {bound : Nat} {fs' : QueueFs} (h : Alike J bound fs fs')
    {cooldown now : UInt64} {eta : UInt64} {next : AwaitCursor}
    (hp : resolveAwait J fs id (some next) cooldown now = .ok (.pending eta next)) :
    resolveAwait J fs' id (some next) cooldown now = .ok (.pending eta next) := by
  rw [resolveAwait_eq] at hp ⊢
  have hsame : resolveAwaitPendingWithEta J fs' id (some next) (scheduledEta J fs' cooldown now) =
      resolveAwaitPendingWithEta J fs id (some next) (scheduledEta J fs cooldown now) := by
    have heta : scheduledEta J fs' cooldown now = scheduledEta J fs cooldown now := by
      funext e
      unfold scheduledEta
      rw [h.schedule_eq]
    cases hf : find J fs id with
    | error err =>
      rw [resolveAwaitPending_of_error hf, resolveAwaitPending_of_error ((h.find_eq id).trans hf)]
    | ok e =>
      rw [resolveAwaitPending_of_ok hf, resolveAwaitPending_of_ok ((h.find_eq id).trans hf), heta]
      rfl
  rw [hsame]
  cases hr : resolveAwaitPendingWithEta J fs id (some next) (scheduledEta J fs cooldown now) with
  | error err => rw [hr] at hp; cases hp
  | ok pending =>
    cases pending with
    | none =>
      rw [hr] at hp
      exact absurd hp (resolveAwaitCompletion_ne_pending eta next)
    | some state =>
      rw [hr] at hp
      exact hp

end Parts

/-! ## Other tasks -/

/-- The call will publish a new version. -/
def Running.Disturbs (r : Running) : Prop :=
  r.op.isStateMutation = true ∧ ∃ reply, r.outcome = .ok reply

/-- An event of an append. -/
def FsEvent.isLog : FsEvent → Bool
  | .openHistory | .appendHistory _ | .syncHistory | .syncDir _ => true
  | _ => false

/-- The call was rejected, or it is recording a failed attempt: `done` of what it appends to the log
`H` has arrived. -/
def Running.Harmless (r : Running) (fs : QueueFs) : Prop :=
  r.todo = [] ∨ ∃ record H done, record.success = false ∧ H.length = r.logged ∧
    fs.historyBytes = H ++ done ∧
    done ++ r.todo.flatMap FsEvent.appended = appendedBytes record H ∧
    ∀ ev ∈ r.todo, ev.isLog = true

namespace Shared

/-- No call that will publish is under way. -/
def Calm (s : Shared) : Prop := ∀ r ∈ s.running, ¬ r.Disturbs

/-- Nothing has been published since version `n` and nothing is about to be. -/
def Undisturbed (s : Shared) (n : Nat) : Prop := s.commits = n ∧ s.Calm

/-- The length of the log when the lock was last free. -/
def logEnd (s : Shared) : Nat :=
  match s.running with
  | none => s.fs.historyBytes.length
  | some r => r.logged

structure Sound (J : SerdeJson) (cooldown : UInt64) (s : Shared) : Prop where
  version : s.queue.stateVersion.value = UInt64.ofNat s.commits
  harmless : ∀ r ∈ s.running, ¬ r.Disturbs → r.Harmless s.fs
  logged : ∀ r ∈ s.running, r.logged ≤ s.fs.historyBytes.length
  coherent : s.Calm → s.queue.state.Coherent J cooldown

/-- What a change of the shared state means to a waiter. -/
structure Passes (J : SerdeJson) (s s' : Shared) : Prop where
  commits_le : s.commits ≤ s'.commits
  logEnd_le : s.logEnd ≤ s'.logEnd
  back : ∀ n ≤ s.commits, s'.Undisturbed n → s.Undisturbed n
  alike : ∀ n ≤ s.commits, s'.Undisturbed n → Alike J s.logEnd s.fs s'.fs

end Shared

section Tasks

variable {J : SerdeJson} {cooldown : UInt64} {s s' : Shared}

theorem FsEvent.step_isLog {ev : FsEvent} (h : ev.isLog = true) (fs : QueueFs) :
    (fs.step ev).entries = fs.entries ∧ (fs.step ev).awaitDeletions = fs.awaitDeletions ∧
      (fs.step ev).lastPost = fs.lastPost ∧ (fs.step ev).lastAttempt = fs.lastAttempt := by
  cases ev with
  | writeAtomic | removeFile => cases h
  | openHistory | appendHistory | syncHistory | syncDir => exact ⟨rfl, rfl, rfl, rfl⟩

theorem isLog_appendTrace (record : HistoryRecord) (log : Bytes) :
    ∀ ev ∈ appendTrace record log, ev.isLog = true := by
  unfold appendTrace
  intro ev hev
  simp only [List.mem_cons, List.mem_append, List.not_mem_nil, or_false] at hev
  rcases hev with rfl | (hev | rfl | rfl) | hev
  · rfl
  · split at hev
    · cases hev
    · obtain rfl := List.mem_singleton.1 hev
      rfl
  · rfl
  · rfl
  · split at hev
    · obtain rfl := List.mem_singleton.1 hev
      rfl
    · cases hev

/-- A piece of a failed attempt's record changes no answer. -/
theorem alike_piece {r : Running} {fs : QueueFs} {ev : FsEvent} {todo : List FsEvent}
    (h : r.Harmless fs) (hev : ev.isLog = true) (hne : r.todo ≠ [])
    (hpiece : ev.appended ++ todo.flatMap FsEvent.appended = r.todo.flatMap FsEvent.appended)
    (hlog : ∀ e ∈ todo, e.isLog = true) :
    Alike J r.logged fs (fs.step ev) ∧ Running.Harmless { r with todo := todo } (fs.step ev) := by
  rcases h with hnil | ⟨record, H, done, hfail, hlen, hbytes, hrest, -⟩
  · exact absurd hnil hne
  · obtain ⟨hentries, hmarkers, hpost, hattempt⟩ := FsEvent.step_isLog hev fs
    have hlater : (fs.step ev).historyBytes = H ++ (done ++ ev.appended) := by
      rw [historyBytes_step, hbytes, List.append_assoc]
    have hall : (done ++ ev.appended) ++ todo.flatMap FsEvent.appended =
        appendedBytes record H := by
      rw [List.append_assoc, hpiece, hrest]
    refine ⟨⟨hentries, hmarkers, hpost, hattempt, fun id token ht => ?_⟩,
      Or.inr ⟨record, H, done ++ ev.appended, hfail, hlen, hlater, hall, hlog⟩⟩
    rw [← hlen] at ht
    rw [hlater, hbytes, completionsIn_failure hfail ht ⟨_, hall⟩,
      completionsIn_failure hfail ht ⟨_, hrest⟩]

/-- A call that takes the lock and will publish nothing is harmless. -/
theorem harmless_acquire {op : Op} {fs : QueueFs} (served : op.Served)
    (accepted : (∃ reply, (op.exec J fs).outcome = .ok reply) ∨ (op.exec J fs).trace = [])
    (hquiet : ¬ Running.Disturbs
      ⟨op, (op.exec J fs).trace, (op.exec J fs).outcome, fs.historyBytes.length⟩) :
    Running.Harmless
      ⟨op, (op.exec J fs).trace, (op.exec J fs).outcome, fs.historyBytes.length⟩ fs := by
  rcases accepted with ⟨reply, hok⟩ | htrace
  · have hop : op.isStateMutation ≠ true := fun hm => hquiet ⟨hm, reply, hok⟩
    cases op with
    | appendHistory record =>
      refine Or.inr ⟨record, fs.historyBytes, [], served, rfl, (List.append_nil _).symm, ?_, ?_⟩
      · rw [List.nil_append]
        change (((fun _ => Reply.done) <$> append record : Store Reply) fs).trace.flatMap _ = _
        rw [trace_map, append_run]
        exact appended_appendTrace record fs.historyBytes
      · change ∀ ev ∈ (((fun _ => Reply.done) <$> append record : Store Reply) fs).trace, _
        rw [trace_map, append_run]
        exact isLog_appendTrace record fs.historyBytes
    | reopen fresh => exact served.elim
    | _ => exact absurd rfl hop
  · exact Or.inl htrace

theorem Shared.calm_of_free (h : s.running = none) : s.Calm := by
  intro r hr
  rw [h] at hr
  cases hr

/-- What a call leaves when it gives the lock back. -/
theorem SharedQueue.settle_cases (q : SharedQueue) (r : Running) :
    (r.Disturbs ∧ q.settle r.op r.outcome = q.publish) ∨
      (¬ r.Disturbs ∧ q.settle r.op r.outcome = q) := by
  unfold SharedQueue.settle Running.Disturbs
  cases r.outcome with
  | ok reply =>
    by_cases hm : r.op.isStateMutation = true
    · exact Or.inl ⟨⟨hm, reply, rfl⟩, if_pos hm⟩
    · exact Or.inr ⟨fun h => hm h.1, if_neg hm⟩
  | error err => exact Or.inr ⟨by simp, rfl⟩
  | diverges => exact Or.inr ⟨by simp, rfl⟩

theorem Shared.logEnd_of_running {r : Running} (h : s.running = some r) : s.logEnd = r.logged := by
  unfold Shared.logEnd
  rw [h]

theorem Shared.logEnd_of_free (h : s.running = none) : s.logEnd = s.fs.historyBytes.length := by
  unfold Shared.logEnd
  rw [h]

/-- The running call performs the piece `ev` of its work and has `todo` left. -/
theorem Shared.Sound.piece (h : s.Sound J cooldown) {r : Running} {ev : FsEvent}
    {todo : List FsEvent} (running : s.running = some r) (hne : r.todo ≠ [])
    (hpiece : ev.appended ++ todo.flatMap FsEvent.appended = r.todo.flatMap FsEvent.appended)
    (hlog : (∀ e ∈ r.todo, e.isLog = true) → ev.isLog = true ∧ ∀ e ∈ todo, e.isLog = true) :
    Shared.Sound J cooldown ⟨s.queue.withFs (s.fs.step ev), some { r with todo := todo }⟩ ∧
      s.Passes J ⟨s.queue.withFs (s.fs.step ev), some { r with todo := todo }⟩ := by
  have hgrows : s.fs.historyBytes.length ≤ (s.fs.step ev).historyBytes.length := by
    rw [historyBytes_step]
    exact (List.prefix_append _ _).length_le
  have hcalm : ¬ r.Disturbs → s.Calm := by
    intro hr r' hr'
    rw [running] at hr'
    exact Option.some.inj hr' ▸ hr
  have hstep : ¬ r.Disturbs → Alike J r.logged s.fs (s.fs.step ev) ∧
      Running.Harmless { r with todo := todo } (s.fs.step ev) := by
    intro hr
    have hharmless := h.harmless r running hr
    have hall : ∀ e ∈ r.todo, e.isLog = true := by
      rcases hharmless with hnil | ⟨-, -, -, -, -, -, -, hall⟩
      · exact absurd hnil hne
      · exact hall
    obtain ⟨hev, htodo⟩ := hlog hall
    exact alike_piece hharmless hev hne hpiece htodo
  have hquiet : Shared.Calm ⟨s.queue.withFs (s.fs.step ev), some { r with todo := todo }⟩ →
      ¬ r.Disturbs := fun hc => hc { r with todo := todo } rfl
  constructor
  · refine ⟨h.version, ?_, ?_, ?_⟩
    · intro r' hr' hd
      obtain rfl := Option.some.inj hr'
      exact (hstep hd).2
    · intro r' hr'
      obtain rfl := Option.some.inj hr'
      exact (h.logged r running).trans hgrows
    · intro hc
      have halike := (hstep (hquiet hc)).1
      exact (h.coherent (hcalm (hquiet hc))).congr rfl fun now => halike.schedule_eq cooldown now
  · refine ⟨Nat.le_refl _, ?_, ?_, ?_⟩
    · rw [Shared.logEnd_of_running running]
      exact Nat.le_refl _
    · intro n _ hu
      exact ⟨hu.1, hcalm (hquiet hu.2)⟩
    · intro n _ hu
      rw [Shared.logEnd_of_running running]
      exact (hstep (hquiet hu.2)).1

/-- A step of another task keeps the invariant and what a waiter relies on. -/
theorem Shared.Sound.step (h : s.Sound J cooldown) (hs : s.Step J s') :
    s'.Sound J cooldown ∧ s.Passes J s' := by
  cases hs with
  | @acquire op free served accepted =>
    have hcalm : s.Calm := Shared.calm_of_free free
    constructor
    · refine ⟨h.version, ?_, ?_, fun _ => h.coherent hcalm⟩
      · intro r hr hd
        obtain rfl := Option.some.inj hr
        exact harmless_acquire served accepted hd
      · intro r hr
        obtain rfl := Option.some.inj hr
        exact Nat.le_refl _
    · refine ⟨Nat.le_refl _, ?_, fun n _ hu => ⟨hu.1, hcalm⟩, fun n _ _ => Alike.refl J _ _⟩
      rw [Shared.logEnd_of_free free]
      exact Nat.le_refl _
  | @perform r ev todo running next =>
    refine h.piece running (by rw [next]; simp) (by rw [next, List.flatMap_cons]) ?_
    intro hall
    rw [next] at hall
    exact ⟨hall ev List.mem_cons_self, fun e he => hall e (List.mem_cons_of_mem ev he)⟩
  | @tear r a b todo running next =>
    refine h.piece running (by rw [next]; simp) ?_ ?_
    · rw [next, List.flatMap_cons, List.flatMap_cons, ← List.append_assoc]
      rfl
    · intro hall
      refine ⟨rfl, fun e he => ?_⟩
      rcases List.mem_cons.1 he with rfl | he
      · rfl
      · exact hall e (by rw [next]; exact List.mem_cons_of_mem _ he)
  | @release r running finished =>
    have hlogged := h.logged r running
    rcases SharedQueue.settle_cases s.queue r with ⟨hd, hsettle⟩ | ⟨hd, hsettle⟩
    · rw [hsettle]
      constructor
      · refine ⟨?_, ?_, ?_, fun _ => coherent_none J cooldown _⟩
        · change s.queue.stateVersion.value + 1 = UInt64.ofNat (s.commits + 1)
          rw [h.version, UInt64.ofNat_add]
          rfl
        · intro r' hr'
          cases hr'
        · intro r' hr'
          cases hr'
      · have hpublished : ∀ n ≤ s.commits, ¬ Shared.Undisturbed ⟨s.queue.publish, none⟩ n := by
          rintro n hn ⟨hcommits, -⟩
          change s.commits + 1 = n at hcommits
          omega
        refine ⟨Nat.le_succ _, ?_, fun n hn hu => absurd hu (hpublished n hn),
          fun n hn hu => absurd hu (hpublished n hn)⟩
        rw [Shared.logEnd_of_running running]
        exact hlogged
    · rw [hsettle]
      have hcalm : s.Calm := by
        intro r' hr'
        rw [running] at hr'
        exact Option.some.inj hr' ▸ hd
      constructor
      · refine ⟨h.version, ?_, ?_, fun _ => h.coherent hcalm⟩
        · intro r' hr'
          cases hr'
        · intro r' hr'
          cases hr'
      · refine ⟨Nat.le_refl _, ?_, fun n _ hu => ⟨hu.1, hcalm⟩, fun n _ _ => Alike.refl J _ _⟩
        rw [Shared.logEnd_of_running running]
        exact hlogged

/-- An observation only touches the cache. -/
theorem Shared.Sound.observe (h : s.Sound J cooldown) (free : s.running = none) (id : String)
    (token : Option AwaitCursor) (now : UInt64) :
    Shared.Sound J cooldown ⟨(s.queue.observeAwaitState J id token cooldown now).2, s.running⟩ ∧
      Shared.fs ⟨(s.queue.observeAwaitState J id token cooldown now).2, s.running⟩ = s.fs := by
  have hfs : (resolvePending J s.queue.state id token cooldown now).2.fs = s.fs :=
    fs_resolvePending s.queue.state id token now
  refine ⟨⟨h.version, ?_, ?_, fun _ => ?_⟩, hfs⟩
  · intro r hr
    rw [free] at hr
    cases hr
  · intro r hr
    rw [free] at hr
    cases hr
  · exact coherent_resolvePending (h.coherent (Shared.calm_of_free free)) id token now

/-- What an observation under a free lock returns. -/
theorem Shared.Sound.observed (h : s.Sound J cooldown) (free : s.running = none) (id : String)
    (token : Option AwaitCursor) (now : UInt64) :
    (s.queue.observeAwaitState J id token cooldown now).1 =
      (resolveAwaitPendingWithEta J s.fs id token (scheduledEta J s.fs cooldown now)).map
        fun pending => ⟨UInt64.ofNat s.commits, pending⟩ := by
  rw [← resolvePending_eq (h.coherent (Shared.calm_of_free free)) id token now, ← h.version]
  rfl

end Tasks

end Comenq
