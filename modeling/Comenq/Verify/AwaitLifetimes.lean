import Comenq.Store.Codec
import Comenq.Verify.AwaitLookups
import Comenq.Verify.QueueRuns
import Comenq.Verify.Recovery

/-!
# Waits are bound to lifetimes

An identifier is used again once its entry is gone, so the queue, the deletion marker and the
history log of one identifier speak of several lifetimes. `Story` is what happened in a run, told
apart by lifetime; `Story.Fits` says how the four files a lookup reads follow from it: a queued
entry is the latest lifetime of its identifier, the marker of an identifier that is not queued names
the latest lifetime if that was deleted and not posted, and behind the offset of a cursor the log
holds the posts of its lifetime. Each call keeps this (`AwaitRun.fits`), and the answers of
`resolveAwait` are read off the story.

The worker may post a lifetime that was deleted meanwhile, and whose identifier was taken over. Its
completion then clears the marker only if that is its own.
-/

namespace Comenq

open Traced CrashTrace JsonText LineLog Saturating

/-! ## Bytes without records -/

section RecordFree

variable {J : SerdeJson}

/-- No part of a line in these bytes is a record. -/
def RecordFree (J : SerdeJson) (bytes : Bytes) : Prop :=
  ∀ part, part <:+: bytes → nl ∉ part → segmentRecord J part = none

theorem RecordFree.mono {xs ys : Bytes} (h : RecordFree J ys) (hx : xs <:+: ys) : RecordFree J xs :=
  fun part hp hn => h part (hp.trans hx) hn

theorem recordFree_nil (J : SerdeJson) : RecordFree J [] := by
  intro part hp _
  rw [List.eq_nil_of_infix_nil hp]
  rfl

theorem RecordFree.recordsIn {xs : Bytes} (h : RecordFree J xs) : recordsIn J xs = [] := by
  by_cases hn : nl ∈ xs
  · obtain ⟨ys, zs, rfl, hy⟩ := List.eq_append_cons_of_mem hn
    have hz : RecordFree J zs := h.mono ⟨ys ++ [nl], [], by simp⟩
    rw [recordsIn_split, recordsIn_of_not_mem hy, h ys ⟨[], nl :: zs, by simp⟩ hy, hz.recordsIn]
    rfl
  · rw [recordsIn_of_not_mem hn, h xs List.infix_rfl hn]
    rfl
termination_by xs.length

/-- The unfinished last line of a log. -/
def openTail (log : Bytes) : Bytes := log.rtakeWhile (· != nl)

theorem openTail_eq {ys t : Bytes} (hy : Closed nl ys) (ht : nl ∉ t) : openTail (ys ++ t) = t := by
  unfold openTail
  induction t using List.reverseRecOn with
  | nil =>
    rcases List.eq_nil_or_concat' ys with rfl | ⟨zs, b, rfl⟩
    · rfl
    · obtain rfl : b = nl := hy b (by simp)
      rw [List.append_nil, List.rtakeWhile_concat_neg _ _ _ (by simp)]
  | append_singleton t b ih =>
    rw [List.mem_append, List.mem_singleton, not_or] at ht
    rw [← List.append_assoc, List.rtakeWhile_concat_pos _ _ _ (by simpa using Ne.symm ht.2),
      ih ht.1]

theorem openTail_of_closed {log : Bytes} (h : Closed nl log) : openTail log = [] := by
  have := openTail_eq h (t := []) List.not_mem_nil
  rwa [List.append_nil] at this

/-- The unfinished line after a write is what was unfinished and what was written, or a part of
it. -/
theorem openTail_append (log g : Bytes) : openTail (log ++ g) <:+ openTail log ++ g := by
  obtain ⟨ys, t, rfl, hy, ht⟩ := exists_tail nl log
  obtain ⟨zs, u, hg, hz, hu⟩ := exists_tail nl (t ++ g)
  have hclosed : Closed nl (ys ++ zs) := by
    rcases List.eq_nil_or_concat' zs with rfl | ⟨ws, b, rfl⟩
    · rwa [List.append_nil]
    · obtain rfl : b = nl := hz b (by simp)
      rw [← List.append_assoc]
      exact closed_append_singleton _
  rw [openTail_eq hy ht, List.append_assoc, hg, ← List.append_assoc, openTail_eq hclosed hu]
  exact List.suffix_append zs u

/-- Bytes that make no record of the unfinished line add none behind any offset. -/
theorem recordsIn_garbage {log g : Bytes} (h : RecordFree J (openTail log ++ g)) {m : Nat}
    (hm : m ≤ log.length) :
    recordsIn J ((log ++ g).drop m) = recordsIn J (log.drop m) := by
  obtain ⟨ys, t, rfl, hy, ht⟩ := exists_tail nl log
  rw [openTail_eq hy ht] at h
  have hdrop : ∀ rest, RecordFree J rest → recordsIn J ((ys ++ rest).drop m) =
      recordsIn J (ys.drop m) := by
    intro rest hrest
    rw [List.drop_append, recordsIn_append (closed_drop hy m),
      (hrest.mono (List.drop_suffix _ _).isInfix).recordsIn, List.append_nil]
  rw [List.append_assoc, hdrop _ h, hdrop _ (h.mono ⟨[], g, by simp⟩)]

/-- A finished append adds its record behind every offset of the log. -/
theorem recordsIn_appendedBytes {r : HistoryRecord} (hr : r.FitsLine) {log : Bytes} {m : Nat}
    (hm : m ≤ log.length) :
    recordsIn J ((log ++ appendedBytes r log).drop m) = recordsIn J (log.drop m) ++ [r] := by
  rw [List.drop_append_of_le_length hm]
  unfold appendedBytes
  by_cases hc : Closed nl log
  · rw [if_pos hc, List.nil_append, recordsIn_append (closed_drop hc m), recordsIn_line hr]
  · rw [if_neg hc, List.singleton_append, recordsIn_split, recordsIn_line hr]

theorem closed_append_appendedBytes (r : HistoryRecord) (log : Bytes) :
    Closed nl (log ++ appendedBytes r log) := by
  unfold appendedBytes
  rw [← List.append_assoc, ← List.append_assoc]
  exact closed_append_singleton _

end RecordFree

/-! ## What happened -/

/-- The lifetimes put into the queue, newest first; those deleted from it; the posts in the order of
the log; the cursors handed out, each with its identifier; and the claim the worker holds. -/
structure Story where
  enqueued : List (String × String)
  deleted : List String
  posts : List HistoryRecord
  cursors : List (String × AwaitCursor)
  inFlight : Option StoredEntry

namespace Story

def start : Story := ⟨[], [], [], [], none⟩

/-- The lifetime put most recently under an identifier. -/
def latest (s : Story) (id : String) : Option String := s.enqueued.lookup id

/-- The lifetime was posted. -/
def Completed (s : Story) (i : String) : Prop := i ∈ s.posts.map HistoryRecord.incarnation

/-- The lifetime was deleted and not posted. -/
def Withdrawn (s : Story) (i : String) : Prop := i ∈ s.deleted ∧ ¬ s.Completed i

instance (s : Story) (i : String) : Decidable (s.Completed i) :=
  inferInstanceAs (Decidable (_ ∈ _))

instance (s : Story) (i : String) : Decidable (s.Withdrawn i) :=
  inferInstanceAs (Decidable (_ ∧ _))

/-- The marker an identifier has when nothing is queued under it. -/
def marker (s : Story) (id : String) : Option Bytes :=
  match s.latest id with
  | none => none
  | some i => if s.Withdrawn i then some (AwaitDeletionRecord.toVec ⟨i⟩) else none

theorem marker_of_withdrawn {s : Story} {id i : String} (hl : s.latest id = some i)
    (hw : s.Withdrawn i) : s.marker id = some (AwaitDeletionRecord.toVec ⟨i⟩) := by
  unfold marker
  rw [hl]
  exact if_pos hw

theorem marker_of_not {s : Story} {id : String} (h : ∀ i, s.latest id = some i → ¬ s.Withdrawn i) :
    s.marker id = none := by
  unfold marker
  cases hl : s.latest id with
  | none => rfl
  | some i => exact if_neg (h i hl)

theorem marker_congr {s s' : Story} {id : String} (hl : s'.latest id = s.latest id)
    (hw : ∀ i, s.latest id = some i → (s'.Withdrawn i ↔ s.Withdrawn i)) :
    s'.marker id = s.marker id := by
  by_cases h : ∃ i, s.latest id = some i ∧ s.Withdrawn i
  · obtain ⟨i, hi, hwi⟩ := h
    rw [marker_of_withdrawn hi hwi, marker_of_withdrawn (hl.trans hi) ((hw i hi).2 hwi)]
  · have hnot : ∀ i, s.latest id = some i → ¬ s.Withdrawn i := fun i hi hwi => h ⟨i, hi, hwi⟩
    rw [marker_of_not hnot, marker_of_not fun i hi hwi =>
      hnot i (hl.symm.trans hi) ((hw i (hl.symm.trans hi)).1 hwi)]

/-- A `put` that answers with the incarnation it drew has started a lifetime. -/
def put (s : Story) (incarnation : Uuid) : Outcome StoreError (StoredEntry × UInt64) → Story
  | .ok (e, _) =>
    if e.incarnation = incarnation.text
      then { s with enqueued := (e.id, e.incarnation) :: s.enqueued }
    else s
  | _ => s

/-- A deletion ends the lifetime it finds. -/
def del (s : Story) : Except StoreError StoredEntry → Story
  | .ok e => { s with deleted := e.incarnation :: s.deleted }
  | .error _ => s

/-- The worker holds what a claim attempt hands out. -/
def claim (s : Story) : Outcome StoreError (Option (StoredEntry × UInt64)) → Story
  | .ok (some (e, wait)) => if wait = 0 then { s with inFlight := some e } else s
  | _ => s

/-- A completion ends the claim it is made with. -/
def post (s : Story) (r : HistoryRecord) : Story :=
  { s with posts := s.posts ++ [r], inFlight := none }

end Story

/-- Runs of calls that are carried out as a whole, beside failure records, garbage at the end of the
log and lookups that hand out cursors. The worker ends its claim before it takes the next. -/
inductive AwaitRun (J : SerdeJson) : Story → QueueFs → Prop
  | start : AwaitRun J .start .empty
  | put {s : Story} {fs : QueueFs} (run : AwaitRun J s fs) (request : CommentRequest)
      (options : PutOptions) (now : UInt64) (incarnation : Uuid)
      (fresh : incarnation.text ∉ s.enqueued.map Prod.snd) :
      AwaitRun J (s.put incarnation (putWithEta J request options now incarnation fs).outcome)
        (final (putWithEta J request options now incarnation) fs)
  | bump {s : Story} {fs : QueueFs} (run : AwaitRun J s fs) (id : String) :
      AwaitRun J s (final (bump J id) fs)
  | bust {s : Story} {fs : QueueFs} (run : AwaitRun J s fs) (id : String) :
      AwaitRun J s (final (bust J id) fs)
  | del {s : Story} {fs : QueueFs} (run : AwaitRun J s fs) (id : String) :
      AwaitRun J (s.del (find J fs id)) (final (del J id) fs)
  | claim {s : Story} {fs : QueueFs} (run : AwaitRun J s fs) (idle : s.inFlight = none)
      (cooldown now : UInt64) (token : Uuid) :
      AwaitRun J (s.claim (claimNextDue J cooldown now token fs).outcome)
        (final (claimNextDue J cooldown now token) fs)
  | release {s : Story} {fs : QueueFs} (run : AwaitRun J s fs) {held : StoredEntry} {token : String}
      (holds : s.inFlight = some held) (claim : held.claimToken = some token) (now : UInt64) :
      AwaitRun J { s with inFlight := none } (final (releaseClaim J held.id token now) fs)
  | complete {s : Story} {fs : QueueFs} (run : AwaitRun J s fs) {held : StoredEntry}
      (holds : s.inFlight = some held) (tokenHash : String) (now : UInt64)
      (commentUrl : Option String) (attempt : Uuid)
      (fits : (HistoryRecord.succeeded attempt held tokenHash now commentUrl).FitsLine) :
      AwaitRun J (s.post (.succeeded attempt held tokenHash now commentUrl))
        (final (completeClaimWithToken J held tokenHash now commentUrl attempt) fs)
  | failure {s : Story} {fs : QueueFs} (run : AwaitRun J s fs) {record : HistoryRecord}
      (failed : record.success = false) : AwaitRun J s (final (append record) fs)
  | garbage {s : Story} {fs : QueueFs} (run : AwaitRun J s fs) {g : Bytes}
      (free : RecordFree J (openTail fs.historyBytes ++ g)) :
      AwaitRun J s { fs with history := some (fs.historyBytes ++ g) }
  | reopen {s : Story} {fs : QueueFs} (run : AwaitRun J s fs) (fresh : String → Uuid) :
      AwaitRun J { s with inFlight := none } (final (openStore J fresh) fs)
  | look {s : Story} {fs : QueueFs} (run : AwaitRun J s fs) {id : String}
      {cooldown now eta : UInt64} {cursor : AwaitCursor}
      (pending : resolveAwait J fs id none cooldown now = .ok (.pending eta cursor)) :
      AwaitRun J { s with cursors := (id, cursor) :: s.cursors } fs

/-! ## The log -/

/-- The log holds the posts, and behind the offset of a cursor all of its lifetime. -/
structure Story.Logs (J : SerdeJson) (s : Story) (log : Bytes) : Prop where
  posts : (recordsIn J log).filter HistoryRecord.success = s.posts
  offset : ∀ c ∈ s.cursors, c.2.offset ≤ log.length
  behind : ∀ c ∈ s.cursors, completionsIn J c.1 (some c.2) log =
    s.posts.filter (isCompletionOf c.1 (some c.2))
  tail : RecordFree J (openTail log)

namespace Story.Logs

variable {J : SerdeJson} {s : Story} {log : Bytes}

/-- A longer log with the same successes behind every offset. -/
theorem grow {log' : Bytes} (h : s.Logs J log) (hlen : log.length ≤ log'.length)
    (hsame : ∀ m ≤ log.length, ∀ p : HistoryRecord → Bool, (∀ r, p r = true → r.success = true) →
      (recordsIn J (log'.drop m)).filter p = (recordsIn J (log.drop m)).filter p)
    (htail : RecordFree J (openTail log')) : s.Logs J log' where
  posts := by
    have := hsame 0 (Nat.zero_le _) HistoryRecord.success fun _ hr => hr
    rw [List.drop_zero, List.drop_zero] at this
    rw [this, h.posts]
  offset c hc := (h.offset c hc).trans hlen
  behind c hc := by
    refine (hsame c.2.offset (h.offset c hc) (isCompletionOf c.1 (some c.2)) ?_).trans
      (h.behind c hc)
    intro r hr
    unfold isCompletionOf at hr
    simp only [Bool.and_eq_true] at hr
    exact hr.1.2
  tail := htail

theorem garbage {g : Bytes} (h : s.Logs J log) (hg : RecordFree J (openTail log ++ g)) :
    s.Logs J (log ++ g) := by
  refine h.grow (by simp) (fun m hm p _ => ?_) (hg.mono (openTail_append log g).isInfix)
  rw [recordsIn_garbage hg hm]

theorem recordFree_appended (r : HistoryRecord) (log : Bytes) :
    RecordFree J (openTail (log ++ appendedBytes r log)) := by
  rw [openTail_of_closed (closed_append_appendedBytes r log)]
  exact recordFree_nil J

theorem failure {r : HistoryRecord} (h : s.Logs J log) (hr : r.success = false) :
    s.Logs J (log ++ appendedBytes r log) := by
  refine h.grow (by simp) (fun m hm p hp => ?_) (recordFree_appended r log)
  have hreject : ¬ p r = true := fun hpr => by
    rw [hp r hpr] at hr
    cases hr
  obtain ⟨added, hadded, hrecords⟩ :=
    recordsIn_appended (J := J) hm (List.prefix_rfl (l := appendedBytes r log))
  rw [hrecords, List.filter_append]
  rcases hadded with rfl | rfl
  · rw [List.filter_nil, List.append_nil]
  · rw [List.filter_cons_of_neg hreject, List.filter_nil, List.append_nil]

theorem post {r : HistoryRecord} (h : s.Logs J log) (hr : r.success = true) (hfits : r.FitsLine) :
    (s.post r).Logs J (log ++ appendedBytes r log) where
  posts := by
    have hall := @recordsIn_appendedBytes J r hfits log 0 (Nat.zero_le _)
    rw [List.drop_zero, List.drop_zero] at hall
    rw [hall, List.filter_append, h.posts, List.filter_cons_of_pos hr, List.filter_nil]
    rfl
  offset c hc := (h.offset c hc).trans (by simp)
  behind c hc := by
    have hold := h.behind c hc
    unfold completionsIn at hold ⊢
    rw [recordsIn_appendedBytes (m := cursorOffset (some c.2)) hfits (h.offset c hc),
      List.filter_append, hold]
    exact (List.filter_append _ _).symm
  tail := recordFree_appended r log

/-- A cursor at the end of the log, of a lifetime without posts. -/
theorem look {id i : String} (h : s.Logs J log) (hi : ¬ s.Completed i) :
    Story.Logs J { s with cursors := (id, ⟨log.length, i⟩) :: s.cursors } log where
  posts := h.posts
  offset c hc := by
    rcases List.mem_cons.1 hc with rfl | hc
    · exact Nat.le_refl _
    · exact h.offset c hc
  behind c hc := by
    rcases List.mem_cons.1 hc with rfl | hc
    · have hnone : s.posts.filter (isCompletionOf id (some ⟨log.length, i⟩)) = [] := by
        rw [List.filter_eq_nil_iff]
        intro r hr hm
        unfold isCompletionOf at hm
        simp only [Bool.and_eq_true, beq_iff_eq] at hm
        exact hi (List.mem_map.2 ⟨r, hr, hm.2⟩)
      unfold completionsIn cursorOffset
      rw [List.drop_length, recordsIn_nil, List.filter_nil]
      exact hnone.symm
    · exact h.behind c hc
  tail := h.tail

end Story.Logs

/-- A first pending answer carries the end of the log and the lifetime in the queue. -/
theorem cursor_of_pending {J : SerdeJson} {fs : QueueFs} {id : String} {cooldown now eta : UInt64}
    {c : AwaitCursor} (h : resolveAwait J fs id none cooldown now = .ok (.pending eta c)) :
    ∃ e ∈ queued J fs, e.id = id ∧ c = ⟨fs.historyBytes.length, e.incarnation⟩ := by
  rw [resolveAwait_eq] at h
  split at h
  · cases h
  · next pending hpending =>
    obtain ⟨e, eta', hf, -, -, rfl⟩ := pending_cases hpending
    obtain ⟨he, hid⟩ := find_ok_iff.1 hf
    exact ⟨e, he, hid, (AwaitState.pending.inj (Except.ok.inj h)).2.symm⟩
  · exact absurd h (resolveAwaitCompletion_ne_pending eta c)

/-! ## The files -/

/-- The entry carries the claim `held` was handed out with. -/
structure HandedOut (held e : StoredEntry) : Prop where
  id : e.id = held.id
  incarnation : e.incarnation = held.incarnation
  claim : e.claimToken = held.claimToken

/-- The claim the worker holds: its lifetime is still queued with the claim, or was deleted. -/
structure Story.Holds (J : SerdeJson) (s : Story) (fs : QueueFs) (held : StoredEntry) : Prop where
  valid : isValidId held.id = true
  claim : held.claimToken.isSome = true
  enqueued : (held.id, held.incarnation) ∈ s.enqueued
  open_ : ¬ s.Completed held.incarnation
  carried : held.incarnation ∈ s.deleted ∨ ∃ e ∈ queued J fs, HandedOut held e

theorem Story.Holds.flight {J : SerdeJson} {s : Story} {fs : QueueFs} {held : StoredEntry}
    (h : s.Holds J fs held) (flight : Option StoredEntry) :
    Story.Holds J { s with inFlight := flight } fs held :=
  ⟨h.valid, h.claim, h.enqueued, h.open_, h.carried⟩

/-- The files are as the story says. -/
structure Story.Fits (J : SerdeJson) (s : Story) (fs : QueueFs) : Prop where
  clean : Clean J fs
  settled : fs.completion = none
  distinct : (s.enqueued.map Prod.snd).Nodup
  deleted : ∀ i ∈ s.deleted, i ∈ s.enqueued.map Prod.snd
  posts : ∀ r ∈ s.posts, (r.id, r.incarnation) ∈ s.enqueued
  once : (s.posts.map HistoryRecord.incarnation).Nodup
  cursors : ∀ c ∈ s.cursors, isValidId c.1 = true ∧ (c.1, c.2.incarnation) ∈ s.enqueued
  live : ∀ e ∈ queued J fs, s.latest e.id = some e.incarnation ∧ e.incarnation ∉ s.deleted ∧
    ¬ s.Completed e.incarnation
  claims : ∀ e ∈ queued J fs, ∀ token, e.claimToken = some token →
    ∃ held, s.inFlight = some held ∧ HandedOut held e
  flight : ∀ held, s.inFlight = some held → s.Holds J fs held
  marker : ∀ id, (∀ e ∈ queued J fs, e.id ≠ id) → fs.awaitDeletions.lookup id = s.marker id
  logs : s.Logs J fs.historyBytes

theorem mem_of_lookup {α β : Type} [BEq α] [LawfulBEq α] {a : α} {b : β} {l : List (α × β)}
    (h : l.lookup a = some b) : (a, b) ∈ l := by
  obtain ⟨l₁, l₂, rfl, -⟩ := List.lookup_eq_some_iff.1 h
  simp

namespace Story.Fits

variable {J : SerdeJson} {s : Story} {fs fs' : QueueFs}

theorem start (J : SerdeJson) : Story.start.Fits J .empty where
  clean := Clean.empty J
  settled := rfl
  distinct := List.nodup_nil
  deleted i hi := by cases hi
  posts r hr := by cases hr
  once := List.nodup_nil
  cursors c hc := by cases hc
  live e he := by cases he
  claims e he := by cases he
  flight held hh := by cases hh
  marker id _ := rfl
  logs :=
    { posts := by
        change (recordsIn J []).filter _ = []
        rw [recordsIn_nil]
        rfl
      offset := fun c hc => by cases hc
      behind := fun c hc => by cases hc
      tail := recordFree_nil J }

/-! A lifetime belongs to one identifier. -/

theorem id_unique (h : s.Fits J fs) {id id' i : String} (h₁ : (id, i) ∈ s.enqueued)
    (h₂ : (id', i) ∈ s.enqueued) : id = id' :=
  congrArg Prod.fst (List.inj_on_of_nodup_map h.distinct h₁ h₂ rfl)

theorem mem_enqueued (h : s.Fits J fs) {e : StoredEntry} (he : e ∈ queued J fs) :
    (e.id, e.incarnation) ∈ s.enqueued :=
  mem_of_lookup (h.live e he).1

theorem eq_of_incarnation (h : s.Fits J fs) {e e' : StoredEntry} (he : e ∈ queued J fs)
    (he' : e' ∈ queued J fs) (hi : e.incarnation = e'.incarnation) : e = e' :=
  eq_of_mem_queued he he' (h.id_unique (h.mem_enqueued he) (hi ▸ h.mem_enqueued he'))

/-- A call that keeps the lifetimes in the queue, the log and the markers of all other identifiers;
only the claim may change hands. -/
theorem requeue (h : s.Fits J fs) (hclean : Clean J fs') (hsettled : fs'.completion = fs.completion)
    (hlog : fs'.history = fs.history)
    (hback : ∀ x ∈ queued J fs', ∃ e ∈ queued J fs, x.id = e.id ∧ x.incarnation = e.incarnation)
    (hkept : ∀ e ∈ queued J fs, ∃ x ∈ queued J fs', x.id = e.id)
    (hmarkers : ∀ id, (∀ e ∈ queued J fs, e.id ≠ id) →
      fs'.awaitDeletions.lookup id = fs.awaitDeletions.lookup id)
    (flight : Option StoredEntry)
    (hclaims : ∀ e ∈ queued J fs', ∀ token, e.claimToken = some token →
      ∃ held, flight = some held ∧ HandedOut held e)
    (hflight : ∀ held, flight = some held → s.Holds J fs' held) :
    Story.Fits J { s with inFlight := flight } fs' where
  clean := hclean
  settled := hsettled.trans h.settled
  distinct := h.distinct
  deleted := h.deleted
  posts := h.posts
  once := h.once
  cursors := h.cursors
  live x hx := by
    obtain ⟨e, he, hid, hi⟩ := hback x hx
    rw [hid, hi]
    exact h.live e he
  claims := hclaims
  flight held hh := (hflight held hh).flight flight
  marker id hid := by
    have hid' : ∀ e ∈ queued J fs, e.id ≠ id := by
      intro e he
      obtain ⟨x, hx, hxe⟩ := hkept e he
      exact hxe ▸ hid x hx
    rw [hmarkers id hid']
    exact h.marker id hid'
  logs := by
    have : fs'.historyBytes = fs.historyBytes := by
      unfold QueueFs.historyBytes
      rw [hlog]
    rw [this]
    exact ⟨h.logs.posts, h.logs.offset, h.logs.behind, h.logs.tail⟩

/-! ## Reordering, claiming, releasing, opening -/

/-- An entry rewritten in place, with the claim as the story has it afterwards. -/
theorem rewrite (h : s.Fits J fs) {e e' : StoredEntry} (he : e ∈ queued J fs) (hu : e.Updates e')
    (flight : Option StoredEntry)
    (hclaims : ∀ x, x = e' ∨ (x ∈ queued J fs ∧ x.id ≠ e.id) → ∀ token, x.claimToken = some token →
      ∃ held, flight = some held ∧ HandedOut held x)
    (hflight : ∀ held, flight = some held →
      s.Holds J (fs.write e'.toVecPretty (.entry e'.id)) held) :
    Story.Fits J { s with inFlight := flight } (fs.write e'.toVecPretty (.entry e'.id)) := by
  have hmem := fun x => @Accounted.mem_write_update J fs h.clean.accounted e e' he hu x
  have hs := h.clean.accounted.length_le_of_updates he hu
  have hi : e'.incarnation = e.incarnation := by
    obtain ⟨u, hl⟩ := h.clean.lifetime he
    rcases hu.incarnation with hi | ⟨hi, -⟩
    · exact hi
    · exact absurd (hl.symm.trans hi) u.text_ne_empty
  have hclean : Clean J (fs.write e'.toVecPretty (.entry e'.id)) := by
    refine h.clean.write_entry (h.clean.accounted.write_update he hu)
      (hu.id_eq ▸ isValidId_of_mem he) hs ?_
    rw [hi]
    exact h.clean.lifetime he
  refine h.requeue hclean rfl rfl ?_ ?_ (fun _ _ => rfl) flight
    (fun x hx => hclaims x ((hmem x).1 hx)) hflight
  · intro x hx
    rcases (hmem x).1 hx with rfl | ⟨hx, -⟩
    · exact ⟨e, he, hu.id_eq, hi⟩
    · exact ⟨x, hx, rfl, rfl⟩
  · intro x hx
    by_cases hid : x.id = e.id
    · exact ⟨e', (hmem e').2 (Or.inl rfl), hu.id_eq.trans hid.symm⟩
    · exact ⟨x, (hmem x).2 (Or.inr ⟨hx, hid⟩), rfl⟩

theorem reorder (h : s.Fits J fs) (id : String)
    (newOrder : StoredEntry → List StoredEntry → Int64) :
    s.Fits J (final (Comenq.reorder J id newOrder) fs) := by
  unfold final
  cases hf : find J fs id with
  | error err =>
    rw [h.clean.accounted.covered.reorder_error hf]
    exact h
  | ok e =>
    obtain ⟨he, rfl⟩ := find_ok_iff.1 hf
    rw [h.clean.accounted.covered.reorder_run hf]
    set e' := { e with order := newOrder e (sortEntries (queued J fs)) } with he'
    have hu : e.Updates e' := e.updates_order _
    have hmem := fun x => @Accounted.mem_write_update J fs h.clean.accounted e e' he hu x
    refine h.rewrite he hu s.inFlight ?_ ?_
    · rintro x (rfl | ⟨hx, -⟩) token ht
      · obtain ⟨held, hh, hc⟩ := h.claims e he token ht
        exact ⟨held, hh, hc.id, hc.incarnation, hc.claim⟩
      · exact h.claims x hx token ht
    · intro held hh
      have hold := h.flight held hh
      refine ⟨hold.valid, hold.claim, hold.enqueued, hold.open_, hold.carried.imp_right ?_⟩
      rintro ⟨x, hx, hc⟩
      by_cases hid : x.id = e.id
      · obtain rfl := eq_of_mem_queued hx he hid
        exact ⟨e', (hmem e').2 (Or.inl rfl), hc.id, hc.incarnation, hc.claim⟩
      · exact ⟨x, (hmem x).2 (Or.inr ⟨hx, hid⟩), hc⟩

theorem claim (h : s.Fits J fs) (hidle : s.inFlight = none) (cooldown now : UInt64) (token : Uuid) :
    (s.claim (claimNextDue J cooldown now token fs).outcome).Fits J
      (final (claimNextDue J cooldown now token) fs) := by
  unfold final
  rcases h.clean.accounted.covered.claimNextDue_cases cooldown now token with
    ⟨err, -, hrun⟩ | ⟨due, -, hw, hrun⟩ | ⟨e, hd, hrun⟩
  · rw [hrun]
    exact h
  · rw [hrun]
    have hsame : s.claim (.ok due) = s := by
      cases due with
      | none => rfl
      | some p =>
        have hwait := hw p.1 p.2 rfl
        exact if_neg (UInt64.pos_iff_ne_zero.1 hwait)
    exact hsame.symm ▸ h
  · rw [hrun]
    have he := mem_of_nextDue hd
    have hlive := h.live e he
    refine h.rewrite he (e.updates_claim token)
      (some { e with claimToken := some token.text }) ?_ ?_
    · rintro x (rfl | ⟨hx, -⟩) other ht
      · exact ⟨_, rfl, rfl, rfl, rfl⟩
      · -- no claim was out
        obtain ⟨held, hh, -⟩ := h.claims x hx other ht
        rw [hidle] at hh
        cases hh
    · intro held hh
      obtain rfl := Option.some.inj hh
      have hv : isValidId e.id = true := isValidId_of_mem he
      have hin : (e.id, e.incarnation) ∈ s.enqueued := h.mem_enqueued he
      refine ⟨hv, rfl, hin, hlive.2.2, Or.inr ⟨_, ?_, rfl, rfl, rfl⟩⟩
      exact (h.clean.accounted.mem_write_update he (e.updates_claim token)).2 (Or.inl rfl)

/-- When the worker's claim is gone, nothing is claimed. -/
theorem idle (h : s.Fits J fs) (hc : ∀ e ∈ queued J fs, e.claimToken = none) :
    Story.Fits J { s with inFlight := none } fs :=
  h.requeue h.clean rfl rfl (fun x hx => ⟨x, hx, rfl, rfl⟩) (fun e he => ⟨e, he, rfl⟩)
    (fun _ _ => rfl) none (fun e he token ht => by rw [hc e he] at ht; cases ht)
    fun held hh => by cases hh

theorem release (h : s.Fits J fs) {held : StoredEntry} {token : String}
    (hheld : s.inFlight = some held) (ht : held.claimToken = some token) (now : UInt64) :
    Story.Fits J { s with inFlight := none } (final (releaseClaim J held.id token now) fs) := by
  by_cases hcarried : ∃ e ∈ queued J fs, e.id = held.id ∧ e.claimToken = some token
  · obtain ⟨e, he, hid, htoken⟩ := hcarried
    obtain ⟨previous, hp⟩ := h.clean.lastAttempt_ok
    unfold final
    rw [h.clean.accounted.covered.releaseClaim_run (find_ok_iff.2 ⟨he, hid⟩) htoken hp]
    set time := decimalU64 (maxU (previous.getD 0) now) with htime
    -- the time of the attempt is written first
    have hstamp : s.Fits J { fs with lastAttempt := some time } :=
      h.requeue (h.clean.step (.attempted _)) rfl rfl (fun x hx => ⟨x, hx, rfl, rfl⟩)
        (fun x hx => ⟨x, hx, rfl⟩) (fun _ _ => rfl) s.inFlight h.claims fun held hh => by
          have hold := h.flight held hh
          exact ⟨hold.valid, hold.claim, hold.enqueued, hold.open_, hold.carried⟩
    have he' : e ∈ queued J { fs with lastAttempt := some time } := he
    have hfits := hstamp.rewrite he' e.updates_release none ?_ fun held hh => by cases hh
    · rw [← hid]
      exact hfits
    · rintro x (rfl | ⟨hx, hne⟩) other hx'
      · cases hx'
      · obtain ⟨held', hh', hc⟩ := h.claims x hx other hx'
        obtain rfl := Option.some.inj (hheld.symm.trans hh')
        exact absurd (hc.id.trans hid.symm) hne
  · have hstale : ∀ e, find J fs held.id = .ok e → e.claimToken ≠ some token := fun e hf hte =>
      hcarried ⟨e, (find_ok_iff.1 hf).1, (find_ok_iff.1 hf).2, hte⟩
    have htrace := releaseClaim_stale hstale now
    unfold final
    rw [htrace]
    refine h.idle fun e he => ?_
    by_contra hne
    obtain ⟨other, hother⟩ := Option.ne_none_iff_exists'.1 hne
    obtain ⟨held', hh', hc⟩ := h.claims e he other hother
    obtain rfl := Option.some.inj (hheld.symm.trans hh')
    exact hcarried ⟨e, he, hc.id, hc.claim.trans ht⟩

theorem reopen (h : s.Fits J fs) (fresh : String → Uuid) :
    Story.Fits J { s with inFlight := none } (final (openStore J fresh) fs) := by
  obtain ⟨-, -, hclean, ho⟩ := (h.clean.succeeds_openStore_none h.settled fresh).final
  refine h.requeue hclean ho.completion ho.history ?_ ?_ ?_ none ?_ fun held hh => by cases hh
  · intro x hx
    obtain ⟨e, he, rfl⟩ := (ho.queue x).1 hx
    exact ⟨e, he, rfl, rfl⟩
  · intro e he
    exact ⟨e.unclaimed, (ho.queue _).2 ⟨e, he, rfl⟩, rfl⟩
  · intro id hid
    rw [ho.markers, if_neg]
    intro hm
    obtain ⟨e, he, heid⟩ := List.mem_map.1 hm
    exact hid e he heid
  · intro x hx token ht
    obtain ⟨e, -, rfl⟩ := (ho.queue x).1 hx
    cases ht

/-! ## New lifetimes -/

theorem latest_cons_self (s : Story) (id i : String) :
    Story.latest { s with enqueued := (id, i) :: s.enqueued } id = some i :=
  List.lookup_cons_self

theorem latest_cons_ne (s : Story) {id id' : String} (i : String) (hne : id' ≠ id) :
    Story.latest { s with enqueued := (id, i) :: s.enqueued } id' = s.latest id' := by
  unfold Story.latest
  rw [List.lookup_cons, beq_false_of_ne hne]

/-- A new entry under a free identifier starts a lifetime. -/
theorem enroll (h : s.Fits J fs) {e : StoredEntry} (hin : Enrolls J fs e) (hc : e.claimToken = none)
    (hl : ∃ u : Uuid, e.incarnation = u.text) (hfresh : e.incarnation ∉ s.enqueued.map Prod.snd) :
    Story.Fits J { s with enqueued := (e.id, e.incarnation) :: s.enqueued }
      (fs.write e.toVecPretty (.entry e.id)) := by
  have hsize : e.toVecPretty.length ≤ maxEntryBytes := hin.size.trans (Nat.sub_le _ _)
  have hmem := fun x => @mem_queued_write J fs e x hin.valid hsize
  have hfree : ∀ x ∈ queued J fs, x.id ≠ e.id := by
    intro x hx hid
    obtain ⟨-, bytes, hb, -⟩ := mem_queued.1 hx
    rw [hid, hin.free] at hb
    cases hb
  have hposts : ¬ s.Completed e.incarnation := by
    intro hm
    obtain ⟨r, hr, hi⟩ := List.mem_map.1 hm
    exact hfresh (hi ▸ List.mem_map.2 ⟨_, h.posts r hr, rfl⟩)
  exact
    { clean := h.clean.step (k := .enroll e.id e.incarnation) (.enroll hin.valid hin.free hin.limits
        hin.count hin.size hin.budget hc hl)
      settled := h.settled
      distinct := List.nodup_cons.2 ⟨hfresh, h.distinct⟩
      deleted := fun i hi => List.mem_cons_of_mem _ (h.deleted i hi)
      posts := fun r hr => List.mem_cons_of_mem _ (h.posts r hr)
      once := h.once
      cursors := fun c hc => ⟨(h.cursors c hc).1, List.mem_cons_of_mem _ (h.cursors c hc).2⟩
      live := by
        intro x hx
        rcases (hmem x).1 hx with rfl | ⟨hx, hne⟩
        · exact ⟨latest_cons_self s _ _, fun hd => hfresh (h.deleted _ hd), hposts⟩
        · rw [latest_cons_ne s _ hne]
          exact h.live x hx
      claims := by
        intro x hx token ht
        rcases (hmem x).1 hx with rfl | ⟨hx, -⟩
        · rw [hc] at ht; cases ht
        · exact h.claims x hx token ht
      flight := by
        intro held hh
        have hold := h.flight held hh
        refine ⟨hold.valid, hold.claim, List.mem_cons_of_mem _ hold.enqueued, hold.open_,
          hold.carried.imp_right ?_⟩
        rintro ⟨x, hx, hcar⟩
        exact ⟨x, (hmem x).2 (Or.inr ⟨hx, hfree x hx⟩), hcar⟩
      marker := by
        intro id hid
        have hne : id ≠ e.id := fun he => hid e ((hmem e).2 (Or.inl rfl)) he.symm
        have hold : ∀ x ∈ queued J fs, x.id ≠ id := fun x hx =>
          hid x ((hmem x).2 (Or.inr ⟨hx, hfree x hx⟩))
        change fs.awaitDeletions.lookup id = _
        rw [h.marker id hold]
        exact (marker_congr (latest_cons_ne s _ hne) fun _ _ => Iff.rfl).symm
      logs := ⟨h.logs.posts, h.logs.offset, h.logs.behind, h.logs.tail⟩ }

theorem put (h : s.Fits J fs) (request : CommentRequest) (options : PutOptions) (now : UInt64)
    {incarnation : Uuid} (hfresh : incarnation.text ∉ s.enqueued.map Prod.snd) :
    (s.put incarnation (putWithEta J request options now incarnation fs).outcome).Fits J
      (final (putWithEta J request options now incarnation) fs) := by
  unfold final
  rcases @put_cases J fs request options now incarnation with
    ⟨htrace, hreply⟩ | ⟨id, eta, hin, -, hrun⟩
  · rw [htrace]
    cases ho : (putWithEta J request options now incarnation fs).outcome with
    | error err => exact h
    | diverges => exact h
    | ok reply =>
      obtain ⟨e, eta⟩ := reply
      have he := (hreply e eta ho).1
      have hold : e.incarnation ≠ incarnation.text := by
        intro hi
        exact hfresh (hi ▸ List.mem_map.2 ⟨_, h.mem_enqueued he, rfl⟩)
      have hsame : s.put incarnation (.ok (e, eta)) = s := if_neg hold
      exact hsame.symm ▸ h
  · rw [hrun]
    have hnew : s.put incarnation (.ok (newEntry request options now incarnation id
        (sortEntries (queued J fs)), eta)) =
        { s with enqueued := (id, incarnation.text) :: s.enqueued } :=
      if_pos rfl
    rw [hnew]
    exact h.enroll hin rfl ⟨incarnation, rfl⟩ hfresh

/-! ## Deletions -/

theorem del (h : s.Fits J fs) (id : String) :
    (s.del (find J fs id)).Fits J (final (Comenq.del J id) fs) := by
  unfold final
  cases hf : find J fs id with
  | error err =>
    rw [del_error hf]
    exact h
  | ok e =>
    rw [del_run hf]
    obtain ⟨he, rfl⟩ := find_ok_iff.1 hf
    have hlive := h.live e he
    have hmem : ∀ x, x ∈ queued J ((fs.write (AwaitDeletionRecord.toVec ⟨e.incarnation⟩)
        (.awaitDeletion e.id)).remove (.entry e.id)) ↔ x ∈ queued J fs ∧ x.id ≠ e.id := fun x =>
      mem_queued_remove
    -- no other identifier has the lifetime that is deleted
    have hother : ∀ id', id' ≠ e.id → s.latest id' ≠ some e.incarnation := fun id' hne hl =>
      hne (h.id_unique (mem_of_lookup hl) (h.mem_enqueued he))
    exact
      { clean := (h.clean.step (.mark he)).remove_entry e.id
        settled := h.settled
        distinct := h.distinct
        deleted := fun i hi => by
          rcases List.mem_cons.1 hi with rfl | hi
          · exact List.mem_map.2 ⟨_, h.mem_enqueued he, rfl⟩
          · exact h.deleted i hi
        posts := h.posts
        once := h.once
        cursors := h.cursors
        live := by
          intro x hx
          obtain ⟨hx, hne⟩ := (hmem x).1 hx
          obtain ⟨hlatest, hdel, hopen⟩ := h.live x hx
          refine ⟨hlatest, fun hd => ?_, hopen⟩
          rcases List.mem_cons.1 hd with hi | hd
          · exact hother x.id hne (hi ▸ hlatest)
          · exact hdel hd
        claims := fun x hx token ht => h.claims x ((hmem x).1 hx).1 token ht
        flight := by
          intro held hh
          have hold := h.flight held hh
          refine ⟨hold.valid, hold.claim, hold.enqueued, hold.open_, ?_⟩
          rcases hold.carried with hd | ⟨x, hx, hcar⟩
          · exact Or.inl (List.mem_cons_of_mem _ hd)
          · by_cases hid : x.id = e.id
            · obtain rfl := eq_of_mem_queued hx he hid
              exact Or.inl (hcar.incarnation ▸ List.mem_cons_self)
            · exact Or.inr ⟨x, (hmem x).2 ⟨hx, hid⟩, hcar⟩
        marker := by
          intro id' hid'
          change AList.lookup id' (fs.awaitDeletions.insert e.id _) = _
          by_cases hne : id' = e.id
          · rw [hne, AList.lookup_insert]
            exact (marker_of_withdrawn (s := s.del (.ok e)) hlive.1
              ⟨List.mem_cons_self, hlive.2.2⟩).symm
          · rw [AList.lookup_insert_ne hne]
            have hold : ∀ x ∈ queued J fs, x.id ≠ id' := by
              intro x hx hxid
              exact hid' x ((hmem x).2 ⟨hx, fun he => hne (hxid ▸ he)⟩) hxid
            rw [h.marker id' hold]
            have hlatest : (s.del (.ok e)).latest id' = s.latest id' := rfl
            refine (marker_congr hlatest fun i hi => ?_).symm
            have hne' : i ≠ e.incarnation := fun hi' => hother id' hne (hi' ▸ hi)
            change (i ∈ e.incarnation :: s.deleted ∧ _) ↔ _
            rw [List.mem_cons, or_iff_right hne']
            exact Iff.rfl
        logs := ⟨h.logs.posts, h.logs.offset, h.logs.behind, h.logs.tail⟩ }

/-! ## Completions -/

/-- The held claim is carried by the queued entry of its lifetime and by nothing else. -/
theorem carries_iff (h : s.Fits J fs) {held e : StoredEntry} (hheld : s.inFlight = some held)
    (he : e ∈ queued J fs) :
    (e.id = held.id ∧ e.claimToken = held.claimToken) ↔ e.incarnation = held.incarnation := by
  have hold := h.flight held hheld
  constructor
  · rintro ⟨-, ht⟩
    obtain ⟨token, htoken⟩ := Option.isSome_iff_exists.1 hold.claim
    obtain ⟨held', hh', hc⟩ := h.claims e he token (ht.trans htoken)
    obtain rfl := Option.some.inj (hheld.symm.trans hh')
    exact hc.incarnation
  · intro hi
    rcases hold.carried with hd | ⟨x, hx, hc⟩
    · exact absurd (hi ▸ hd) (h.live e he).2.1
    · obtain rfl := h.eq_of_incarnation he hx (hi.trans hc.incarnation.symm)
      exact ⟨hc.id, hc.claim⟩

theorem takesEntry_iff_queued (h : s.Fits J fs) {held : StoredEntry}
    (hheld : s.inFlight = some held) (tokenHash : String) (now : UInt64)
    (commentUrl : Option String) (attempt : Uuid) (offset : Nat) :
    takesEntry J fs (completionRecord held tokenHash now commentUrl attempt offset) = true ↔
      ∃ e ∈ queued J fs, e.incarnation = held.incarnation := by
  obtain ⟨token, htoken⟩ := Option.isSome_iff_exists.1 (h.flight held hheld).claim
  rw [takesEntry_iff]
  constructor
  · rintro ⟨e, he, hid, ht⟩
    exact ⟨e, he, (h.carries_iff hheld he).1 ⟨hid, (ht token htoken).trans htoken.symm⟩⟩
  · rintro ⟨e, he, hi⟩
    obtain ⟨hid, ht⟩ := (h.carries_iff hheld he).2 hi
    refine ⟨e, he, hid, fun other ho => ?_⟩
    exact ht.trans ho

/-- After the post of a lifetime, the marker of its identifier is as the story says: its own marker
and a marker older than its entry are cleared, that of a later lifetime stays. -/
theorem cleared (h : s.Fits J fs) {held : StoredEntry} (hheld : s.inFlight = some held)
    {r : HistoryRecord} (hr : r.incarnation = held.incarnation)
    (hgone : ∀ e ∈ queued J fs, e.id = held.id → e.incarnation = held.incarnation) :
    (if clearsMarker J fs held.id held.incarnation then fs.awaitDeletions.erase held.id
      else fs.awaitDeletions).lookup held.id = (s.post r).marker held.id := by
  have hold := h.flight held hheld
  have hcompleted : (s.post r).Completed held.incarnation :=
    List.mem_map.2 ⟨r, List.mem_append_right _ (List.mem_singleton.2 rfl), hr⟩
  have hposted : (s.post r).latest held.id = some held.incarnation →
      (s.post r).marker held.id = none := fun hl =>
    marker_of_not fun i hi hw => hw.2 (Option.some.inj (hl.symm.trans hi) ▸ hcompleted)
  rcases h.clean.find_cases hold.valid with ⟨e, he, hid, hf⟩ | ⟨hnone, hf⟩
  · -- the entry is the lifetime that was posted, so every marker goes
    have hi := hgone e he hid
    rw [hposted (by rw [← hi, ← hid]; exact (h.live e he).1)]
    unfold clearsMarker
    cases hm : fs.awaitDeletions.lookup held.id with
    | none => exact hm
    | some bytes =>
      obtain ⟨d, rfl⟩ := h.clean.markers hm
      simp only [J.deletion_toVec, hf, hi, beq_self_eq_true, Bool.or_true, if_true]
      exact AList.lookup_erase _ _
  · -- nothing is queued, so only the marker of the posted lifetime goes
    have hm := h.marker held.id hnone
    by_cases hw : ∃ i, s.latest held.id = some i ∧ s.Withdrawn i
    · obtain ⟨i, hl, hwi⟩ := hw
      rw [marker_of_withdrawn hl hwi] at hm
      unfold clearsMarker
      rw [hm]
      simp only [J.deletion_toVec, hf, Bool.or_false, beq_iff_eq]
      by_cases hi : i = held.incarnation
      · rw [if_pos hi, AList.lookup_erase]
        exact (hposted (hi ▸ hl)).symm
      · rw [if_neg hi, hm]
        refine (marker_of_withdrawn (s := s.post r) hl ⟨hwi.1, fun hc => ?_⟩).symm
        obtain ⟨x, hx, hxi⟩ := List.mem_map.1 hc
        rcases List.mem_append.1 hx with hx | hx
        · exact hwi.2 (List.mem_map.2 ⟨x, hx, hxi⟩)
        · rw [List.mem_singleton.1 hx, hr] at hxi
          exact hi hxi.symm
    · have hnot : ∀ i, s.latest held.id = some i → ¬ s.Withdrawn i :=
        fun i hl hwi => hw ⟨i, hl, hwi⟩
      rw [marker_of_not hnot] at hm
      unfold clearsMarker
      rw [hm]
      rw [if_neg (by simp), hm]
      refine (marker_of_not (s := s.post r) fun i hl hwi =>
        hnot i hl ⟨hwi.1, fun hc => hwi.2 ?_⟩).symm
      obtain ⟨x, hx, hxi⟩ := List.mem_map.1 hc
      exact List.mem_map.2 ⟨x, List.mem_append_left _ hx, hxi⟩

/-- A completion takes its own lifetime out of the queue, if that is still there. -/
theorem mem_queued_completed (h : s.Fits J fs) {held : StoredEntry} (hheld : s.inFlight = some held)
    (tokenHash : String) (now : UInt64) (commentUrl : Option String) (attempt : Uuid)
    {x : StoredEntry} :
    x ∈ queued J (final (completeClaimWithToken J held tokenHash now commentUrl attempt) fs) ↔
      x ∈ queued J fs ∧ x.incarnation ≠ held.incarnation := by
  have hold := h.flight held hheld
  obtain ⟨-, -, hfin⟩ := (h.clean.succeeds_completeClaim hold.valid (Or.inl hold.claim)
    tokenHash now commentUrl attempt).final
  have htakes := h.takesEntry_iff_queued hheld tokenHash now commentUrl attempt
    fs.historyBytes.length
  set c := completionRecord held tokenHash now commentUrl attempt fs.historyBytes.length with hc
  have hentries : (final (completeClaimWithToken J held tokenHash now commentUrl attempt)
      fs).entries = if takesEntry J fs c then fs.entries.erase held.id else fs.entries := by
    rw [hfin]
    rfl
  by_cases ht : takesEntry J fs c = true
  · obtain ⟨e, he, hi⟩ := htakes.1 ht
    have hq : queued J (final (completeClaimWithToken J held tokenHash now commentUrl attempt) fs) =
        queued J (fs.remove (.entry held.id)) := queued_congr (hentries.trans (if_pos ht))
    rw [hq, mem_queued_remove]
    refine and_congr_right fun hx => not_congr ⟨fun hid => ?_, fun hxi => ?_⟩
    · rw [eq_of_mem_queued hx he (hid.trans ((h.carries_iff hheld he).2 hi).1.symm)]
      exact hi
    · exact ((h.carries_iff hheld hx).2 hxi).1
  · rw [queued_congr (hentries.trans (if_neg ht))]
    exact (and_iff_left_of_imp fun hx hxi => ht (htakes.2 ⟨x, hx, hxi⟩)).symm

theorem complete (h : s.Fits J fs) {held : StoredEntry} (hheld : s.inFlight = some held)
    (tokenHash : String) (now : UInt64) (commentUrl : Option String) (attempt : Uuid)
    (hfits : (HistoryRecord.succeeded attempt held tokenHash now commentUrl).FitsLine) :
    (s.post (.succeeded attempt held tokenHash now commentUrl)).Fits J
      (final (completeClaimWithToken J held tokenHash now commentUrl attempt) fs) := by
  have hold := h.flight held hheld
  have hsound : (Op.completeClaim held tokenHash now commentUrl attempt).Sound := hold.valid
  have hclean := h.clean.leaves hsound
    (Op.leaves_final J (.completeClaim held tokenHash now commentUrl
    attempt) fs)
  rw [Op.exec, final_map] at hclean
  obtain ⟨-, -, hfin⟩ := (h.clean.succeeds_completeClaim hold.valid (Or.inl hold.claim)
    tokenHash now commentUrl attempt).final
  have hmem := fun x => @mem_queued_completed J s fs h held hheld tokenHash now commentUrl attempt x
  set r := HistoryRecord.succeeded attempt held tokenHash now commentUrl with hr
  set fs' := final (completeClaimWithToken J held tokenHash now commentUrl attempt) fs with hfs'
  have hcompleted : ∀ i, i ≠ held.incarnation → ((s.post r).Completed i ↔ s.Completed i) := by
    intro i hi
    change i ∈ (s.posts ++ [r]).map _ ↔ _
    rw [List.map_append, List.mem_append, List.map_singleton, List.mem_singleton]
    exact or_iff_left hi
  exact
    { clean := hclean
      settled := by rw [hfin]; rfl
      distinct := h.distinct
      deleted := h.deleted
      posts := by
        intro x hx
        rcases List.mem_append.1 hx with hx | hx
        · exact h.posts x hx
        · rw [List.mem_singleton.1 hx]
          exact hold.enqueued
      once := by
        change ((s.posts ++ [r]).map HistoryRecord.incarnation).Nodup
        rw [List.map_append, List.nodup_append]
        refine ⟨h.once, List.nodup_singleton _, fun i hi j hj hij => hold.open_ ?_⟩
        rw [List.map_singleton, List.mem_singleton] at hj
        exact (hij.trans hj : i = held.incarnation) ▸ hi
      cursors := h.cursors
      live := by
        intro x hx
        obtain ⟨hx, hne⟩ := (hmem x).1 hx
        obtain ⟨hl, hd, hcomp⟩ := h.live x hx
        exact ⟨hl, hd, (hcompleted _ hne).not.2 hcomp⟩
      claims := by
        intro x hx token ht
        obtain ⟨hx, hne⟩ := (hmem x).1 hx
        obtain ⟨held', hh', hcar⟩ := h.claims x hx token ht
        obtain rfl := Option.some.inj (hheld.symm.trans hh')
        exact absurd hcar.incarnation hne
      flight := by intro held' hh'; cases hh'
      marker := by
        intro id hid
        have hmarkers : fs'.awaitDeletions = if clearsMarker J fs held.id held.incarnation then
            fs.awaitDeletions.erase held.id else fs.awaitDeletions := by
          rw [hfin]
          rfl
        by_cases heq : id = held.id
        · rw [heq, hmarkers]
          refine h.cleared hheld rfl fun e he hide => ?_
          by_contra hne
          exact hid e ((hmem e).2 ⟨he, hne⟩) (hide.trans heq.symm)
        · have hkeep : fs'.awaitDeletions.lookup id = fs.awaitDeletions.lookup id := by
            rw [hmarkers]
            split
            · exact AList.lookup_erase_ne heq
            · rfl
          have hold' : ∀ e ∈ queued J fs, e.id ≠ id := by
            intro e he hide
            refine hid e ((hmem e).2 ⟨he, fun hi => heq ?_⟩) hide
            exact hide.symm.trans ((h.carries_iff hheld he).2 hi).1
          rw [hkeep, h.marker id hold']
          have hlatest : (s.post r).latest id = s.latest id := rfl
          refine (marker_congr hlatest fun i hi => and_congr_right fun _ => not_congr ?_).symm
          refine hcompleted i fun hi' => heq ?_
          exact h.id_unique (mem_of_lookup hi) (hi' ▸ hold.enqueued)
      logs := by
        have hlog : fs'.historyBytes = fs.historyBytes ++ appendedBytes r fs.historyBytes := by
          rw [hfin]
          rfl
        rw [hlog]
        exact h.logs.post rfl hfits }

/-! ## The log and the lookups -/

/-- Only the log changes. -/
theorem relog (h : s.Fits J fs) {log : Bytes} (hlog : s.Logs J log) :
    s.Fits J { fs with history := some log } :=
  { h with
    clean := h.clean.history _
    flight := fun held hh =>
      have hold := h.flight held hh
      ⟨hold.valid, hold.claim, hold.enqueued, hold.open_, hold.carried⟩
    logs := hlog }

theorem look (h : s.Fits J fs) {id : String} {cooldown now eta : UInt64} {cursor : AwaitCursor}
    (hp : resolveAwait J fs id none cooldown now = .ok (.pending eta cursor)) :
    Story.Fits J { s with cursors := (id, cursor) :: s.cursors } fs := by
  obtain ⟨e, he, rfl, rfl⟩ := cursor_of_pending hp
  exact
    { h with
      flight := fun held hh =>
        have hold := h.flight held hh
        ⟨hold.valid, hold.claim, hold.enqueued, hold.open_, hold.carried⟩
      cursors := fun c hc => by
        rcases List.mem_cons.1 hc with rfl | hc
        · exact ⟨isValidId_of_mem he, h.mem_enqueued he⟩
        · exact h.cursors c hc
      logs := h.logs.look (h.live e he).2.2 }

end Story.Fits

/-- Every run keeps the files as its story says. -/
theorem AwaitRun.fits {J : SerdeJson} {s : Story} {fs : QueueFs} (h : AwaitRun J s fs) :
    s.Fits J fs := by
  induction h with
  | start => exact .start J
  | put _ request options now _ fresh ih => exact ih.put request options now fresh
  | bump _ id ih => exact ih.reorder id headOrder
  | bust _ id ih => exact ih.reorder id tailOrder
  | del _ id ih => exact ih.del id
  | claim _ idle cooldown now token ih => exact ih.claim idle cooldown now token
  | release _ holds claim now ih => exact ih.release holds claim now
  | complete _ holds tokenHash now commentUrl attempt fits ih =>
    exact ih.complete holds tokenHash now commentUrl attempt fits
  | failure _ failed ih =>
    rw [final_append]
    exact ih.relog (ih.logs.failure failed)
  | garbage _ free ih => exact ih.relog (ih.logs.garbage free)
  | reopen _ fresh ih => exact ih.reopen fresh
  | look _ pending ih => exact ih.look pending

/-! ## Answers -/

section Answers

variable {J : SerdeJson} {fs : QueueFs} {token : Option AwaitCursor}

theorem Clean.scheduledEta_ok (h : Clean J fs) (cooldown now : UInt64) (e : StoredEntry) :
    ∃ eta, scheduledEta J fs cooldown now e = .ok eta := by
  obtain ⟨previous, hp⟩ := h.previousActivity_ok
  unfold scheduledEta
  rw [schedule_eq cooldown now h.accounted.withinLimits hp]
  exact ⟨_, rfl⟩

/-- The queued lifetime a lookup selects is pending. -/
theorem Clean.resolveAwait_pending (h : Clean J fs) {e : StoredEntry} (he : e ∈ queued J fs)
    (hs : cursorSelects token e = true) (cooldown now : UInt64) :
    ∃ eta, resolveAwait J fs e.id token cooldown now = .ok (pendingAwaitState fs e token eta) := by
  obtain ⟨eta, heta⟩ := h.scheduledEta_ok cooldown now e
  refine ⟨eta, ?_⟩
  rw [resolveAwait_eq, resolveAwaitPending_of_ok (find_of_mem he), if_pos hs, heta]
  rfl

/-- When no queued lifetime is selected, the log decides. -/
theorem Clean.resolveAwait_ended (h : Clean J fs) {id : String} (hv : isValidId id = true)
    (hn : ∀ e ∈ queued J fs, e.id = id → cursorSelects token e = false) (cooldown now : UInt64) :
    resolveAwait J fs id token cooldown now = resolveAwaitCompletion J fs id token := by
  rw [resolveAwait_eq]
  rcases h.find_cases hv with ⟨e, he, hid, hf⟩ | ⟨-, hf⟩
  · rw [resolveAwaitPending_of_ok hf, if_neg (by rw [hn e he hid]; exact Bool.false_ne_true)]
  · rw [resolveAwaitPending_of_error hf]
    rfl

end Answers

namespace Story.Fits

variable {J : SerdeJson} {s : Story} {fs : QueueFs} {id : String} {c : AwaitCursor}
    {r : HistoryRecord}

theorem success (h : s.Fits J fs) (hr : r ∈ s.posts) : r.success = true := by
  rw [← h.logs.posts] at hr
  exact (List.mem_filter.1 hr).2

/-- The posts of a cursor's lifetime are posts of its identifier. -/
theorem isCompletionOf_iff (h : s.Fits J fs) (hc : (id, c) ∈ s.cursors) (hr : r ∈ s.posts) :
    isCompletionOf id (some c) r = true ↔ r.incarnation = c.incarnation := by
  unfold isCompletionOf
  simp only [Bool.and_eq_true, beq_iff_eq, h.success hr, and_true]
  refine and_iff_right_of_imp fun hi => ?_
  exact h.id_unique (h.posts r hr) (hi ▸ (h.cursors _ hc).2)

theorem newest_posted (h : s.Fits J fs) (hc : (id, c) ∈ s.cursors) (hr : r ∈ s.posts)
    (hi : r.incarnation = c.incarnation) :
    Waiter.newest J fs id (some c) = .posted r.commentUrl r.postedAt := by
  have hmem : r ∈ s.posts.filter (isCompletionOf id (some c)) :=
    List.mem_filter.2 ⟨hr, (h.isCompletionOf_iff hc hr).2 hi⟩
  have hlast : (s.posts.filter (isCompletionOf id (some c))).getLast? = some r := by
    obtain ⟨x, hx⟩ := Option.isSome_iff_exists.1
      (List.getLast?_isSome.2 (List.ne_nil_of_mem hmem))
    obtain ⟨hxp, hxc⟩ := List.mem_filter.1 (List.mem_of_getLast? hx)
    rw [hx, List.inj_on_of_nodup_map h.once hxp hr
      (((h.isCompletionOf_iff hc hxp).1 hxc).trans hi.symm)]
  unfold Waiter.newest
  rw [latestCompletion_eq, h.logs.behind (id, c) hc, hlast]

theorem newest_unknown (h : s.Fits J fs) (hc : (id, c) ∈ s.cursors)
    (hn : ¬ s.Completed c.incarnation) : Waiter.newest J fs id (some c) = .unknown := by
  have hnone : s.posts.filter (isCompletionOf id (some c)) = [] :=
    List.filter_eq_nil_iff.2 fun r hr hcomp =>
      hn (List.mem_map.2 ⟨r, hr, (h.isCompletionOf_iff hc hr).1 hcomp⟩)
  unfold Waiter.newest
  rw [latestCompletion_eq, h.logs.behind (id, c) hc, hnone]
  rfl

theorem newest_any (h : s.Fits J fs) (id : String) :
    Waiter.newest J fs id none = match (s.posts.filter fun r => r.id == id).getLast? with
      | none => .unknown
      | some r => .posted r.commentUrl r.postedAt := by
  have hposts : completionsIn J id none fs.historyBytes = s.posts.filter fun r => r.id == id := by
    rw [← h.logs.posts, List.filter_filter]
    unfold completionsIn cursorOffset isCompletionOf
    rw [List.drop_zero]
    simp only [Bool.and_true]
  have hlast : latestCompletion J fs id none = (s.posts.filter fun r => r.id == id).getLast? := by
    rw [latestCompletion_eq, hposts]
  unfold Waiter.newest
  cases hl : (s.posts.filter fun r => r.id == id).getLast? with
  | none => rw [hlast, hl]
  | some r => rw [hlast, hl]

end Story.Fits

/-- **Waits are bound to lifetimes.** After every run, a lookup with a cursor is pending exactly
while its lifetime is queued, and then answers with the post of that lifetime, or unknown if there
was none. A lookup without a cursor is pending exactly while something is queued under the
identifier; then it is unknown if the latest lifetime was deleted and not posted, and else answers
with the newest post. -/
theorem await_bound_to_lifetimes {J : SerdeJson} {s : Story} {fs : QueueFs} (h : AwaitRun J s fs)
    (cooldown now : UInt64) :
    (∀ id c, (id, c) ∈ s.cursors →
      ((∃ e ∈ queued J fs, e.id = id ∧ e.incarnation = c.incarnation) →
        ∃ eta, resolveAwait J fs id (some c) cooldown now = .ok (.pending eta c)) ∧
      ((∀ e ∈ queued J fs, e.id = id → e.incarnation ≠ c.incarnation) →
        (∀ r ∈ s.posts, r.incarnation = c.incarnation →
          resolveAwait J fs id (some c) cooldown now = .ok (.posted r.commentUrl r.postedAt)) ∧
        (¬ s.Completed c.incarnation →
          resolveAwait J fs id (some c) cooldown now = .ok .unknown))) ∧
    (∀ id, isValidId id = true →
      (∀ e ∈ queued J fs, e.id = id → ∃ eta, resolveAwait J fs id none cooldown now =
        .ok (.pending eta ⟨fs.historyBytes.length, e.incarnation⟩)) ∧
      ((∀ e ∈ queued J fs, e.id ≠ id) →
        (∀ i, s.latest id = some i → s.Withdrawn i →
          resolveAwait J fs id none cooldown now = .ok .unknown) ∧
        ((∀ i, s.latest id = some i → ¬ s.Withdrawn i) →
          resolveAwait J fs id none cooldown now =
            match (s.posts.filter fun r => r.id == id).getLast? with
            | none => .ok .unknown
            | some r => .ok (.posted r.commentUrl r.postedAt)))) := by
  have hfits := h.fits
  constructor
  · intro id c hc
    have hv := (hfits.cursors (id, c) hc).1
    constructor
    · rintro ⟨e, he, rfl, hi⟩
      have hs : cursorSelects (some c) e = true := beq_iff_eq.2 hi.symm
      exact hfits.clean.resolveAwait_pending he hs cooldown now
    · intro hn
      have hs : ∀ e ∈ queued J fs, e.id = id → cursorSelects (some c) e = false :=
        fun e he hid => beq_eq_false_iff_ne.2 (Ne.symm (hn e he hid))
      have hended : resolveAwait J fs id (some c) cooldown now =
          .ok (Waiter.newest J fs id (some c)) := by
        rw [hfits.clean.resolveAwait_ended hv hs, resolveAwaitCompletion_eq]
        rfl
      rw [hended]
      exact ⟨fun r hr hi => congrArg _ (hfits.newest_posted hc hr hi),
        fun hcomp => congrArg _ (hfits.newest_unknown hc hcomp)⟩
  · intro id hv
    constructor
    · rintro e he rfl
      exact hfits.clean.resolveAwait_pending he rfl cooldown now
    · intro hn
      have hs : ∀ e ∈ queued J fs, e.id = id → cursorSelects none e = false :=
        fun e he hid => absurd hid (hn e he)
      have hhidden : Waiter.hidden fs id none = .ok (s.marker id).isSome := by
        rw [← hfits.marker id hn]
        exact if_pos hv
      rw [hfits.clean.resolveAwait_ended hv hs, resolveAwaitCompletion_eq, hhidden]
      refine ⟨fun i hl hw => ?_, fun hnot => ?_⟩
      · rw [Story.marker_of_withdrawn hl hw]
        rfl
      · rw [Story.marker_of_not hnot]
        simp only [Option.isSome_none, hfits.newest_any id]
        split <;> rfl

/-- A comment is awaited and claimed, then deleted and put again. -/
theorem sampleReplacing :
    ∃ s fs, AwaitRun serdeJson s fs ∧ s.inFlight = some sampleClaim ∧
      ("4e881b86", ⟨0, (sampleUuid 1).text⟩) ∈ s.cursors ∧
      ⟨"4e881b86", (sampleUuid 3).text, 0, 0, 1000, 0, none, sampleRequest⟩ ∈
      queued serdeJson fs := by
  have h₁ := AwaitRun.put (J := serdeJson) .start sampleRequest ⟨900, 0, true⟩ 1000 (sampleUuid 1)
    (by decide +kernel)
  have hpending : resolveAwait serdeJson
      (final (putWithEta serdeJson sampleRequest ⟨900, 0, true⟩ 1000 (sampleUuid 1)) .empty)
      "4e881b86" none 900 1000 = .ok (.pending 0 ⟨0, (sampleUuid 1).text⟩) := by
    decide +kernel
  have h₂ := (h₁.look hpending).claim (by decide +kernel) 900 1000 (sampleUuid 2)
  have h₃ := (h₂.del "4e881b86").put sampleRequest ⟨900, 0, true⟩ 1000 (sampleUuid 3)
    (by decide +kernel)
  exact ⟨_, _, h₃, by decide +kernel⟩

/-- When the post of the deleted comment completes, its wait learns of the post, and a new wait is
for the comment in the queue. -/
theorem await_bound_replaced :
    ∃ s fs, AwaitRun serdeJson s fs ∧
      resolveAwait serdeJson fs "4e881b86" (some ⟨0, (sampleUuid 1).text⟩) 900 2000 =
        .ok (.posted none 1010) ∧
      ∃ eta offset, resolveAwait serdeJson fs "4e881b86" none 900 2000 =
        .ok (.pending eta ⟨offset, (sampleUuid 3).text⟩) := by
  obtain ⟨s, fs, hrun, hheld, hcursor, hqueued⟩ := sampleReplacing
  have h := hrun.complete hheld "hash" 1010 none (sampleUuid 4) (by decide +kernel)
  refine ⟨_, _, h, ?_, ?_⟩
  · have hpost : HistoryRecord.succeeded (sampleUuid 4) sampleClaim "hash" 1010 none ∈
        (s.post (.succeeded (sampleUuid 4) sampleClaim "hash" 1010 none)).posts :=
      List.mem_append_right s.posts (List.mem_singleton.2 rfl)
    refine (((await_bound_to_lifetimes h 900 2000).1 _ _ hcursor).2
      fun e he _ hi => ?_).1 _ hpost rfl
    exact (h.fits.live e he).2.2 (hi ▸ List.mem_map.2 ⟨_, hpost, rfl⟩)
  · have hstays := (hrun.fits.mem_queued_completed hheld "hash" 1010 none (sampleUuid 4)).2
      ⟨hqueued, by decide +kernel⟩
    obtain ⟨eta, heta⟩ :=
      ((await_bound_to_lifetimes h 900 2000).2 _ (by decide +kernel)).1 _ hstays rfl
    exact ⟨eta, _, heta⟩

end Comenq
