import Comenq.Store.Operations

/-!
# Operations in a clean directory

In a clean directory every lookup either finds its entry or reports it missing, every marker and
journal parses, and the scan succeeds. This module says what the store operations return there and
which directory they leave behind, as total correctness statements; the claims about runs of the
store are assembled from them.
-/

namespace Comenq

open Saturating JsonText LineLog Traced CrashTrace

/-! ## Time markers read back -/

theorem parseDigits_append (acc : Nat) (xs ys : List Char) :
    parseDigits acc (xs ++ ys) =
      match parseDigits acc xs with
      | .ok a => parseDigits a ys
      | .error e => .error e := by
  induction xs generalizing acc with
  | nil => rfl
  | cons c cs ih =>
    simp only [List.cons_append, parseDigits]
    split
    · split
      · rfl
      · exact ih _
    · rfl

theorem parseDigits_digitChar {acc d : Nat} (hd : d < 10) (hm : 10 * acc + d ≤ maxU64) :
    parseDigits acc [d.digitChar] = .ok (10 * acc + d) := by
  have key : ∀ d, d < 10 → (d.digitChar).isDigit = true ∧ (d.digitChar).toNat - '0'.toNat = d := by
    decide
  obtain ⟨h1, h2⟩ := key d hd
  simp only [parseDigits, h1, if_true, h2]
  rw [if_neg (by omega)]

/-- The decimal digits of a 64-bit number read back as the number. -/
theorem parseDigits_toDigits (n : Nat) (hn : n ≤ maxU64) :
    parseDigits 0 (Nat.toDigits 10 n) = .ok n := by
  induction n using Nat.strongRecOn with
  | ind n ih =>
    by_cases h : n < 10
    · rw [Nat.toDigits_of_lt_base h, parseDigits_digitChar h (by omega)]
      simp
    · rw [Nat.toDigits_of_base_le (by decide) (by omega), parseDigits_append,
        ih (n / 10) (by omega) (by omega)]
      simp only
      rw [parseDigits_digitChar (Nat.mod_lt n (by decide)) (by omega)]
      congr 1
      omega

theorem not_isWhitespace_of_isDigit {c : Char} (h : c.isDigit = true) : isWhitespace c = false := by
  simp only [Char.isDigit, Bool.and_eq_true, decide_eq_true_eq, ge_iff_le] at h
  have h1 : 48 ≤ c.toNat := h.1
  have h2 : c.toNat ≤ 57 := h.2
  unfold isWhitespace
  simp only [Bool.or_eq_false_iff, Bool.and_eq_false_iff, decide_eq_false_iff_not,
    beq_eq_false_iff_ne]
  omega

theorem dropWhile_digits {cs : List Char} (h : ∀ c ∈ cs, c.isDigit = true) :
    cs.dropWhile isWhitespace = cs := by
  cases cs with
  | nil => rfl
  | cons c cs =>
    rw [List.dropWhile_cons_of_neg]
    simp [not_isWhitespace_of_isDigit (h c List.mem_cons_self)]

theorem trim_digits {cs : List Char} (h : ∀ c ∈ cs, c.isDigit = true) : trim cs = cs := by
  unfold trim
  rw [dropWhile_digits h, dropWhile_digits (fun c hc => h c (List.mem_reverse.1 hc)),
    List.reverse_reverse]

theorem parseU64_digits {c : Char} {cs : List Char} (h : c.isDigit = true) :
    parseU64 (c :: cs) = (parseDigits 0 (c :: cs)).map UInt64.ofNat := by
  have hne : c ≠ '+' := by
    rintro rfl
    cases h
  unfold parseU64
  split
  · next heq => cases heq
  · next heq => exact absurd (List.cons.inj heq).1 hne
  · next heq => exact absurd (List.cons.inj heq).1 hne
  · rfl

/-- A marker the store wrote reads back. -/
theorem readMarker_decimalU64 (invalid : ParseIntError → StoreError) (time : UInt64) :
    readMarker invalid (some (decimalU64 time)) = .ok (some time) := by
  have hd : ∀ c ∈ Nat.toDigits 10 time.toNat, c.isDigit = true := fun c hc =>
    Nat.isDigit_of_mem_toDigits (by decide) (by decide) hc
  have hp : parseU64 (Nat.toDigits 10 time.toNat) = .ok time := by
    have hn := parseDigits_toDigits time.toNat (toNat_le_max time)
    obtain ⟨c, cs, hcs⟩ : ∃ c cs, Nat.toDigits 10 time.toNat = c :: cs := by
      cases h : Nat.toDigits 10 time.toNat with
      | nil => exact absurd h Nat.toDigits_ne_nil
      | cons c cs => exact ⟨c, cs, rfl⟩
    rw [hcs] at hn hd ⊢
    rw [parseU64_digits (hd c List.mem_cons_self), hn]
    simp [Except.map]
  unfold readMarker decimalU64
  simp only [decodeUtf8_decimalNat, trim_digits hd, hp]

namespace Clean

variable {J : SerdeJson} {fs : QueueFs}

/-! ## Lookups -/

/-- A lookup under a safe identifier finds the entry, or there is none. -/
theorem find_cases (h : Clean J fs) {id : String} (hv : isValidId id = true) :
    (∃ e ∈ queued J fs, e.id = id ∧ find J fs id = .ok e) ∨
    ((∀ e ∈ queued J fs, e.id ≠ id) ∧ find J fs id = .error (.unknownId id)) := by
  cases hl : fs.entries.lookup id with
  | some node =>
    obtain ⟨e, he, rfl⟩ := h.readable hl
    exact Or.inl ⟨e, he, rfl, find_of_mem he⟩
  | none =>
    refine Or.inr ⟨?_, find_unknownId_iff.2 ⟨rfl, hv, hl⟩⟩
    rintro e he rfl
    obtain ⟨-, bytes, hb, -⟩ := mem_queued.1 he
    rw [hl] at hb
    cases hb

theorem lastPost_ok (h : Clean J fs) : ∃ time, Comenq.lastPost fs = .ok time := by
  unfold Comenq.lastPost
  cases hp : fs.lastPost with
  | none => exact ⟨none, rfl⟩
  | some bytes =>
    obtain ⟨time, rfl⟩ := h.lastPost hp
    exact ⟨some time, readMarker_decimalU64 _ _⟩

theorem lastAttempt_ok (h : Clean J fs) : ∃ time, Comenq.lastAttempt fs = .ok time := by
  unfold Comenq.lastAttempt
  cases hp : fs.lastAttempt with
  | none => exact ⟨none, rfl⟩
  | some bytes =>
    obtain ⟨time, rfl⟩ := h.lastAttempt hp
    exact ⟨some time, readMarker_decimalU64 _ _⟩

theorem previousActivity_ok (h : Clean J fs) : ∃ previous, previousActivity fs = .ok previous := by
  obtain ⟨post, hp⟩ := h.lastPost_ok
  obtain ⟨attempt, ha⟩ := h.lastAttempt_ok
  exact ⟨latest post attempt, by unfold previousActivity; rw [hp, ha]; rfl⟩

theorem entries_eq (h : Clean J fs) : entries J fs = .ok (sortEntries (queued J fs)) :=
  Comenq.entries_eq h.accounted.withinLimits

end Clean

/-! ## Finishing a completion -/

section Completion

variable (J : SerdeJson)

/-- Whether a post of this lifetime clears the deletion marker of `id`. -/
def clearsMarker (fs : QueueFs) (id incarnation : String) : Bool :=
  match fs.awaitDeletions.lookup id with
  | none => false
  | some bytes =>
    match J.deletion bytes with
    | none => false
    | some marker =>
      marker.incarnation == incarnation ||
        match find J fs id with
        | .ok e => e.incarnation == incarnation
        | .error _ => false

/-- Whether the entry queued under the completion's identifier carries its claim. -/
def takesEntry (fs : QueueFs) (c : CompletionRecord) : Bool :=
  match find J fs c.id with
  | .ok e =>
    match c.claimToken with
    | none => true
    | some token => e.claimToken == some token
  | .error _ => false

theorem takesEntry_iff {J : SerdeJson} {fs : QueueFs} {c : CompletionRecord} :
    takesEntry J fs c = true ↔
      ∃ e ∈ queued J fs, e.id = c.id ∧ ∀ token ∈ c.claimToken, e.claimToken = some token := by
  unfold takesEntry
  constructor
  · intro h
    split at h
    · next e hf =>
      obtain ⟨he, hid⟩ := find_ok_iff.1 hf
      refine ⟨e, he, hid, fun token ht => ?_⟩
      rw [Option.mem_def.1 ht] at h
      exact beq_iff_eq.1 h
    · cases h
  · rintro ⟨e, he, hid, ht⟩
    rw [find_ok_iff.2 ⟨he, hid⟩]
    simp only
    split
    · rfl
    · next token hc => exact beq_iff_eq.2 (ht token hc)

/-- The directory after a journalled completion has been carried out. -/
def finishedFs (c : CompletionRecord) (r : HistoryRecord) (fs : QueueFs) : QueueFs where
  entries := if takesEntry J fs c then fs.entries.erase c.id else fs.entries
  awaitDeletions :=
    if clearsMarker J fs c.id r.incarnation then fs.awaitDeletions.erase c.id else fs.awaitDeletions
  lastPost := some (decimalU64 c.postedAt)
  lastAttempt := fs.lastAttempt
  completion := none
  history :=
    if containsAttempt J fs.historyBytes r.attemptId (c.historyOffset.getD 0) then fs.history
    else some (fs.historyBytes ++ appendedBytes r fs.historyBytes)

/-! The events that finish a completion. -/

def logTrace (c : CompletionRecord) (r : HistoryRecord) (fs : QueueFs) : List FsEvent :=
  if containsAttempt J fs.historyBytes r.attemptId (c.historyOffset.getD 0) then []
  else appendTrace r fs.historyBytes

def clearTrace (fs : QueueFs) (id incarnation : String) : List FsEvent :=
  if clearsMarker J fs id incarnation then
    [.removeFile (.awaitDeletion id), .syncDir .awaitDeletions]
  else []

def finishTrace (c : CompletionRecord) (r : HistoryRecord) (fs : QueueFs) : List FsEvent :=
  logTrace J c r fs ++ clearTrace J fs c.id r.incarnation ++
    (if takesEntry J fs c then [.removeFile (.entry c.id)] else []) ++
    [.writeAtomic .lastPost (decimalU64 c.postedAt), .removeFile .completion, .syncDir .root]

theorem run_logTrace (c : CompletionRecord) (r : HistoryRecord) (fs : QueueFs) :
    CrashTrace.run QueueFs.step fs (logTrace J c r fs) =
      { fs with history := (finishedFs J c r fs).history } := by
  unfold logTrace finishedFs
  split
  · rfl
  · exact run_appendTrace r fs

theorem run_finishTrace (c : CompletionRecord) (r : HistoryRecord) (fs : QueueFs) :
    CrashTrace.run QueueFs.step fs (finishTrace J c r fs) = finishedFs J c r fs := by
  unfold finishTrace
  rw [run_append, run_append, run_append, run_logTrace]
  unfold clearTrace finishedFs
  split
  · split <;> rfl
  · split <;> rfl

end Completion

namespace Clean

variable {J : SerdeJson} {fs : QueueFs}

theorem clearAwaitDeletion_run (h : Clean J fs) {id : String} (hv : isValidId id = true)
    (incarnation : String) :
    clearAwaitDeletion J id incarnation fs = ⟨.ok (), clearTrace J fs id incarnation⟩ := by
  unfold clearAwaitDeletion clearTrace clearsMarker
  rw [if_pos hv, run_inspect]
  cases hm : fs.awaitDeletions.lookup id with
  | none => rfl
  | some bytes =>
    obtain ⟨d, rfl⟩ := h.markers hm
    simp only [J.deletion_toVec]
    have hcur : ∃ b : Bool, currentMatches J fs id incarnation = .ok b ∧
        b = match find J fs id with
          | .ok e => e.incarnation == incarnation
          | .error _ => false := by
      unfold currentMatches
      rcases h.find_cases hv with ⟨e, -, -, hf⟩ | ⟨-, hf⟩
      · rw [hf]; exact ⟨_, rfl, rfl⟩
      · rw [hf]; exact ⟨_, rfl, rfl⟩
    obtain ⟨b, hb, hbeq⟩ := hcur
    rw [← hbeq]
    have hread : (Traced.read fun fs => currentMatches J fs id incarnation : Store Bool) fs =
        ⟨.ok b, []⟩ := run_read_ok hb
    rw [run_bind_ok hread, Ran.after_nil, run_nil]
    by_cases hk : (d.incarnation != incarnation && !b) = true
    · have hn : (d.incarnation == incarnation || b) = false := by
        simp only [Bool.and_eq_true, bne_iff_ne, Bool.not_eq_true'] at hk
        simp [hk]
      rw [if_pos hk, hn]
      rfl
    · have hn : (d.incarnation == incarnation || b) = true := by
        simp only [Bool.and_eq_true, bne_iff_ne, Bool.not_eq_true', not_and, ne_eq,
          Bool.not_eq_false] at hk
        simp only [Bool.or_eq_true, beq_iff_eq]
        by_cases hd : d.incarnation = incarnation
        · exact Or.inl hd
        · exact Or.inr (hk hd)
      rw [if_neg hk, hn]
      rfl

theorem removesEntry_eq (h : Clean J fs) {c : CompletionRecord} (hv : isValidId c.id = true) :
    removesEntry J fs c = .ok (takesEntry J fs c) := by
  unfold removesEntry takesEntry
  rcases h.find_cases hv with ⟨e, -, -, hf⟩ | ⟨-, hf⟩
  · rw [hf]
    cases c.claimToken <;> rfl
  · rw [hf]

/-- A journalled completion is carried out, whatever has been done of it already. -/
theorem finishCompletion_run (h : Clean J fs) {c : CompletionRecord} {r : HistoryRecord}
    (hv : isValidId c.id = true) (hr : c.history = some r) :
    finishCompletion J c fs = ⟨.ok (), finishTrace J c r fs⟩ := by
  have hlog : appendOnce J r (c.historyOffset.getD 0) fs = ⟨.ok (), logTrace J c r fs⟩ := by
    unfold appendOnce logTrace
    rw [run_inspect]
    split
    · rfl
    · exact append_run r fs
  have hfs₁ := run_logTrace J c r fs
  have hmarker : clearAwaitDeletion J c.id r.incarnation
      { fs with history := (finishedFs J c r fs).history } =
      ⟨.ok (), clearTrace J fs c.id r.incarnation⟩ :=
    (h.history _).clearAwaitDeletion_run hv r.incarnation
  have hrecord : recordCompletion J c fs =
      ⟨.ok (), logTrace J c r fs ++ clearTrace J fs c.id r.incarnation⟩ := by
    unfold recordCompletion
    rw [hr]
    exact run_bind hlog (by rw [hfs₁]; exact hmarker)
  -- neither step touches the entries, so the entry is looked up as at the start
  have hfs₂ : (CrashTrace.run QueueFs.step fs
      (logTrace J c r fs ++ clearTrace J fs c.id r.incarnation)).entries = fs.entries := by
    rw [run_append, hfs₁]
    unfold clearTrace
    split <;> rfl
  have hfind : find J (CrashTrace.run QueueFs.step fs
      (logTrace J c r fs ++ clearTrace J fs c.id r.incarnation)) c.id = find J fs c.id := by
    unfold find readEntry
    rw [hfs₂]
  have hremoves : (Traced.read fun fs => removesEntry J fs c : Store Bool)
      (CrashTrace.run QueueFs.step fs (logTrace J c r fs ++ clearTrace J fs c.id r.incarnation)) =
      ⟨.ok (takesEntry J fs c), []⟩ := by
    refine run_read_ok ?_
    rw [← h.removesEntry_eq hv]
    unfold removesEntry
    rw [hfind]
  have hwhen : ∀ g, (Traced.when (takesEntry J fs c) (Traced.emit (.removeFile (.entry c.id))) :
      Store Unit) g =
      ⟨.ok (), if takesEntry J fs c then [.removeFile (.entry c.id)] else []⟩ := by
    intro g
    rw [run_when]
    split <;> rfl
  unfold finishCompletion finishTrace
  rw [if_pos hv, List.append_assoc]
  refine run_bind hrecord ?_
  rw [run_bind_ok hremoves, Ran.after_nil, run_nil]
  exact run_bind (hwhen _) (run_bind (run_emit _) (run_bind (run_emit _) (run_emit _)))

/-- Reconciliation carries out the pending completion, if there is one. -/
theorem reconcileCompletion_run (h : Clean J fs) {c : CompletionRecord} {r : HistoryRecord}
    (hc : fs.completion = some c.toVec) (hv : isValidId c.id = true) (hr : c.history = some r) :
    reconcileCompletion J fs = ⟨.ok (), finishTrace J c r fs⟩ := by
  obtain ⟨text, htext⟩ := c.decodeUtf8_toVec
  unfold reconcileCompletion
  rw [run_inspect]
  simp only [hc, htext, J.completion_toVec]
  exact h.finishCompletion_run hv hr

theorem succeeds_reconcileCompletion (h : Clean J fs) {c : CompletionRecord} {r : HistoryRecord}
    (hc : fs.completion = some c.toVec) (hv : isValidId c.id = true) (hr : c.history = some r) :
    Succeeds (reconcileCompletion J) fs fun _ fs' => fs' = finishedFs J c r fs :=
  ⟨(), _, h.reconcileCompletion_run hc hv hr, run_finishTrace J c r fs⟩

theorem reconcileCompletion_none (hc : fs.completion = none) :
    reconcileCompletion J fs = ⟨.ok (), []⟩ := by
  unfold reconcileCompletion
  rw [run_inspect, hc]
  rfl

/-- A completion journals its post and finishes it at once. -/
theorem completeClaim_run (h : Clean J fs) {entry : StoredEntry} (hv : isValidId entry.id = true)
    (hclaim : entry.claimToken.isSome = true ∨ ∃ e, find J fs entry.id = .ok e)
    (tokenHash : String) (now : UInt64) (commentUrl : Option String) (attempt : Uuid)
    {c : CompletionRecord} {r : HistoryRecord}
    (hc : c = completionRecord entry tokenHash now commentUrl attempt fs.historyBytes.length)
    (hr : r = .succeeded attempt entry tokenHash now commentUrl) :
    completeClaimWithToken J entry tokenHash now commentUrl attempt fs =
      ⟨.ok (), .writeAtomic .completion c.toVec ::
        finishTrace J c r { fs with completion := some c.toVec }⟩ := by
  have hv' : isValidId c.id = true := hc ▸ hv
  have hr' : c.history = some r := hc ▸ hr ▸ rfl
  have hcheck : (Traced.when entry.claimToken.isNone
      (Traced.read fun fs => (find J fs entry.id).map fun _ => ()) : Store Unit) fs =
      ⟨.ok (), []⟩ := by
    rw [run_when]
    split
    · next hn =>
      rcases hclaim with hs | ⟨e, hf⟩
      · rw [Option.isNone_iff_eq_none.1 hn] at hs
        cases hs
      · exact run_read_ok (by rw [hf]; rfl)
    · rfl
  have hjournal : (Traced.inspect fun fs => Traced.emit (.writeAtomic .completion (completionRecord
      entry tokenHash now commentUrl attempt fs.historyBytes.length).toVec) : Store Unit) fs =
      ⟨.ok (), [.writeAtomic .completion c.toVec]⟩ := by
    rw [hc]
    rfl
  have hclean : Clean J { fs with completion := some c.toVec } :=
    h.step (k := .journal c) (.journal hv' (by rw [hr']; rfl))
  unfold completeClaimWithToken
  rw [run_bind_ok hcheck, Ran.after_nil, run_nil]
  exact run_bind hjournal (hclean.reconcileCompletion_run rfl hv' hr')

/-- A completion without a claim needs its entry to be queued. -/
theorem completeClaim_error {entry : StoredEntry} {err : StoreError}
    (hn : entry.claimToken.isSome = false) (hf : find J fs entry.id = .error err)
    (tokenHash : String) (now : UInt64) (commentUrl : Option String) (attempt : Uuid) :
    completeClaimWithToken J entry tokenHash now commentUrl attempt fs = ⟨.error err, []⟩ := by
  have hnone : entry.claimToken.isNone = true := by
    rw [← Option.not_isSome, hn]
    rfl
  have hcheck : (Traced.read fun fs => (find J fs entry.id).map fun _ => () : Store Unit) fs =
      ⟨.error err, []⟩ := run_read_error (by rw [hf]; rfl)
  unfold completeClaimWithToken
  refine run_bind_error ?_
  rw [run_when, hnone]
  exact hcheck

/-- A completion that meets no pending one logs its post, clears the marker, removes the entry that
carries its claim and records the time. -/
theorem succeeds_completeClaim (h : Clean J fs) {entry : StoredEntry}
    (hv : isValidId entry.id = true)
    (hclaim : entry.claimToken.isSome = true ∨ ∃ e, find J fs entry.id = .ok e)
    (tokenHash : String) (now : UInt64) (commentUrl : Option String) (attempt : Uuid) :
    Succeeds (completeClaimWithToken J entry tokenHash now commentUrl attempt) fs fun _ fs' =>
      fs' = { finishedFs J (completionRecord entry tokenHash now commentUrl attempt
          fs.historyBytes.length) (.succeeded attempt entry tokenHash now commentUrl) fs with
        history := some (fs.historyBytes ++ appendedBytes
          (.succeeded attempt entry tokenHash now commentUrl) fs.historyBytes) } := by
  set c := completionRecord entry tokenHash now commentUrl attempt fs.historyBytes.length with hc
  set r := HistoryRecord.succeeded attempt entry tokenHash now commentUrl with hr
  refine ⟨(), _, h.completeClaim_run hv hclaim tokenHash now commentUrl attempt hc hr, ?_⟩
  rw [run_cons]
  change CrashTrace.run QueueFs.step { fs with completion := some c.toVec } _ = _
  rw [run_finishTrace]
  -- nothing follows the journalled offset, so the attempt is not in the log
  have hfresh : containsAttempt J fs.historyBytes r.attemptId (c.historyOffset.getD 0) = false := by
    have hoff : c.historyOffset.getD 0 = fs.historyBytes.length := rfl
    unfold containsAttempt
    rw [hoff, Nat.min_self, List.drop_length]
    rfl
  refine QueueFs.ext rfl rfl rfl rfl rfl ?_
  change
    (if containsAttempt J fs.historyBytes r.attemptId (c.historyOffset.getD 0) then _ else _) = _
  rw [hfresh]
  rfl

end Clean

end Comenq
