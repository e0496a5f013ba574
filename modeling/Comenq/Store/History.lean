import Comenq.Lib.LineLog
import Comenq.Store.Bounds

/-!
# The posting-history log

The model of `store/history.rs` up to paging: the records of posting attempts, the append that
repairs a missing final delimiter, the forward reader, and the de-duplicated append of completion
recovery. The buffered line reader of the source keeps a line of at most `maxHistoryLineBytes`
bytes, delimiter included, and skips to the next line otherwise; `lineRecord` is what it makes of
one line.

The last section gives the events of an append and the log it leaves.
-/

namespace Comenq

open JsonText LineLog

/-! ## Records -/

/-- Bound on error text, so one failed attempt always fits within a history page. -/
def maxHistoryErrorBytes : Nat := 64 * 1024

/-- Whether a byte position falls between two characters. -/
def isCharBoundary : List Char → Nat → Bool
  | _, 0 => true
  | [], _ + 1 => false
  | c :: cs, n + 1 => c.utf8Size ≤ n + 1 && isCharBoundary cs (n + 1 - c.utf8Size)

/-- Step down from a byte position to the next character boundary. -/
def stepToBoundary (cs : List Char) : Nat → Nat
  | 0 => 0
  | n + 1 => if isCharBoundary cs (n + 1) then n + 1 else stepToBoundary cs n

/-- The characters before a byte position. -/
def truncate : List Char → Nat → List Char
  | [], _ => []
  | c :: cs, n => if c.utf8Size ≤ n then c :: truncate cs (n - c.utf8Size) else []

def boundedError (error : String) : String :=
  if (utf8 error).length ≤ maxHistoryErrorBytes then error
  else
    String.ofList (truncate error.toList (stepToBoundary error.toList (maxHistoryErrorBytes - 3)))
      ++ "..."

/-- Record a successful post of `entry`. -/
def HistoryRecord.succeeded (attempt : Uuid) (entry : StoredEntry) (tokenHash : String)
    (postedAt : UInt64) (commentUrl : Option String) : HistoryRecord where
  attemptId := attempt.text
  id := entry.id
  postedAt := postedAt
  success := true
  error := none
  tokenHash := tokenHash
  commentUrl := commentUrl
  incarnation := entry.incarnation
  request := entry.request

/-- Record a failed posting attempt of `entry`. -/
def HistoryRecord.failed (attempt : Uuid) (entry : StoredEntry) (tokenHash : String)
    (postedAt : UInt64) (error : String) : HistoryRecord where
  attemptId := attempt.text
  id := entry.id
  postedAt := postedAt
  success := false
  error := some (boundedError error)
  tokenHash := tokenHash
  commentUrl := none
  incarnation := entry.incarnation
  request := entry.request

/-! ## Appending -/

def hasFinalNewline (log : Bytes) : Bool := log.getLast? == some nl

/-- Append one line, repairing a missing final delimiter first. -/
def appendLine (line : Bytes) (log : Bytes) : Store Unit := do
  Traced.when (0 < log.length && !hasFinalNewline log) (Traced.emit (.appendHistory [nl]))
  Traced.emit (.appendHistory line)
  Traced.emit .syncHistory

/-- Append `record` as one line to the log. -/
def append (record : HistoryRecord) : Store Unit := Traced.inspect fun fs => do
  let line := record.toVec ++ [nl]
  Traced.emit .openHistory
  appendLine line fs.historyBytes
  Traced.when (fs.historyBytes.length = 0) (Traced.emit (.syncDir .root))

section Reader

variable (J : SerdeJson)

/-- Whether the log holds a record of this attempt from an offset on. -/
def containsAttempt (log : Bytes) (attemptId : String) (searchFrom : Nat) : Bool :=
  (lines nl (log.drop (min searchFrom log.length))).any fun line =>
    line.length ≤ maxHistoryLineBytes &&
      match J.record line with
      | none => false
      | some record => record.attemptId == attemptId

/-- Append a completion record unless its stable attempt identifier is present. -/
def appendOnce (record : HistoryRecord) (searchFrom : Nat) : Store Unit :=
  Traced.inspect fun fs =>
    if containsAttempt J fs.historyBytes record.attemptId searchFrom then pure ()
    else append record

/-! ## Reading forward -/

def isAsciiWhitespace (b : UInt8) : Bool :=
  b == 32 || b == 9 || b == 10 || b == 12 || b == 13

/-- The record the forward reader accepts from one line, delimiter included. -/
def lineRecord (line : Bytes) : Option HistoryRecord :=
  if line.length > maxHistoryLineBytes then none
  else if line.all isAsciiWhitespace then none
  else J.record line

/-- The sequence of readable records of a log. -/
def historyRecords (log : Bytes) : List HistoryRecord := collect nl (lineRecord J) log

/-- A record whose line, delimiter included, is within the line cap. -/
def HistoryRecord.FitsLine (r : HistoryRecord) : Prop :=
  r.toVec.length + 1 ≤ maxHistoryLineBytes

instance (r : HistoryRecord) : Decidable r.FitsLine := by
  unfold HistoryRecord.FitsLine; infer_instance

end Reader

/-! ## What an append leaves in the log -/

/-- The bytes an append adds to a log, repair included. -/
def appendedBytes (record : HistoryRecord) (log : Bytes) : Bytes :=
  (if Closed nl log then [] else [nl]) ++ (record.toVec ++ [nl])

theorem needsRepair_iff (log : Bytes) :
    (0 < log.length && !hasFinalNewline log) = true ↔ ¬ Closed nl log := by
  rw [not_closed_iff]
  unfold hasFinalNewline
  rcases List.eq_nil_or_concat' log with rfl | ⟨ys, b, rfl⟩
  · simp
  · simp

theorem appendLine_run (line log : Bytes) (fs : QueueFs) :
    appendLine line log fs =
      ⟨.ok (), (if Closed nl log then [] else [.appendHistory [nl]]) ++
        [.appendHistory line, .syncHistory]⟩ := by
  have hrepair : (Traced.when (0 < log.length && !hasFinalNewline log)
      (Traced.emit (.appendHistory [nl])) : Store Unit) fs =
      ⟨.ok (), if Closed nl log then [] else [.appendHistory [nl]]⟩ := by
    rw [Traced.run_when]
    by_cases hc : Closed nl log
    · rw [if_neg (by rw [needsRepair_iff]; exact not_not.2 hc), if_pos hc]
    · rw [if_pos ((needsRepair_iff _).2 hc), if_neg hc, Traced.run_emit]
  exact Traced.run_bind hrepair (Traced.run_bind (Traced.run_emit _) (Traced.run_emit _))

/-- The events of an append to a log with the given contents. -/
def appendTrace (record : HistoryRecord) (log : Bytes) : List FsEvent :=
  .openHistory :: ((if Closed nl log then [] else [.appendHistory [nl]]) ++
    [.appendHistory (record.toVec ++ [nl]), .syncHistory] ++
    (if log.length = 0 then [.syncDir .root] else []))

theorem append_run (record : HistoryRecord) (fs : QueueFs) :
    append record fs = ⟨.ok (), appendTrace record fs.historyBytes⟩ := by
  unfold append appendTrace
  rw [Traced.run_inspect]
  refine Traced.run_bind (Traced.run_emit _) (Traced.run_bind (appendLine_run _ _ _) ?_)
  rw [Traced.run_when]
  by_cases hz : fs.historyBytes.length = 0
  · simp [hz]
  · simp [hz]

/-- A finished append leaves the log with the record's line at its end. -/
theorem run_appendTrace (record : HistoryRecord) (fs : QueueFs) :
    CrashTrace.run QueueFs.step fs (appendTrace record fs.historyBytes) =
      { fs with history := some (fs.historyBytes ++ appendedBytes record fs.historyBytes) } := by
  unfold appendTrace appendedBytes
  have hlog : fs.history.getD [] = fs.historyBytes := rfl
  by_cases hc : Closed nl fs.historyBytes
  · by_cases hz : fs.historyBytes.length = 0
    · simp [hc, hz, QueueFs.step, hlog]
    · simp [hc, hz, QueueFs.step, hlog]
  · by_cases hz : fs.historyBytes.length = 0
    · simp [hc, hz, QueueFs.step, hlog]
    · simp [hc, hz, QueueFs.step, hlog]

theorem final_append (record : HistoryRecord) (fs : QueueFs) :
    Traced.final (append record) fs =
      { fs with history := some (fs.historyBytes ++ appendedBytes record fs.historyBytes) } := by
  unfold Traced.final
  rw [append_run]
  exact run_appendTrace record fs

/-! ## Cut-off appends -/

/-- What an event adds to the log. -/
def FsEvent.appended : FsEvent → Bytes
  | .appendHistory bytes => bytes
  | _ => []

theorem historyBytes_step (fs : QueueFs) (ev : FsEvent) :
    (fs.step ev).historyBytes = fs.historyBytes ++ ev.appended := by
  cases ev with
  | writeAtomic f bytes => cases f <;> exact (List.append_nil _).symm
  | removeFile f => cases f <;> exact (List.append_nil _).symm
  | openHistory | syncHistory | syncDir => exact (List.append_nil _).symm
  | appendHistory bytes => rfl

/-- The log only grows, by what the events add to it. -/
theorem historyBytes_run (fs : QueueFs) (t : List FsEvent) :
    (fs.run t).historyBytes = fs.historyBytes ++ t.flatMap FsEvent.appended := by
  induction t generalizing fs with
  | nil => exact (List.append_nil _).symm
  | cons ev t ih =>
    change ((fs.step ev).run t).historyBytes = _
    rw [ih, historyBytes_step, List.append_assoc, List.flatMap_cons]

theorem appended_cut {p t : List FsEvent} (h : CrashTrace.Cut Tears p t) :
    p.flatMap FsEvent.appended <+: t.flatMap FsEvent.appended := by
  induction h with
  | stop t => exact List.nil_prefix
  | torn ht t =>
    cases ht with
    | append hpre =>
      rw [List.flatMap_singleton, List.flatMap_cons]
      exact hpre.trans (List.prefix_append _ _)
  | step ev _ ih =>
    rw [List.flatMap_cons, List.flatMap_cons]
    exact (List.prefix_append_right_inj _).2 ih

theorem appended_appendTrace (record : HistoryRecord) (log : Bytes) :
    (appendTrace record log).flatMap FsEvent.appended = appendedBytes record log := by
  unfold appendTrace appendedBytes
  by_cases hc : Closed nl log
  · by_cases hz : log.length = 0
    · simp [hc, hz, FsEvent.appended]
    · simp [hc, hz, FsEvent.appended]
  · by_cases hz : log.length = 0
    · simp [hc, hz, FsEvent.appended]
    · simp [hc, hz, FsEvent.appended]

/-- Wherever an append is cut off, the log has grown by part of what it writes. -/
theorem interrupted_append {record : HistoryRecord} {fs fs' : QueueFs}
    (h : Traced.Interrupted Tears (append record) fs fs') :
    ∃ p, p <+: appendedBytes record fs.historyBytes ∧ fs'.historyBytes = fs.historyBytes ++ p := by
  obtain ⟨q, hq, rfl⟩ := h
  rw [append_run] at hq
  have hpre := appended_cut hq
  rw [appended_appendTrace] at hpre
  exact ⟨_, hpre, historyBytes_run fs q⟩

end Comenq
