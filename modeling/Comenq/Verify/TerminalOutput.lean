import Comenq.Daemon.ProtocolCodec
import Comenq.Verify.QuotedTexts

/-!
# Terminal output of the client

A text is safe when it holds no control character and no line or paragraph separator.
`terminal_safe` and `one_line_summary` make any text safe, and every line printed of a reply is put
together from such texts, numbers and fixed words; so is every line of the countdown. The line that
reports a failure is the exception: it repeats what the command was sent as it came
(`safeText_display_iff`, `quotes_run_iff`).
-/

namespace Comenq

/-! ## Numbers and durations -/

@[simp] theorem safeText_decimalText (n : Nat) : SafeText (decimalText n) :=
  safeText_ofList.2 fun _ hc => isUnsafe_of_mem_toDigits (by decide) (by decide) hc

@[simp] theorem safeText_alignRight {s : String} {width : Nat} {fill : Char} (h : SafeText s)
    (hfill : isUnsafe fill = false) : SafeText (alignRight width fill s) := by
  apply safeText_ofList.2
  intro c hc
  rcases List.mem_append.1 hc with hc | hc
  · rw [List.eq_of_mem_replicate hc]
    exact hfill
  · exact h c hc

@[simp] theorem safeText_alignLeft {s : String} {width : Nat} (h : SafeText s) :
    SafeText (alignLeft width s) := by
  apply safeText_ofList.2
  intro c hc
  rcases List.mem_append.1 hc with hc | hc
  · exact h c hc
  · rw [List.eq_of_mem_replicate hc]
    decide

/-- The fixed words of the lines. -/
theorem safeText_words :
    SafeText "now" ∧ SafeText "s" ∧ SafeText "m " ∧ SafeText "h " ∧ SafeText "m" ∧
    SafeText "just now" ∧ SafeText " ago" ∧ SafeText "/" ∧ SafeText "#" ∧
    SafeText "Queued " ∧ SafeText " for " ∧ SafeText " — posts in ~" ∧
    SafeText "  " ∧ SafeText "ok" ∧ SafeText "FAIL" ∧ SafeText "--------" ∧ SafeText " — " ∧
    SafeText "No comments queued." ∧ SafeText "No posting history recorded." ∧
    isUnsafe ' ' = false ∧ isUnsafe '0' = false := by
  decide +kernel

@[simp] theorem safeText_formatEta (seconds : UInt64) : SafeText (formatEta seconds) := by
  unfold formatEta
  split <;> simp [safeText_words]

@[simp] theorem safeText_formatAge (seconds : UInt64) : SafeText (formatAge seconds) := by
  unfold formatAge
  split <;> simp [safeText_words]

/-! ## Lines -/

@[simp] theorem safeText_renderTarget (owner repo : String) (prNumber : UInt64) :
    SafeText (renderTarget owner repo prNumber) := by
  simp [renderTarget, safeText_words]

theorem safeText_renderPut (entry : PendingEntry) : SafeText (renderPut entry) := by
  simp [renderPut, safeText_words]

theorem safeText_renderEntry (entry : PendingEntry) : SafeText (renderEntry entry) := by
  simp [renderEntry, safeText_words]

theorem safeText_renderHistory (entry : HistoryEntry) (now : UInt64) :
    SafeText (renderHistory entry now) := by
  have hstatus : SafeText (if entry.success then "ok" else "FAIL") := by
    split <;> simp [safeText_words]
  have hhash : ∀ (absent : Prop) [Decidable absent] (hash : String),
      SafeText (if absent then "--------" else terminalSafe hash) := by
    intro absent _ hash
    split <;> simp [safeText_words]
  unfold renderHistory
  cases entry.error <;> simp [safeText_words, hstatus, hhash]

/-- The lines of a list reply, one for each entry. -/
theorem safeText_renderListReply {entries : List PendingEntry} {line : String}
    (h : line ∈ renderListReply entries) : SafeText line := by
  unfold renderListReply at h
  split at h
  · rw [List.mem_singleton.1 h]
    simp [safeText_words]
  · obtain ⟨entry, -, rfl⟩ := List.mem_map.1 h
    exact safeText_renderEntry entry

theorem safeText_renderHistoryReply {history : List HistoryEntry} {now : UInt64} {line : String}
    (h : line ∈ renderHistoryReply history now) : SafeText line := by
  unfold renderHistoryReply at h
  split at h
  · rw [List.mem_singleton.1 h]
    simp [safeText_words]
  · obtain ⟨entry, -, rfl⟩ := List.mem_map.1 h
    exact safeText_renderHistory entry now

theorem length_renderListReply (entries : List PendingEntry) :
    (renderListReply entries).length = max 1 entries.length := by
  unfold renderListReply
  cases entries <;> simp

theorem length_renderHistoryReply (history : List HistoryEntry) (now : UInt64) :
    (renderHistoryReply history now).length = max 1 history.length := by
  unfold renderHistoryReply
  cases history <;> simp

/-! ## The countdown -/

theorem safeText_reportLines {elapsed : List UInt64} {countdown : Option UInt64} {line : String}
    (h : line ∈ reportLines elapsed countdown) : SafeText line := by
  cases countdown with
  | none => cases h
  | some eta =>
    obtain ⟨seconds, -, rfl⟩ := List.mem_map.1 h
    exact safeText_terminalSafe _

theorem safeText_countdownLines {started : UInt64} {ticks : Nat → List UInt64}
    {events : List AwaitEvent} {line : String} {k : Nat} {countdown : Option UInt64}
    (h : line ∈ countdownLines started ticks k countdown events) : SafeText line := by
  induction events generalizing k countdown with
  | nil => exact safeText_reportLines h
  | cons event events ih =>
    cases event with
    | waiting eta =>
      rw [countdownLines, List.mem_append, List.mem_append] at h
      rcases h with (h | h) | h
      · exact safeText_reportLines h
      · split at h
        · exact safeText_reportLines h
        · cases h
      · exact ih h
    | posted commentUrl => exact safeText_reportLines h
    | error message => exact safeText_reportLines h

/-! ## Errors -/

/-- An error is shown on one line exactly if what it repeats is safe. -/
theorem safeText_display_iff (decodeError : String) (err : ClientError) :
    SafeText (err.display decodeError) ↔ ∀ text ∈ err.quoted decodeError, SafeText text := by
  have hwords : SafeText "failed to encode or decode a daemon message: " ∧
      SafeText "request payload is " ∧ SafeText " bytes, exceeding the " ∧ SafeText "-byte limit" ∧
      SafeText "daemon rejected the await request: " ∧
      SafeText " (comenqd may predate await; run comenq and comenqd from the same release)" ∧
      SafeText "daemon refused the request: " := by decide +kernel
  unfold ClientError.display
  cases err with
  | serialize => simp [ClientError.quoted, hwords]
  | requestTooLarge size limit => simp [ClientError.quoted, hwords]
  | awaitRejected message => simp [ClientError.quoted, hwords]
  | daemon message => simp [ClientError.quoted, hwords]
  | _ =>
    refine iff_of_true ?_ (by simp [ClientError.quoted])
    simp only
    decide +kernel

/-! ## Commands -/

section Commands

variable {W : WireJson} {R : AwaitJson} {s : Surroundings}

/-- The URLs are what `receive` writes to standard output. -/
theorem receive_stdout (R : AwaitJson) (countdown : Option UInt64) (stream : List Bytes) :
    (receive R countdown stream).stdout =
      writeLines (postedLines (receive R countdown stream).events) := by
  have hnil : writeLines (postedLines []) = "" := rfl
  fun_induction receive R countdown stream with
  | case1 => exact hnil.symm
  | case2 => exact hnil.symm
  | case3 => exact hnil.symm
  | case4 countdown stream left commentUrl _ =>
    unfold writeLines postedLines
    rw [String.ext_iff]
    simp
  | case5 => exact hnil.symm
  | case6 countdown stream left etaSeconds _ later _ ih => exact ih

theorem safeText_postedLines {events : List AwaitEvent} {line : String}
    (h : line ∈ postedLines events) : SafeText line := by
  obtain ⟨event, -, hline⟩ := List.mem_filterMap.1 h
  cases event with
  | posted commentUrl =>
    obtain rfl := Option.some.inj hline
    exact safeText_terminalSafe commentUrl
  | _ => cases hline

/-- What a command printed of the replies, before any failure is reported, is safe. -/
def Printed.Safe (printed : Printed) : Prop :=
  (∀ line ∈ printed.stdout, SafeText line) ∧ ∀ line ∈ printed.stderr, SafeText line

theorem Printed.safe_failed (err : ClientError) : (Printed.failed err).Safe :=
  ⟨fun _ h => (by cases h), fun _ h => (by cases h)⟩

theorem safe_runAwait (id : String) : (runAwait R s id).Safe := by
  unfold runAwait
  simp only
  split
  · exact Printed.safe_failed _
  · exact ⟨fun _ h => safeText_postedLines h, fun _ h => safeText_countdownLines h⟩

theorem safe_runHist (fuel : Nat) (limit : Option Nat) : (runHist W s fuel limit).Safe := by
  constructor
  · intro line h
    obtain ⟨history, -, hline⟩ := List.mem_flatMap.1 h
    exact safeText_renderHistoryReply hline
  · intro line h
    cases h

/-- The commands whose lines hold nothing but what the daemon replied. -/
def Command.Reports : Command → Prop
  | .put .. | .list | .hist _ | .await _ => True
  | .bump _ | .bust _ | .del _ => False

theorem safe_renderReply {command : Command} (hc : command.Reports) {now : UInt64}
    {response : Response} {lines : List String} (h : renderReply command now response = .ok lines) :
    ∀ line ∈ lines, SafeText line := by
  intro line hline
  cases response with
  | error message => cases h
  | ok entry entries history nextCursor =>
    unfold renderReply renderResponse at h
    simp only at h
    split at h
    · cases h
      rw [List.mem_singleton.1 hline]
      exact safeText_renderPut _
    · cases h
      exact safeText_renderListReply hline
    · exact hc.elim
    · exact hc.elim
    · exact hc.elim
    · cases h
      exact safeText_renderHistoryReply hline
    · cases h

theorem safe_runOnce {command : Command} (hc : command.Reports) : (runOnce W s command).Safe := by
  unfold runOnce
  split
  · exact Printed.safe_failed _
  · split
    · exact Printed.safe_failed _
    · next hreply => exact ⟨safe_renderReply hc hreply, fun _ h => (by cases h)⟩

theorem safe_run (fuel : Nat) {command : Command} (hc : command.Reports) :
    (run W R s fuel command).Safe := by
  unfold run
  split
  · exact safe_runAwait _
  · exact safe_runHist fuel _
  · exact safe_runOnce hc

end Commands

/-! ## What reaches the terminal -/

/-- Of the characters written, only the line feeds that end the lines can alter terminal output. -/
def Harmless (lines : List String) : Prop :=
  (writeLines lines).toList.filter isUnsafe = List.replicate lines.length '\n'

theorem filter_isUnsafe_eq_nil {s : String} : s.toList.filter isUnsafe = [] ↔ SafeText s := by
  unfold SafeText
  rw [List.filter_eq_nil_iff]
  simp only [Bool.not_eq_true]

theorem filter_isUnsafe_writeLines (lines : List String) :
    (writeLines lines).toList.filter isUnsafe =
      lines.flatMap fun line => line.toList.filter isUnsafe ++ ['\n'] := by
  have hfeed : isUnsafe '\n' = true := by decide
  unfold writeLines
  rw [String.toList_ofList, List.filter_flatMap]
  simp only [List.filter_append, List.filter_cons_of_pos hfeed, List.filter_nil]

/-- Each line takes up one line of the terminal exactly if it is safe. -/
theorem harmless_iff (lines : List String) : Harmless lines ↔ ∀ line ∈ lines, SafeText line := by
  unfold Harmless
  rw [filter_isUnsafe_writeLines]
  constructor
  · intro h
    -- the line feeds that end the lines already make up the length
    have hlength : ∀ ls : List String,
        (ls.flatMap fun line => line.toList.filter isUnsafe ++ ['\n']).length =
          ls.length + (ls.map fun line => (line.toList.filter isUnsafe).length).sum := by
      intro ls
      induction ls with
      | nil => rfl
      | cons line ls ih =>
        simp only [List.flatMap_cons, List.length_append, List.length_cons, List.length_nil,
          List.map_cons, List.sum_cons, ih]
        omega
    have hsum := hlength lines
    rw [h, List.length_replicate] at hsum
    have hzero : (lines.map fun line => (line.toList.filter isUnsafe).length).sum = 0 := by omega
    intro line hline
    have := List.sum_eq_zero_iff.1 hzero _ (List.mem_map_of_mem hline)
    exact filter_isUnsafe_eq_nil.1 (List.length_eq_zero_iff.1 this)
  · intro h
    induction lines with
    | nil => rfl
    | cons line lines ih =>
      obtain ⟨hline, hlines⟩ := List.forall_mem_cons.1 h
      rw [List.flatMap_cons, ih hlines, filter_isUnsafe_eq_nil.2 hline]
      rfl

theorem length_runHist (W : WireJson) (s : Surroundings) (fuel : Nat) (limit : Option Nat) :
    (runHist W s fuel limit).stdout.length =
      ((runHistoryPages (fun k => transact W (s.serve k)) limit fuel 0 none false).pages.map
        fun history => max 1 history.length).sum := by
  unfold runHist
  simp only [List.length_flatMap, length_renderHistoryReply]

/-- The error line takes up one line exactly if every text that the command is sent is safe. -/
theorem harmless_errors_iff {W : WireJson} {R : AwaitJson} {s : Surroundings} {fuel : Nat}
    {command : Command} (hc : command.Reports) (decodeError : String) :
    Harmless ((run W R s fuel command).errors decodeError) ↔
      ∀ text, Sent W R s fuel decodeError command text → SafeText text := by
  obtain ⟨-, herr⟩ := @safe_run W R s fuel command hc
  simp only [← quotes_run_iff]
  rw [harmless_iff, Printed.errors, List.forall_mem_append, and_iff_right herr]
  cases (run W R s fuel command).result with
  | none => simp [errorLine, Quotes]
  | some result =>
    cases result with
    | ok u => simp [errorLine]
    | error err => simp [errorLine, safeText_display_iff]

/-- Commands print the daemon's replies line by line, one line for each entry, record or URL and
without a character that could alter terminal output, except that the line reporting a failure
repeats what the command was sent: it is one harmless line exactly if the message of the error
reply, of the error event or of the rejection, or the deserializer's text on a reply that cannot be
decoded, is safe. -/
theorem printed_lines_harmless_iff (W : WireJson) (R : AwaitJson) (s : Surroundings) (fuel : Nat)
    (decodeError : String) (command : Command) (hc : command.Reports) :
    Harmless (run W R s fuel command).stdout ∧
    (Harmless ((run W R s fuel command).errors decodeError) ↔
      ∀ text, Sent W R s fuel decodeError command text → SafeText text) ∧
    (∀ entries nextCursor, command = .list →
      transact W (s.serve 0) .list = .ok (.ok none (some entries) none nextCursor) →
      (run W R s fuel command).stdout.length = max 1 entries.length) ∧
    (∀ limit, command = .hist limit → (run W R s fuel command).stdout.length =
      ((runHistoryPages (fun k => transact W (s.serve k)) limit fuel 0 none false).pages.map
        fun history => max 1 history.length).sum) ∧
    ∀ id, command = .await id → (Request.await id).toVec.length ≤ maxRequestBytes →
      writeLines (run W R s fuel command).stdout = (receive R none s.stream).stdout := by
  obtain ⟨hout, -⟩ := @safe_run W R s fuel command hc
  refine ⟨(harmless_iff _).2 hout, harmless_errors_iff hc decodeError, ?_, ?_, ?_⟩
  · rintro entries nextCursor rfl hreply
    have hlines : (run W R s fuel .list).stdout = renderListReply entries := by
      unfold run runOnce Command.toRequest
      simp only [hreply]
      rfl
    rw [hlines, length_renderListReply]
  · rintro limit rfl
    exact length_runHist W s fuel limit
  · rintro id rfl hfits
    rw [receive_stdout]
    unfold run runAwait
    simp only [if_neg (Nat.not_lt.2 hfits)]

/-- A daemon that answers every request with one reply, and every await with one event. -/
def answering (response : Response) (event : AwaitEvent) : Surroundings where
  serve _ _ := response.toVec
  stream := [event.toVec ++ [JsonText.nl]]
  now := 0
  started := 0
  ticks _ := []

/-- A message that clears the screen and starts a line of its own. -/
def sampleInjection : Surroundings :=
  answering (.error "\x1b[2J\nQueued") (.error "\x1b[2J\nQueued")

theorem error_line_injects :
    (run wireJson awaitJson sampleInjection 1 .list).errors "" =
      ["daemon refused the request: \x1b[2J\nQueued"] ∧
    (run wireJson awaitJson sampleInjection 1 (.await "4e881b86")).errors "" =
      ["daemon refused the request: \x1b[2J\nQueued"] ∧
    ¬ Harmless ["daemon refused the request: \x1b[2J\nQueued"] := by
  refine ⟨by decide +kernel, ?_, ?_⟩
  · decide +kernel
  · rw [harmless_iff]
    decide +kernel

/-- A list whose only entry has control characters in its fields, and an await that fails with a
harmless message. -/
def sampleHostile : Surroundings :=
  answering (.ofEntries [⟨"4e881b86\n", 90, "\x1b[2J", "hello", 7, "two\nlines"⟩])
    (.error "entry was deleted")

theorem printed_lines_harmless_iff_list :
    (run wireJson awaitJson sampleHostile 1 .list).stdout =
      ["4e881b86\\n   1m 30s  \\u\x7b1b\x7d[2J/hello#7  two lines"] ∧
    Harmless (run wireJson awaitJson sampleHostile 1 .list).stdout ∧
    Harmless ((run wireJson awaitJson sampleHostile 1 .list).errors "") ∧
    (run wireJson awaitJson sampleHostile 1 (.await "4e881b86")).errors "" =
      ["daemon refused the request: entry was deleted"] ∧
    Harmless ((run wireJson awaitJson sampleHostile 1 (.await "4e881b86")).errors "") := by
  have hlist : (run wireJson awaitJson sampleHostile 1 .list).stdout =
      ["4e881b86\\n   1m 30s  \\u\x7b1b\x7d[2J/hello#7  two lines"] ∧
      (run wireJson awaitJson sampleHostile 1 .list).result = some (.ok ()) := by
    decide +kernel
  have hawait : (run wireJson awaitJson sampleHostile 1 (.await "4e881b86")).stderr = [] ∧
      (run wireJson awaitJson sampleHostile 1 (.await "4e881b86")).result =
        some (.error (.daemon "entry was deleted")) := by
    decide +kernel
  obtain ⟨hout, herrors, -⟩ :=
    printed_lines_harmless_iff wireJson awaitJson sampleHostile 1 "" .list trivial
  obtain ⟨-, hfailed, -⟩ :=
    printed_lines_harmless_iff wireJson awaitJson sampleHostile 1 "" (.await "4e881b86") trivial
  refine ⟨hlist.1, hout, herrors.2 fun text hsent => ?_, ?_, hfailed.2 fun text hsent => ?_⟩
  · rw [← quotes_run_iff, hlist.2] at hsent
    exact absurd hsent not_quotes_ok
  · rw [Printed.errors, hawait.1, hawait.2]
    decide
  · rw [← quotes_run_iff, hawait.2, quotes_error_iff] at hsent
    obtain rfl := Option.some.inj hsent
    decide +kernel

end Comenq
