import Comenq.Client.Wire

/-!
# What the client prints

The model of `output.rs`, of `render_reply` and the functions below it in `client.rs`, and of the
texts of `ClientError`. What is printed is a list of lines: every write of the client goes through
`write_line`, which adds the line feed. Fields of a reply pass through `terminal_safe` or
`one_line_summary` before they are printed.
-/

namespace Comenq

/-! ## Texts of a reply -/

/-- The control characters, and the line and paragraph separators. -/
def isUnsafe (c : Char) : Bool :=
  c.toNat < 32 || (127 ≤ c.toNat && c.toNat < 160) || c.toNat = 0x2028 || c.toNat = 0x2029

/-- How a character that is not printable ASCII is spelled out. -/
def escapeDefault (c : Char) : List Char :=
  if c = '\t' then ['\\', 't']
  else if c = '\r' then ['\\', 'r']
  else if c = '\n' then ['\\', 'n']
  else ['\\', 'u', '\x7b'] ++ Nat.toDigits 16 c.toNat ++ ['\x7d']

/-- Escape reply fields that could otherwise alter terminal output. -/
def terminalSafe (value : String) : String :=
  String.ofList (value.toList.flatMap fun c => if isUnsafe c then escapeDefault c else [c])

/-- Maximum characters of comment text shown by `list`. -/
def summaryLimit : Nat := 60

/-- Collapse a comment body to a single line of at most 60 characters. -/
def oneLineSummary (body : String) : String :=
  let flat := body.toList.map fun c => if isUnsafe c then ' ' else c
  if flat.length ≤ summaryLimit then String.ofList flat
  else String.ofList (flat.take (summaryLimit - 1) ++ ['…'])

/-! ## Durations -/

/-- A number as text. -/
def decimalText (n : Nat) : String := String.ofList (Nat.toDigits 10 n)

/-- A text set right in a field of some width. -/
def alignRight (width : Nat) (fill : Char) (s : String) : String :=
  String.ofList (s.toList.leftpad width fill)

/-- A text set left in a field of some width. -/
def alignLeft (width : Nat) (s : String) : String := String.ofList (s.toList.rightpad width ' ')

inductive EtaUnit
  | now
  | seconds
  | minutes
  | hours
deriving DecidableEq, Repr

/-- Classify an ETA before rendering its compact duration. -/
def classifyEta (seconds : UInt64) : EtaUnit :=
  if seconds = 0 then .now
  else if seconds < 60 then .seconds
  else if seconds < 3600 then .minutes
  else .hours

/-- Render an ETA in seconds as a compact human duration. -/
def formatEta (seconds : UInt64) : String :=
  match classifyEta seconds with
  | .now => "now"
  | .seconds => decimalText seconds.toNat ++ "s"
  | .minutes =>
    decimalText (seconds / 60).toNat ++ "m " ++
      alignRight 2 '0' (decimalText (seconds % 60).toNat) ++ "s"
  | .hours =>
    decimalText (seconds / 3600).toNat ++ "h " ++
      alignRight 2 '0' (decimalText (seconds % 3600 / 60).toNat) ++ "m"

/-- Render a remaining wait using the usual ETA precision. -/
def renderRemaining (seconds : UInt64) : String :=
  terminalSafe (if seconds = 0 then "due now" else formatEta seconds ++ " remaining")

/-- Render how long ago something happened as a compact human duration. -/
def formatAge (seconds : UInt64) : String :=
  if seconds = 0 then "just now" else formatEta seconds ++ " ago"

example : [formatEta 0, formatEta 45, formatEta 150, formatEta 3720, formatAge 3720] =
    ["now", "45s", "2m 30s", "1h 02m", "1h 02m ago"] := by decide +kernel

/-! ## Lines -/

/-- The repository and pull request of a line. -/
def renderTarget (owner repo : String) (prNumber : UInt64) : String :=
  terminalSafe owner ++ "/" ++ terminalSafe repo ++ "#" ++ decimalText prNumber.toNat

/-- Render one `hist` line for a past posting attempt. -/
def renderHistory (entry : HistoryEntry) (now : UInt64) : String :=
  let age := formatAge (Saturating.sub now entry.postedAt)
  let status := if entry.success then "ok" else "FAIL"
  let tokenHash := String.ofList (entry.tokenHash.toList.take 8)
  let tokenHash := if tokenHash = "" then "--------" else terminalSafe tokenHash
  let line := terminalSafe entry.id ++ "  " ++ alignRight 11 ' ' age ++ "  " ++
    alignLeft 4 status ++ "  " ++ tokenHash ++ "  " ++
    renderTarget entry.owner entry.repo entry.prNumber ++ "  " ++ oneLineSummary entry.body
  match entry.error with
  | some error => line ++ " — " ++ oneLineSummary error
  | none => line

/-- Render the `put` confirmation line. -/
def renderPut (entry : PendingEntry) : String :=
  "Queued " ++ terminalSafe entry.id ++ " for " ++
    renderTarget entry.owner entry.repo entry.prNumber ++ " — posts in ~" ++
    formatEta entry.etaSeconds

/-- Render one `list` line for a pending entry. -/
def renderEntry (entry : PendingEntry) : String :=
  terminalSafe entry.id ++ "  " ++ alignRight 7 ' ' (formatEta entry.etaSeconds) ++ "  " ++
    renderTarget entry.owner entry.repo entry.prNumber ++ "  " ++ oneLineSummary entry.body

/-! ## Replies -/

inductive Command
  | put (request : CommentRequest) (now : Bool)
  | list
  | bump (id : String)
  | bust (id : String)
  | del (id : String)
  | await (id : String)
  | hist (limit : Option Nat)
deriving DecidableEq, Repr

def Command.toRequest : Command → Request
  | put request now => .put request now
  | list => .list
  | await id => .await id
  | bump id => .bump id
  | bust id => .bust id
  | del id => .del id
  | hist limit => .hist limit none

/-- Render the pending entries returned by `list`. -/
def renderListReply (entries : List PendingEntry) : List String :=
  if entries.isEmpty then ["No comments queued."] else entries.map renderEntry

/-- Render the posting attempts returned by `hist`. -/
def renderHistoryReply (history : List HistoryEntry) (now : UInt64) : List String :=
  if history.isEmpty then ["No posting history recorded."]
  else history.map fun entry => renderHistory entry now

/-- Render a response whose shape has already been checked against `command`. -/
def renderResponse (command : Command) (entry : Option PendingEntry)
    (entries : Option (List PendingEntry)) (history : Option (List HistoryEntry)) (now : UInt64) :
    Except ClientError (List String) :=
  match command, entry, entries, history with
  | .put .., some entry, none, none => .ok [renderPut entry]
  | .list, none, some entries, none => .ok (renderListReply entries)
  | .bump id, none, none, none => .ok ["Moved " ++ id ++ " to the head of the queue."]
  | .bust id, none, none, none => .ok ["Moved " ++ id ++ " to the tail of the queue."]
  | .del id, none, none, none => .ok ["Removed " ++ id ++ " from the queue."]
  | .hist _, none, none, some history => .ok (renderHistoryReply history now)
  | _, _, _, _ => .error .unexpectedResponse

/-- Check the daemon result and render it. -/
def renderReply (command : Command) (now : UInt64) : Response → Except ClientError (List String)
  | .error message => .error (.daemon message)
  | .ok entry entries history _ => renderResponse command entry entries history now

/-! ## Errors -/

/-- The text of an error; `decodeError` is what the deserializer says of a reply it does not
accept. -/
def ClientError.display (decodeError : String) (err : ClientError) : String :=
  match err with
  | .serialize => "failed to encode or decode a daemon message: " ++ decodeError
  | .requestTooLarge size limit =>
    "request payload is " ++ decimalText size ++ " bytes, exceeding the " ++ decimalText limit ++
      "-byte limit"
  | .replyTooLarge => "daemon reply exceeds the protocol size limit"
  | .connectionLost => "connection lost before posting completed"
  | .awaitRejected message =>
    "daemon rejected the await request: " ++ message ++
      " (comenqd may predate await; run comenq and comenqd from the same release)"
  | .noInitialReply =>
    "daemon closed the connection without a reply (possible protocol mismatch with an older " ++
      "daemon; run comenq and comenqd from the same release)"
  | .daemon message => "daemon refused the request: " ++ message
  | .unexpectedResponse => "unexpected reply from daemon"

/-! ## Safe texts -/

/-- Nothing in the text can alter terminal output. -/
def SafeText (s : String) : Prop := ∀ c ∈ s.toList, isUnsafe c = false

instance (s : String) : Decidable (SafeText s) :=
  List.decidableBAll (fun c => isUnsafe c = false) s.toList

@[simp] theorem safeText_append {s t : String} : SafeText (s ++ t) ↔ SafeText s ∧ SafeText t := by
  unfold SafeText
  rw [String.toList_append, List.forall_mem_append]

theorem safeText_ofList {cs : List Char} :
    SafeText (String.ofList cs) ↔ ∀ c ∈ cs, isUnsafe c = false := by
  unfold SafeText
  rw [String.toList_ofList]

theorem isUnsafe_of_mem_toDigits {base : Nat} (hlo : 1 < base) (hhi : base ≤ 16)
    {n : Nat} {c : Char} (h : c ∈ Nat.toDigits base n) : isUnsafe c = false := by
  have hdigit : ∀ d < 16, isUnsafe (Nat.digitChar d) = false := by decide
  induction n using Nat.strongRecOn with
  | _ n ih =>
    by_cases hn : n < base
    · rw [Nat.toDigits_of_lt_base hn, List.mem_singleton] at h
      exact h ▸ hdigit n (by omega)
    · rw [Nat.toDigits_of_base_le hlo (by omega), List.mem_append, List.mem_singleton] at h
      rcases h with h | h
      · exact ih (n / base) (Nat.div_lt_self (by omega) hlo) h
      · have := Nat.mod_lt n (by omega : 0 < base)
        exact h ▸ hdigit (n % base) (by omega)

/-- An escaped character is spelled with safe ones. -/
theorem isUnsafe_of_mem_escapeDefault {c d : Char} (h : c ∈ escapeDefault d) :
    isUnsafe c = false := by
  have hfixed : ∀ c ∈ ['\\', 't', 'r', 'n', 'u', '\x7b', '\x7d'], isUnsafe c = false := by
    simp [isUnsafe]
  unfold escapeDefault at h
  split at h
  · exact hfixed c ((show ['\\', 't'] ⊆ _ by decide) h)
  · split at h
    · exact hfixed c ((show ['\\', 'r'] ⊆ _ by decide) h)
    · split at h
      · exact hfixed c ((show ['\\', 'n'] ⊆ _ by decide) h)
      · rcases List.mem_append.1 h with h | h
        · rcases List.mem_append.1 h with h | h
          · exact hfixed c ((show ['\\', 'u', '\x7b'] ⊆ _ by decide) h)
          · exact isUnsafe_of_mem_toDigits (by decide) (by decide) h
        · exact hfixed c ((show ['\x7d'] ⊆ _ by decide) h)

/-- The first sanitizer: characters are spelled out. -/
@[simp] theorem safeText_terminalSafe (value : String) : SafeText (terminalSafe value) := by
  unfold terminalSafe
  rw [safeText_ofList]
  intro c hc
  obtain ⟨d, -, hc⟩ := List.mem_flatMap.1 hc
  split at hc
  · exact isUnsafe_of_mem_escapeDefault hc
  · next hd =>
    obtain rfl := List.mem_singleton.1 hc
    simpa using hd

/-- The second sanitizer: characters become spaces, and a long text is cut. -/
@[simp] theorem safeText_oneLineSummary (body : String) : SafeText (oneLineSummary body) := by
  have hflat : ∀ c ∈ body.toList.map (fun c => if isUnsafe c then ' ' else c),
      isUnsafe c = false := by
    intro c hc
    obtain ⟨d, -, rfl⟩ := List.mem_map.1 hc
    split
    · decide
    · next hd => simpa using hd
  unfold oneLineSummary
  simp only
  split
  · exact safeText_ofList.2 hflat
  · apply safeText_ofList.2
    intro c hc
    rcases List.mem_append.1 hc with hc | hc
    · exact hflat c (List.mem_of_mem_take hc)
    · rw [List.mem_singleton.1 hc]
      decide

end Comenq
