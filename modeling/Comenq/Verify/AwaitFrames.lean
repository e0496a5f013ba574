import Comenq.Client.AwaitStream
import Comenq.Store.Codec

/-!
# Daemon and client agree on the await stream

Every frame a handler sends leaves room for its delimiter (`fits_reply`), and a frame that does is
read back whole however the stream is cut (`readFrame_wire`). So the client decodes the frames that
were sent and ends as the last of them says (`receive_wire`).
-/

namespace Comenq

open JsonText LineReader

/-! ## The size of frames -/

theorem AwaitEvent.fits_waiting (etaSeconds : UInt64) : (AwaitEvent.waiting etaSeconds).Fits := by
  have heta : (decimalU64 etaSeconds).length ≤ 20 :=
    length_decimalNat_le (by decide) (etaSeconds.toNat_lt.trans_le (by decide))
  have hstatus : (quote "status").length = 8 := by decide +kernel
  have hwaiting : (quote "waiting").length = 9 := by decide +kernel
  have hkey : (quote "eta_seconds").length = 13 := by decide +kernel
  unfold Fits toVec object maxAwaitFrameBytes
  simp only [List.map_cons, List.map_nil, List.intercalate_cons_cons, List.intercalate_singleton,
    List.length_cons, List.length_append, List.length_nil, hstatus, hwaiting, hkey]
  omega

/-- Messages of moderate length fit. -/
theorem AwaitEvent.fits_error {message : String} (h : message.toList.length ≤ 10000) :
    (AwaitEvent.error message).Fits := by
  have hmessage := length_quote_le message
  have hstatus : (quote "status").length = 8 := by decide +kernel
  have herror : (quote "error").length = 7 := by decide +kernel
  have hkey : (quote "message").length = 9 := by decide +kernel
  unfold Fits toVec object maxAwaitFrameBytes
  simp only [List.map_cons, List.map_nil, List.intercalate_cons_cons, List.intercalate_singleton,
    List.length_cons, List.length_append, List.length_nil, hstatus, herror, hkey]
  omega

theorem AwaitError.fits_message (err : AwaitError) : (AwaitEvent.error err.message).Fits := by
  apply AwaitEvent.fits_error
  cases err with
  | invalidIdentifier => decide
  | queueLookup category => cases category <;> decide

theorem fits_sendPosted (commentUrl : String) : (sendPosted commentUrl).Fits := by
  unfold sendPosted
  split
  · assumption
  · apply AwaitEvent.fits_error
    decide

theorem fits_missingEntry (token : Option AwaitCursor) : (missingEntry token).Fits := by
  apply AwaitEvent.fits_error
  split
  · decide
  · decide

theorem fits_respond (token : Option AwaitCursor) (result : Except AwaitError AwaitState) :
    (respond token result).1.Fits := by
  unfold respond
  split
  · exact AwaitEvent.fits_waiting _
  · dsimp only
    exact fits_sendPosted _
  · exact AwaitEvent.fits_error (by decide)
  · exact fits_missingEntry token
  · exact AwaitError.fits_message _

/-- Every frame of a handler leaves room for its delimiter. -/
theorem fits_reply (token : Option AwaitCursor) (turn : AwaitTurn) : (turn.reply token).1.Fits := by
  cases turn with
  | lookup result => exact fits_respond token result
  | shutdown => exact AwaitEvent.fits_error (by decide)

/-! ## Reading frames back -/

theorem AwaitEvent.nl_not_mem_toVec (event : AwaitEvent) : nl ∉ event.toVec := by
  unfold toVec
  split
  · apply spelled_nl.object
    intro m hm
    simp only [List.mem_cons, List.not_mem_nil, or_false] at hm
    rcases hm with rfl | rfl
    · exact spelled_nl.quote _
    · exact spelled_nl.decimalNat _
  · apply spelled_nl.object
    intro m hm
    simp only [List.mem_cons, List.not_mem_nil, or_false] at hm
    rcases hm with rfl | rfl <;> exact spelled_nl.quote _
  · apply spelled_nl.object
    intro m hm
    simp only [List.mem_cons, List.not_mem_nil, or_false] at hm
    rcases hm with rfl | rfl <;> exact spelled_nl.quote _

section Streams

variable (R : AwaitJson)

/-- A line within the limit is decoded, and what follows it is left. -/
theorem readFrame_line {stream : List Bytes} {line rest : Bytes} (hn : nl ∉ line)
    (hsize : line.length < maxAwaitFrameBytes) (hs : stream.flatten = line ++ nl :: rest) :
    ∃ left, left.flatten = rest ∧ readFrame R stream =
      ((R.event (line ++ [nl])).elim (.error .unexpectedResponse) fun event => .ok (.frame event),
        left) := by
  obtain ⟨hline, hleft⟩ := readUntil_frame hn (hsize.trans (Nat.lt_succ_self _)) hs
  refine ⟨_, hleft, ?_⟩
  have hlength : ¬ (line ++ [nl]).length > maxAwaitFrameBytes := by
    rw [List.length_append, List.length_singleton]
    exact Nat.not_lt.2 hsize
  unfold readFrame
  simp only [hline, hlength, if_false, List.getLast?_concat, ne_eq, not_true_eq_false]
  cases R.event (line ++ [nl]) <;> rfl

/-- A frame that fits is decoded. -/
theorem readFrame_wire {event : AwaitEvent} (hfits : event.Fits) {stream : List Bytes}
    {rest : Bytes} (hs : stream.flatten = event.toVec ++ nl :: rest) :
    ∃ left, readFrame R stream = (.ok (.frame event), left) ∧ left.flatten = rest := by
  obtain ⟨left, hleft, hread⟩ := readFrame_line R event.nl_not_mem_toVec hfits hs
  rw [R.event_line] at hread
  exact ⟨left, hread, hleft⟩

/-- What the client makes of a terminal frame. -/
def AwaitEvent.ending : AwaitEvent → String × Except ClientError Unit
  | posted commentUrl => (terminalSafe commentUrl ++ "\n", .ok ())
  | error message => ("", .error (.daemon message))
  | waiting _ => ("", .ok ())

/-- The client decodes waiting frames and a terminal frame as they were sent, however the stream is
cut, and ends as the terminal frame says. -/
theorem receive_wire {waits : List AwaitEvent} {last : AwaitEvent}
    (hwaits : ∀ event ∈ waits, event.isWaiting = true ∧ event.Fits) (hlast : last.isWaiting = false)
    (hfits : last.Fits) (countdown : Option UInt64) {stream : List Bytes}
    (hs : stream.flatten = AwaitEvent.wire (waits ++ [last])) :
    receive R countdown stream = ⟨waits ++ [last], last.ending.1, last.ending.2⟩ := by
  -- the stream shrinks by one frame a round
  induction waits generalizing countdown stream with
  | nil =>
    have hwire : stream.flatten = last.toVec ++ nl :: [] := by
      rw [hs]
      simp [AwaitEvent.wire]
    obtain ⟨left, hread, -⟩ := readFrame_wire R hfits hwire
    rw [receive_frame hread]
    cases last with
    | waiting eta => cases hlast
    | posted commentUrl => rfl
    | error message => rfl
  | cons event waits ih =>
    obtain ⟨hwaiting, hevent⟩ := hwaits event List.mem_cons_self
    have hwire : stream.flatten = event.toVec ++ nl :: AwaitEvent.wire (waits ++ [last]) := by
      rw [hs]
      simp [AwaitEvent.wire]
    obtain ⟨left, hread, hleft⟩ := readFrame_wire R hevent hwire
    rw [receive_frame hread]
    cases event with
    | posted commentUrl => cases hwaiting
    | error message => cases hwaiting
    | waiting eta =>
      have hlater := ih (fun event he => hwaits event (List.mem_cons_of_mem _ he)) (some eta) hleft
      simp only [hlater, List.cons_append]

end Streams

/-! ## Connections -/

/-- A turn that ends the connection: every one but a pending lookup. -/
def AwaitTurn.Terminal : AwaitTurn → Prop
  | lookup (.ok (.pending ..)) => False
  | _ => True

/-- The turn of a pending lookup. -/
def AwaitTurn.pending (p : UInt64 × AwaitCursor) : AwaitTurn := lookup (.ok (.pending p.1 p.2))

theorem AwaitTurn.Terminal.reply {turn : AwaitTurn} (h : turn.Terminal)
    (token : Option AwaitCursor) :
    (turn.reply token).2 = none ∧ (turn.reply token).1.isWaiting = false := by
  cases turn with
  | shutdown => exact ⟨rfl, rfl⟩
  | lookup result =>
    have hkind := isWaiting_respond token result
    have hnone : (respond token result).2 = none := by
      unfold respond
      split
      · exact h.elim
      all_goals rfl
    rw [hnone] at hkind
    exact ⟨hnone, hkind⟩

/-- The token after some pending lookups. -/
def tokenAfter (token : Option AwaitCursor) (pendings : List (UInt64 × AwaitCursor)) :
    Option AwaitCursor := (pendings.getLast?.map Prod.snd).or token

/-- A connection's frames: one for every pending lookup, and the terminal one. -/
theorem awaitEntry_eq {last : AwaitTurn} (hlast : last.Terminal) (token : Option AwaitCursor)
    (pendings : List (UInt64 × AwaitCursor)) :
    awaitEntry token (pendings.map AwaitTurn.pending ++ [last]) =
      pendings.map (fun p => AwaitEvent.waiting p.1) ++
        [(last.reply (tokenAfter token pendings)).1] := by
  induction pendings generalizing token with
  | nil =>
    obtain ⟨hnone, -⟩ := hlast.reply token
    have hfits := fits_reply token last
    change awaitEntry token [last] = [(last.reply token).1]
    unfold awaitEntry
    rw [if_pos hfits]
    split
    · next heq => rw [heq]
    · next heq => rw [heq] at hnone; cases hnone
  | cons p pendings ih =>
    have hfits := fits_reply token (AwaitTurn.pending p)
    have htoken : tokenAfter token (p :: pendings) = tokenAfter (some p.2) pendings := by
      unfold tokenAfter
      cases pendings with
      | nil => rfl
      | cons q qs =>
        rw [List.getLast?_cons_cons, List.getLast?_eq_some_getLast (List.cons_ne_nil q qs)]
        rfl
    rw [List.map_cons, List.cons_append, List.map_cons, List.cons_append, htoken, ← ih (some p.2)]
    conv_lhs => unfold awaitEntry
    rw [if_pos hfits]
    rfl

/-! ## Streams -/

/-- Daemon and client agree: after any number of pending lookups and a terminal turn, however the
bytes are cut into chunks, the client has decoded the frames that were sent. It prints one line and
succeeds if the last frame is posted; otherwise it prints nothing and fails with the daemon's
message. A posted URL too long for a frame is reported as an error. -/
theorem await_stream_agrees (R : AwaitJson) (pendings : List (UInt64 × AwaitCursor))
    {last : AwaitTurn} (hlast : last.Terminal) {stream : List Bytes}
    (hs : stream.flatten =
      AwaitEvent.wire (awaitEntry none (pendings.map AwaitTurn.pending ++ [last]))) :
    ∃ event, awaitEntry none (pendings.map AwaitTurn.pending ++ [last]) =
        pendings.map (fun p => AwaitEvent.waiting p.1) ++ [event] ∧
      (receive R none stream).events = pendings.map (fun p => AwaitEvent.waiting p.1) ++ [event] ∧
      ((∃ commentUrl, event = .posted commentUrl ∧ '\n' ∉ (terminalSafe commentUrl).toList ∧
          (receive R none stream).stdout = terminalSafe commentUrl ++ "\n" ∧
          (receive R none stream).result = .ok ()) ∨
        ∃ message, event = .error message ∧ (receive R none stream).stdout = "" ∧
          (receive R none stream).result = .error (.daemon message)) ∧
      ∀ commentUrl postedAt, last = .lookup (.ok (.posted (some commentUrl) postedAt)) →
        event = if (AwaitEvent.posted commentUrl).Fits then .posted commentUrl
          else .error "posted comment URL exceeds the await frame limit" := by
  have hsent := awaitEntry_eq hlast none pendings
  obtain ⟨-, hkind⟩ := hlast.reply (tokenAfter none pendings)
  have hfits := fits_reply (tokenAfter none pendings) last
  have hwaits : ∀ event ∈ pendings.map (fun p => AwaitEvent.waiting p.1),
      event.isWaiting = true ∧ event.Fits := by
    intro event hevent
    obtain ⟨p, -, rfl⟩ := List.mem_map.1 hevent
    exact ⟨rfl, AwaitEvent.fits_waiting p.1⟩
  rw [hsent] at hs
  have hreceived := receive_wire R hwaits hkind hfits none hs
  refine ⟨(last.reply (tokenAfter none pendings)).1, hsent, by rw [hreceived], ?_, ?_⟩
  · rw [hreceived]
    cases hevent : (last.reply (tokenAfter none pendings)).1 with
    | waiting eta =>
      rw [hevent] at hkind
      cases hkind
    | posted commentUrl =>
      refine Or.inl ⟨commentUrl, rfl, fun hmem => ?_, rfl, rfl⟩
      exact absurd (safeText_terminalSafe commentUrl _ hmem) (by decide)
    | error message => exact Or.inr ⟨message, rfl, rfl, rfl⟩
  · intro commentUrl postedAt hposted
    rw [hposted]
    rfl

namespace Codec

open JsonText.Reader

/-- An event, in the form the daemon writes. -/
def awaitEvent : Reader AwaitEvent := do
  byte 123; key "status"; let status ← string; byte 44
  if status = "waiting" then
    key "eta_seconds"; let etaSeconds ← natural
    byte 125
    pure (.waiting (UInt64.ofNat etaSeconds))
  else if status = "posted" then
    key "comment_url"; let commentUrl ← string
    byte 125
    pure (.posted commentUrl)
  else
    key "message"; let message ← string
    byte 125
    pure (.error message)

theorem awaitEvent_toVec (e : AwaitEvent) (xs : Bytes) :
    awaitEvent (e.toVec ++ xs) = some (e, xs) := by
  unfold AwaitEvent.toVec object decimalU64
  cases e with
  | waiting etaSeconds =>
    simp only [List.map_cons, List.map_nil, List.intercalate_cons_cons, List.intercalate_singleton,
      List.append_assoc, List.cons_append, List.nil_append]
    refine step (byte_cons _ _) (step (key_append _ _) (step (string_quote _ _) ?_))
    refine step (byte_cons _ _) (step (key_append _ _) (step (natural_brace _ _) ?_))
    refine step (byte_cons _ _) ?_
    rw [UInt64.ofNat_toNat]
    rfl
  | posted commentUrl =>
    simp only [List.map_cons, List.map_nil, List.intercalate_cons_cons, List.intercalate_singleton,
      List.append_assoc, List.cons_append, List.nil_append]
    refine step (byte_cons _ _) (step (key_append _ _) (step (string_quote _ _) ?_))
    refine step (byte_cons _ _) (step (key_append _ _) (step (string_quote _ _) ?_))
    exact step (byte_cons _ _) rfl
  | error message =>
    simp only [List.map_cons, List.map_nil, List.intercalate_cons_cons, List.intercalate_singleton,
      List.append_assoc, List.cons_append, List.nil_append]
    refine step (byte_cons _ _) (step (key_append _ _) (step (string_quote _ _) ?_))
    refine step (byte_cons _ _) (step (key_append _ _) (step (string_quote _ _) ?_))
    exact step (byte_cons _ _) rfl

end Codec

/-- Deserializers that accept the form the daemon writes; one-shot replies are not recognized. -/
def awaitJson : AwaitJson where
  event xs := Codec.whole Codec.awaitEvent (Codec.stripNl xs)
  response _ := none
  event_line e := by
    rw [Codec.stripNl_concat, Codec.stripNl_of_not_mem e.nl_not_mem_toVec]
    exact Codec.whole_of (Codec.awaitEvent_toVec e [])

/-- A comment that is posted after one waiting frame; the stream arrives byte by byte. -/
theorem await_stream_agrees_sample :
    ∃ stream : List Bytes, (∀ chunk ∈ stream, chunk.length = 1) ∧
      (receive awaitJson none stream).stdout = terminalSafe "url" ++ "\n" := by
  let last : AwaitTurn := .lookup (.ok (.posted (some "url") 1000))
  let frames := awaitEntry none ([(900, ⟨0, "i"⟩)].map AwaitTurn.pending ++ [last])
  let stream := (AwaitEvent.wire frames).map fun b => [b]
  have hstream : stream.flatten = AwaitEvent.wire frames :=
    (List.flatMap_def ..).symm.trans (List.flatMap_singleton' _)
  refine ⟨stream, ?_, ?_⟩
  · intro chunk hchunk
    obtain ⟨b, -, rfl⟩ := List.mem_map.1 hchunk
    rfl
  · obtain ⟨event, -, -, hends, hposted⟩ :=
      await_stream_agrees awaitJson [(900, ⟨0, "i"⟩)] (show last.Terminal from trivial) hstream
    have hfits : (AwaitEvent.posted "url").Fits := by decide +kernel
    have hevent := hposted "url" 1000 rfl
    rw [if_pos hfits] at hevent
    rcases hends with ⟨commentUrl, heq, -, hout, -⟩ | ⟨message, heq, -⟩
    · rw [hevent] at heq
      rw [hout, AwaitEvent.posted.inj heq]
    · rw [hevent] at heq
      cases heq

end Comenq
