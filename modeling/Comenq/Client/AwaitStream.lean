import Comenq.Client.Output
import Comenq.Daemon.AwaitHandler
import Comenq.Lib.LineReader

/-!
# Receiving an await stream

The model of `client/await_stream.rs`. The client reads one capped line at a time, decodes it as an
event and goes on until a terminal one; its countdown exists from the first waiting frame on. What
the countdown writes to standard error depends on the clock: `countdownLines` is given when the
reports are made.
-/

namespace Comenq

open JsonText LineReader

/-- The deserializers the client calls: an event from a line, a reply from a whole stream. A decoded
line gives the event it was written for. -/
structure AwaitJson where
  event : Bytes → Option AwaitEvent
  response : Bytes → Option Response
  event_line : ∀ e : AwaitEvent, event (e.toVec ++ [nl]) = some e

/-! ## Frames -/

/-- One read outcome: a decoded frame, or the bytes of a stream that ended before one. -/
inductive FrameOutcome
  | frame (event : AwaitEvent)
  | ended (bytes : Bytes)

section Receive

variable (R : AwaitJson)

/-- Read and validate one capped newline-delimited await event. -/
def readFrame (stream : List Bytes) : Except ClientError FrameOutcome × List Bytes :=
  let read := readUntil nl (maxAwaitFrameBytes + 1) stream
  (if read.1.length > maxAwaitFrameBytes then .error .replyTooLarge
    else if read.1.getLast? ≠ some nl then .ok (.ended read.1)
    else match R.event read.1 with
      | some event => .ok (.frame event)
      | none => .error .unexpectedResponse, read.2)

/-- Classify a stream that ended before its first await frame. -/
def classifyInitialEnd (bytes : Bytes) : ClientError :=
  match R.response bytes with
  | some (.error message) => .awaitRejected message
  | some (.ok ..) => .unexpectedResponse
  | none => .noInitialReply

/-- What a client has done when `receive` returns: the events it decoded, what it wrote to standard
output, and the result. -/
structure Received where
  events : List AwaitEvent
  stdout : String
  result : Except ClientError Unit

theorem readFrame_shorter {stream left : List Bytes} {event : AwaitEvent}
    (h : readFrame R stream = (.ok (.frame event), left)) :
    left.flatten.length < stream.flatten.length := by
  have happend := @readUntil_append UInt8 _ nl (maxAwaitFrameBytes + 1) stream
  obtain ⟨hframe, rfl⟩ := Prod.mk.inj h
  have hne : (readUntil nl (maxAwaitFrameBytes + 1) stream).1 ≠ [] := by
    intro hnil
    rw [hnil] at hframe
    cases hframe
  have hpos := List.length_pos_of_ne_nil hne
  have hlength := congrArg List.length happend
  rw [List.length_append] at hlength
  omega

/-- Consume stream frames until a comment URL arrives or the daemon reports an error. The countdown
holds the latest estimate. -/
def receive (countdown : Option UInt64) (stream : List Bytes) : Received :=
  match _h : readFrame R stream with
  | (.error err, _) => ⟨[], "", .error err⟩
  | (.ok (.ended bytes), _) =>
    if countdown.isNone then ⟨[], "", .error (classifyInitialEnd R bytes)⟩
    else ⟨[], "", .error .connectionLost⟩
  | (.ok (.frame event), left) =>
    match event with
    | .posted commentUrl => ⟨[event], terminalSafe commentUrl ++ "\n", .ok ()⟩
    | .error message => ⟨[event], "", .error (.daemon message)⟩
    | .waiting etaSeconds =>
      let later := receive (some etaSeconds) left
      { later with events := event :: later.events }
termination_by stream.flatten.length
decreasing_by exact readFrame_shorter R _h

variable {R}

/-- What `receive` makes of a frame. -/
theorem receive_frame {stream left : List Bytes} {event : AwaitEvent}
    (h : readFrame R stream = (.ok (.frame event), left)) (countdown : Option UInt64) :
    receive R countdown stream = match event with
      | .posted commentUrl => ⟨[event], terminalSafe commentUrl ++ "\n", .ok ()⟩
      | .error message => ⟨[event], "", .error (.daemon message)⟩
      | .waiting etaSeconds =>
        { receive R (some etaSeconds) left with
          events := event :: (receive R (some etaSeconds) left).events } := by
  rw [receive]
  split
  · next hread =>
    rw [h] at hread
    cases hread
  · next hread =>
    rw [h] at hread
    cases hread
  · next hread =>
    rw [h] at hread
    obtain ⟨hevent, rfl⟩ := Prod.mk.inj hread
    obtain rfl := FrameOutcome.frame.inj (Except.ok.inj hevent)
    cases event <;> rfl

end Receive

/-! ## The countdown -/

/-- The reports made after some elapsed seconds, once there is an estimate to count down from. -/
def reportLines (elapsed : List UInt64) : Option UInt64 → List String
  | none => []
  | some eta => elapsed.map fun seconds => renderRemaining (Saturating.sub eta seconds)

/-- What the countdown writes to standard error while `events` arrive. `ticks k` are the seconds
after which it reports before the `k`-th frame; the first waiting frame is reported at once,
`started` seconds after its arrival. -/
def countdownLines (started : UInt64) (ticks : Nat → List UInt64) :
    Nat → Option UInt64 → List AwaitEvent → List String
  | k, countdown, [] => reportLines (ticks k) countdown
  | k, countdown, .waiting eta :: rest =>
    reportLines (ticks k) countdown ++
      (if countdown.isNone then reportLines [started] (some eta) else []) ++
      countdownLines started ticks (k + 1) (some eta) rest
  | k, countdown, _ :: _ => reportLines (ticks k) countdown

end Comenq
