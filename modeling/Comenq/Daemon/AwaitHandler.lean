import Comenq.Store.AwaitLookup

/-!
# Answering an await connection

The model of `listener/await_handler.rs`, with the frames of `protocol.rs` and the errors of the
await use case. A handler looks its entry up again and again and sends one frame for every result: a
waiting frame while the entry is queued, after which it goes on, and a posted or error frame at the
end. A frame is one line of compact JSON; text and delimiter together stay within the frame limit.
-/

namespace Comenq

open JsonText

/-! ## Frames -/

/-- Maximum size of one await frame, including its delimiter. -/
def maxAwaitFrameBytes : Nat := 64 * 1024

/-- One JSON line in an await stream; posted and error frames are terminal. -/
inductive AwaitEvent
  | waiting (etaSeconds : UInt64)
  | posted (commentUrl : String)
  | error (message : String)
deriving DecidableEq, Repr

namespace AwaitEvent

def isWaiting : AwaitEvent → Bool
  | waiting _ => true
  | _ => false

def toVec : AwaitEvent → Bytes
  | waiting etaSeconds => object
    [("status", quote "waiting"), ("eta_seconds", decimalU64 etaSeconds)]
  | posted commentUrl => object [("status", quote "posted"), ("comment_url", quote commentUrl)]
  | error message => object [("status", quote "error"), ("message", quote message)]

/-- The check of `send_frame`: there must be room for the delimiter. -/
def Fits (event : AwaitEvent) : Prop := event.toVec.length < maxAwaitFrameBytes

instance (event : AwaitEvent) : Decidable event.Fits := by unfold Fits; infer_instance

end AwaitEvent

/-! ## Errors -/

/-- Bounded classification of store errors. -/
inductive Category
  | notFound
  | permissionDenied
  | invalidData
  | ioError
  | invalidJson
  | unknownIdentifier
  | unsafeIdentifier
  | invalidRepositoryComponent
  | invalidLastPost
  | invalidLastAttempt
  | blockingTask
  | queueFull
  | entryTooLarge
  | byteBudgetExceeded
deriving DecidableEq, Repr

def Category.label : Category → String
  | notFound => "not_found"
  | permissionDenied => "permission_denied"
  | invalidData => "invalid_data"
  | ioError => "io_error"
  | invalidJson => "invalid_json"
  | unknownIdentifier => "unknown_identifier"
  | unsafeIdentifier => "unsafe_identifier"
  | invalidRepositoryComponent => "invalid_repository_component"
  | invalidLastPost => "invalid_last_post"
  | invalidLastAttempt => "invalid_last_attempt"
  | blockingTask => "blocking_task"
  | queueFull => "queue_full"
  | entryTooLarge => "entry_too_large"
  | byteBudgetExceeded => "byte_budget_exceeded"

def StoreError.category : StoreError → Category
  | io .notFound => .notFound
  | io .invalidData => .invalidData
  | io _ => .ioError
  | serde => .invalidJson
  | unknownId _ => .unknownIdentifier
  | invalidId _ => .unsafeIdentifier
  | lastPost _ => .invalidLastPost
  | lastAttempt _ => .invalidLastAttempt
  | queueFull _ => .queueFull
  | entryTooLarge .. => .entryTooLarge
  | queueByteBudgetExceeded .. => .byteBudgetExceeded

/-- Bounded error returned by the await use case. -/
inductive AwaitError
  | invalidIdentifier
  | queueLookup (category : Category)
deriving DecidableEq, Repr

/-- How `resolve_await` reports a store error. -/
def AwaitError.ofStore : StoreError → AwaitError
  | .invalidId _ => .invalidIdentifier
  | err => .queueLookup err.category

/-- The message for the client, without any input of the caller. -/
def AwaitError.message : AwaitError → String
  | invalidIdentifier => "await identifier must contain eight hexadecimal characters"
  | queueLookup category => "await lookup failed (" ++ category.label ++ ")"

/-! ## Responses -/

/-- The terminal frame for a posted comment, or an error when its text cannot fit. -/
def sendPosted (commentUrl : String) : AwaitEvent :=
  if (AwaitEvent.posted commentUrl).Fits then .posted commentUrl
  else .error "posted comment URL exceeds the await frame limit"

/-- Whether an identifier was initially unknown or removed during the wait. -/
def missingEntry (token : Option AwaitCursor) : AwaitEvent :=
  .error (if token.isSome then "comment was removed" else "unknown comment identifier")

def shutdownEvent : AwaitEvent := .error "daemon is shutting down"

def capacityEvent : AwaitEvent := .error "too many concurrent await requests"

/-- What a handler that holds `token` sends for a lookup's result, and the token it goes on with;
without one the frame is terminal. -/
def respond (token : Option AwaitCursor) :
    Except AwaitError AwaitState → AwaitEvent × Option AwaitCursor
  | .ok (.pending etaSeconds selected) => (.waiting etaSeconds, some selected)
  | .ok (.posted (some commentUrl) _) => (sendPosted commentUrl, none)
  | .ok (.posted none _) => (.error "posted comment has no recorded URL", none)
  | .ok .unknown => (missingEntry token, none)
  | .error err => (.error err.message, none)

/-! ## A connection -/

/-- One turn of the handler's loop: a lookup's result, or the notice that the daemon shuts down. -/
inductive AwaitTurn
  | lookup (result : Except AwaitError AwaitState)
  | shutdown

/-- The frame of a turn, and the token to go on with. -/
def AwaitTurn.reply (token : Option AwaitCursor) : AwaitTurn → AwaitEvent × Option AwaitCursor
  | lookup result => respond token result
  | shutdown => (shutdownEvent, none)

/-- The frames a handler sends over the given turns; it ends with a terminal frame or when a frame
cannot be sent. -/
def awaitEntry (token : Option AwaitCursor) : List AwaitTurn → List AwaitEvent
  | [] => []
  | turn :: turns =>
    if (turn.reply token).1.Fits then
      match turn.reply token with
      | (event, none) => [event]
      | (event, some selected) => event :: awaitEntry (some selected) turns
    else []

/-- The bytes of the frames on the wire. -/
def AwaitEvent.wire (events : List AwaitEvent) : Bytes :=
  events.flatMap fun event => event.toVec ++ [nl]

theorem isWaiting_respond (token : Option AwaitCursor) (result : Except AwaitError AwaitState) :
    (respond token result).1.isWaiting = (respond token result).2.isSome := by
  unfold respond
  split
  · rfl
  · unfold sendPosted
    split <;> rfl
  · rfl
  · rfl
  · rfl

end Comenq
