import Comenq.Client.AwaitStream

/-!
# The client's commands

The model of `run` in `client.rs` and of `main`: which requests a command sends, what it prints of
the replies, and the line that reports its failure. The daemon's side, the clock and the times at
which the countdown reports are given.
-/

namespace Comenq

/-- What a command meets: the reply to its `k`-th request, the chunks of an await stream, the time,
and when the countdown reports. -/
structure Surroundings where
  serve : Nat → Bytes → Bytes
  stream : List Bytes
  now : UInt64
  started : UInt64
  ticks : Nat → List UInt64

/-- The lines a command has printed and its result, unless it would go on. -/
structure Printed where
  stdout : List String
  stderr : List String
  result : Option (Except ClientError Unit)

/-- A result without output. -/
def Printed.failed (err : ClientError) : Printed := ⟨[], [], some (.error err)⟩

/-- The URLs printed for the events of an await stream. -/
def postedLines (events : List AwaitEvent) : List String :=
  events.filterMap fun
    | .posted commentUrl => some (terminalSafe commentUrl)
    | _ => none

section Run

variable (W : WireJson) (R : AwaitJson) (s : Surroundings)

/-- Wait for a queued comment. -/
def runAwait (id : String) : Printed :=
  let bytes := (Request.await id).toVec
  if bytes.length > maxRequestBytes then .failed (.requestTooLarge bytes.length maxRequestBytes)
  else
    let received := receive R none s.stream
    ⟨postedLines received.events, countdownLines s.started s.ticks 0 none received.events,
      some received.result⟩

/-- Print history pages, with at most `fuel` requests. -/
def runHist (fuel : Nat) (limit : Option Nat) : Printed :=
  let run := runHistoryPages (fun k => transact W (s.serve k)) limit fuel 0 none false
  ⟨run.pages.flatMap fun history => renderHistoryReply history s.now, [], run.result⟩

/-- Send one request and print its reply. -/
def runOnce (command : Command) : Printed :=
  match transact W (s.serve 0) command.toRequest with
  | .error err => .failed err
  | .ok response =>
    match renderReply command s.now response with
    | .error err => .failed err
    | .ok lines => ⟨lines, [], some (.ok ())⟩

/-- Execute the parsed command against the daemon and print the outcome. -/
def run (fuel : Nat) : Command → Printed
  | .await id => runAwait R s id
  | .hist limit => runHist W s fuel limit
  | command => runOnce W s command

end Run

/-- The line `main` prints when a command fails. -/
def errorLine (decodeError : String) : Option (Except ClientError Unit) → List String
  | some (.error err) => [err.display decodeError]
  | _ => []

/-- Everything a command and `main` write to standard error. -/
def Printed.errors (printed : Printed) (decodeError : String) : List String :=
  printed.stderr ++ errorLine decodeError printed.result

/-- The text of lines written one after another. -/
def writeLines (lines : List String) : String :=
  String.ofList (lines.flatMap fun line => line.toList ++ ['\n'])

end Comenq
