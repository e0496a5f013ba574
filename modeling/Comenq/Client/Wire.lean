import Comenq.Daemon.Protocol

/-!
# The client's exchanges with the daemon

The model of `transact` and `run_history_pages` in `client.rs`. A request and its reply travel as
JSON text within the two size limits. The history pages are fetched one by one with the cursor of
the page before; the log may grow between two requests, so `ask k` is the exchange the `k`-th
request makes. Rendering always goes on (nobody closes the output).
-/

namespace Comenq

/-- What a client reports; errors of sockets, files and timeouts are left out. -/
inductive ClientError
  | serialize
  | requestTooLarge (size limit : Nat)
  | replyTooLarge
  | connectionLost
  | awaitRejected (message : String)
  | noInitialReply
  | daemon (message : String)
  | unexpectedResponse
deriving DecidableEq, Repr

/-- Send a request and parse its bounded reply; `serve` is the daemon's side of the connection. -/
def transact (W : WireJson) (serve : Bytes → Bytes) (request : Request) :
    Except ClientError Response :=
  if request.toVec.length > maxRequestBytes then
    .error (.requestTooLarge request.toVec.length maxRequestBytes)
  else if (serve request.toVec).length > maxResponseBytes then .error .replyTooLarge
  else
    match W.response (serve request.toVec) with
    | some response => .ok response
    | none => .error .serialize

/-! ## History pages -/

/-- What a client has done over some requests: the pages it rendered, the requests it sent, and how
it ended, unless it would go on. -/
structure HistoryRun where
  pages : List (List HistoryEntry)
  requests : List Request
  result : Option (Except ClientError Unit)

/-- The run with one more exchange in front. -/
def HistoryRun.after (request : Request) (rendered : List (List HistoryEntry)) (run : HistoryRun) :
    HistoryRun :=
  ⟨rendered ++ run.pages, request :: run.requests, run.result⟩

/-- Fetch and render pages until one comes without a cursor, with at most as many requests as there
is fuel; `k` requests were made before, `cursor` is that of the last page. -/
def runHistoryPages (ask : Nat → Request → Except ClientError Response) (limit : Option Nat) :
    Nat → Nat → Option HistoryCursor → Bool → HistoryRun
  | 0, _, _, _ => ⟨[], [], none⟩
  | fuel + 1, k, cursor, foundRecords =>
    let request := Request.hist (if cursor.isNone then limit else none) cursor
    match ask k request with
    | .error err => ⟨[], [request], some (.error err)⟩
    | .ok (.error message) => ⟨[], [request], some (.error (.daemon message))⟩
    | .ok (.ok none none (some history) nextCursor) =>
      let rendered := if history.isEmpty then [] else [history]
      if cursor.isSome && nextCursor == cursor then
        ⟨rendered, [request], some (.error .unexpectedResponse)⟩
      else
        let found := foundRecords || !history.isEmpty
        HistoryRun.after request rendered <|
          match nextCursor with
          | some next => runHistoryPages ask limit fuel (k + 1) (some next) found
          | none => ⟨if found then [] else [[]], [], some (.ok ())⟩
    | .ok (.ok ..) => ⟨[], [request], some (.error .unexpectedResponse)⟩

section Pages

variable {ask : Nat → Request → Except ClientError Response} {k : Nat}
    {cursor : Option HistoryCursor}
  {history : List HistoryEntry}

/-- The last page. -/
theorem runHistoryPages_last (fuel : Nat) (foundRecords : Bool)
    (h : ask k (.hist none cursor) = .ok (.ok none none (some history) none)) :
    runHistoryPages ask none (fuel + 1) k cursor foundRecords =
      HistoryRun.after (.hist none cursor) (if history.isEmpty then [] else [history])
        ⟨if foundRecords || !history.isEmpty then [] else [[]], [], some (.ok ())⟩ := by
  have hmoved : (cursor.isSome && (none : Option HistoryCursor) == cursor) = false := by
    cases cursor <;> rfl
  rw [runHistoryPages, ite_self]
  simp only [h, hmoved, Bool.false_eq_true, if_false]

/-- A page with a cursor that moves on. -/
theorem runHistoryPages_next (fuel : Nat) (foundRecords : Bool) {next : HistoryCursor}
    (h : ask k (.hist none cursor) = .ok (.ok none none (some history) (some next)))
    (hmoved : cursor ≠ some next) :
    runHistoryPages ask none (fuel + 1) k cursor foundRecords =
      HistoryRun.after (.hist none cursor) (if history.isEmpty then [] else [history])
        (runHistoryPages ask none fuel (k + 1) (some next) (foundRecords || !history.isEmpty)) := by
  have hmoved : (cursor.isSome && some next == cursor) = false := by
    rw [Bool.and_eq_false_imp]
    intro _
    exact beq_eq_false_iff_ne.2 hmoved.symm
  rw [runHistoryPages, ite_self]
  simp only [h, hmoved, Bool.false_eq_true, if_false]

end Pages

end Comenq
