import Comenq.Daemon.ProtocolCodec
import Comenq.Store.HistoryPages

/-!
# Requests and replies

The replies of `listener/protocol.rs`: the list of pending entries is sent as a whole or not at all,
and a page of the log is cut further so that the encoded reply stays within the response limit. The
cursor that continues a page is the position behind the last record that was kept. `handleClient` is
the one-shot part of `listener/connection.rs`.
-/

namespace Comenq

open JsonText

/-! ## Limits -/

/-- Maximum JSON response size accepted by the client and emitted by the daemon. -/
def maxResponseBytes : Nat := 2 * 1024 * 1024

/-- Maximum JSON request size emitted by the client and accepted by the daemon. -/
def maxRequestBytes : Nat := 1024 * 1024

/-- Maximum number of pending entries retained and returned by `list`. -/
def maxPendingEntries : Nat := 1024

/-- Records of one page of the log. -/
def historyReadPageSize : Nat := 64

/-! ## List replies -/

/-- Adapt stored data to the wire shape only at the transport boundary. -/
def pendingEntry (entry : StoredEntry) (etaSeconds : UInt64) : PendingEntry where
  id := entry.id
  etaSeconds := etaSeconds
  owner := entry.request.owner
  repo := entry.request.repo
  prNumber := entry.request.prNumber
  body := entry.request.body

/-- One turn of the loop over a schedule: the entries encoded so far and the size of the reply they
make, or the reply the loop returns early. -/
def pushPending (soFar : List PendingEntry × Nat) (planned : StoredEntry × UInt64) :
    Except Response (List PendingEntry × Nat) :=
  let (entries, projectedSize) := soFar
  let pending := pendingEntry planned.1 planned.2
  let separatorSize := if entries.isEmpty then 0 else 1
  let nextSize := Saturating.addNat (Saturating.addNat projectedSize pending.toVec.length)
    separatorSize
  if nextSize > maxResponseBytes then .error (.error "list response exceeds the 2097152-byte limit")
  else .ok (entries ++ [pending], nextSize)

/-- Build the ordered client response unless its serialized form exceeds the protocol limit. -/
def responseForSchedule (schedule : List (StoredEntry × UInt64)) : Response :=
  match (schedule.take maxPendingEntries).foldlM pushPending
      ([], (Response.ofEntries []).toVec.length) with
  | .ok (entries, _) => .ofEntries entries
  | .error response => response

/-! ## History replies -/

def historyEntry (record : HistoryRecord) : HistoryEntry where
  id := record.id
  postedAt := record.postedAt
  success := record.success
  error := record.error
  tokenHash := record.tokenHash
  owner := record.request.owner
  repo := record.request.repo
  prNumber := record.request.prNumber
  body := record.request.body

def HistoryPosition.cursor (p : HistoryPosition) : HistoryCursor := ⟨p.offset, p.endOffset⟩

def historyResponseSize (encodedEntriesSize : Nat) (nextCursor : Option HistoryCursor) : Nat :=
  (Response.ofHistory [] nextCursor).toVec.length + encodedEntriesSize

/-- The loop over a page's records: what was kept so far, its encoded size, and the cursor behind
it. -/
def keepRecords (next : Option HistoryPosition) :
    List HistoryRecordAt → List HistoryEntry → Nat → Option HistoryCursor → Response
  | [], entries, _, nextCursor =>
    match next with
    | some position =>
      .ofHistory entries (if entries.isEmpty then some position.cursor else nextCursor)
    | none => .ofHistory entries nextCursor
  | item :: rest, entries, encodedEntriesSize, nextCursor =>
    let entry := historyEntry item.record
    let hasMore := !rest.isEmpty || next.isSome
    let candidateCursor := if hasMore then some item.positionAfter.cursor else none
    let size := encodedEntriesSize + entry.toVec.length + (if entries.isEmpty then 0 else 1)
    if historyResponseSize size candidateCursor > maxResponseBytes then
      if entries.isEmpty then
        .error "one history record exceeds the 2097152-byte response limit"
      else .ofHistory entries nextCursor
    else keepRecords next rest (entries ++ [entry]) size candidateCursor

/-- Build a chronologically ordered history page within the shared wire limit. -/
def responseForHistory (page : HistoryPage) : Response :=
  keepRecords page.next page.records [] 0 none

/-! ## Connections -/

section Connections

variable (J : SerdeJson) (W : WireJson)

/-- Answer a history request from the log; `describe` is the text of a store error. -/
def dispatchHist (describe : StoreError → String) (history : Option Bytes) (fill : Nat → Nat)
    (limit : Option Nat) (cursor : Option HistoryCursor) : Response :=
  match readPage J history fill (cursor.map fun c => ⟨c.offset, c.endOffset⟩) limit
      historyReadPageSize with
  | .ok page => responseForHistory page
  | .error err => .error (describe err)

/-- Read one request and reply. A request over the limit is dropped without a reply. -/
def handleClient (dispatch : Request → Response) (buffer : Bytes) : Bytes :=
  if buffer.length > maxRequestBytes then []
  else
    let response := match W.request buffer with
      | some request => dispatch request
      | none => .error ("invalid request: " ++ W.complaint buffer)
    if response.toVec.length > maxResponseBytes then
      (Response.error "response exceeds 2097152 bytes").toVec
    else response.toVec

end Connections

end Comenq
