import Comenq.Store.Encoding

/-!
# Messages

The types of `protocol.rs` with their JSON text: what the client asks of the daemon, and what the
daemon replies.
-/

namespace Comenq

open JsonText

/-- Snapshot position for continuing a paged history response. -/
structure HistoryCursor where
  offset : Nat
  endOffset : Nat
deriving DecidableEq, Repr

/-- A pending queue entry as reported by the daemon. -/
structure PendingEntry where
  id : String
  etaSeconds : UInt64
  owner : String
  repo : String
  prNumber : UInt64
  body : String
deriving DecidableEq, Repr

/-- A past posting attempt as reported by the daemon. -/
structure HistoryEntry where
  id : String
  postedAt : UInt64
  success : Bool
  error : Option String
  tokenHash : String
  owner : String
  repo : String
  prNumber : UInt64
  body : String
deriving DecidableEq, Repr

/-- Operation requested by the client. -/
inductive Request
  | put (request : CommentRequest) (immediate : Bool)
  | list
  | bump (id : String)
  | bust (id : String)
  | del (id : String)
  | await (id : String)
  | hist (limit : Option Nat) (cursor : Option HistoryCursor)
deriving DecidableEq, Repr

/-- Daemon reply to a request. -/
inductive Response
  | ok (entry : Option PendingEntry) (entries : Option (List PendingEntry))
      (history : Option (List HistoryEntry)) (nextCursor : Option HistoryCursor)
  | error (message : String)
deriving DecidableEq, Repr

/-- Successful reply for `list`. -/
def Response.ofEntries (entries : List PendingEntry) : Response := .ok none (some entries) none none

/-- Successful reply for `hist`. -/
def Response.ofHistory (history : List HistoryEntry)
    (nextCursor : Option HistoryCursor) : Response :=
  .ok none none (some history) nextCursor

/-! ## JSON text -/

/-- A member that is left out when there is no value. -/
def member (key : String) (value : Option Bytes) : Members := (value.map fun v => (key, v)).toList

def HistoryCursor.toVec (c : HistoryCursor) : Bytes :=
  object [("offset", decimalNat c.offset), ("end_offset", decimalNat c.endOffset)]

def PendingEntry.toVec (e : PendingEntry) : Bytes :=
  object [("id", quote e.id), ("eta_seconds", decimalU64 e.etaSeconds), ("owner", quote e.owner),
    ("repo", quote e.repo), ("pr_number", decimalU64 e.prNumber), ("body", quote e.body)]

def HistoryEntry.toVec (e : HistoryEntry) : Bytes :=
  object ([("id", quote e.id), ("posted_at", decimalU64 e.postedAt), ("success", bool e.success)] ++
    member "error" (e.error.map quote) ++
    [("token_hash", quote e.tokenHash), ("owner", quote e.owner), ("repo", quote e.repo),
      ("pr_number", decimalU64 e.prNumber), ("body", quote e.body)])

def Request.toVec : Request → Bytes
  | put request immediate =>
    object [("op", quote "put"), ("request", object request.members), ("immediate", bool immediate)]
  | list => object [("op", quote "list")]
  | bump id => object [("op", quote "bump"), ("id", quote id)]
  | bust id => object [("op", quote "bust"), ("id", quote id)]
  | del id => object [("op", quote "del"), ("id", quote id)]
  | await id => object [("op", quote "await"), ("id", quote id)]
  | hist limit cursor =>
    object ([("op", quote "hist"), ("limit", orNull (limit.map decimalNat))] ++
      member "cursor" (cursor.map HistoryCursor.toVec))

def Response.toVec : Response → Bytes
  | ok entry entries history nextCursor =>
    object ([("outcome", quote "ok")] ++ member "entry" (entry.map PendingEntry.toVec) ++
      member "entries" (entries.map fun es => array (es.map PendingEntry.toVec)) ++
      member "history" (history.map fun es => array (es.map HistoryEntry.toVec)) ++
      member "next_cursor" (nextCursor.map HistoryCursor.toVec))
  | error message => object [("outcome", quote "error"), ("message", quote message)]

end Comenq
