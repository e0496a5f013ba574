import Comenq.Lib.JsonText
import Comenq.Lib.Saturating

/-!
# Records, limits and errors of the queue store

The persisted records (`StoredEntry`, `HistoryRecord`, `CompletionRecord`, `AwaitDeletionRecord`),
the durable limits, and the errors of store operations. Times, flutter and pull request numbers
are `UInt64`, order keys `Int64`; file sizes, offsets and counts are natural numbers.
-/

namespace Comenq

open JsonText

/-- The comment to post. -/
structure CommentRequest where
  owner : String
  repo : String
  prNumber : UInt64
  body : String
deriving DecidableEq, Repr

/-- A queued comment with its scheduling metadata. -/
structure StoredEntry where
  id : String
  /-- Unique lifetime of the entry; empty in records written before the field existed. -/
  incarnation : String
  /-- Explicit queue position; lower posts first. -/
  order : Int64
  flutterSeconds : UInt64
  enqueuedAt : UInt64
  /-- Earliest Unix time the entry may post. -/
  notBefore : UInt64
  /-- Claim token while a worker is posting the entry. -/
  claimToken : Option String
  request : CommentRequest
deriving DecidableEq, Repr

/-- One posting attempt, as recorded in the history log. -/
structure HistoryRecord where
  /-- Stable identifier used to make completion recovery idempotent. -/
  attemptId : String
  id : String
  postedAt : UInt64
  success : Bool
  error : Option String
  tokenHash : String
  commentUrl : Option String
  incarnation : String
  request : CommentRequest
deriving DecidableEq, Repr

/-- A post that must be reflected in the queue before another entry is sent. -/
structure CompletionRecord where
  id : String
  postedAt : UInt64
  claimToken : Option String
  history : Option HistoryRecord
  historyOffset : Option Nat
deriving DecidableEq, Repr

/-- Incarnation hidden by the latest successful deletion of an entry. -/
structure AwaitDeletionRecord where
  incarnation : String
deriving DecidableEq, Repr

/-- Scheduling inputs of `put`. -/
structure PutOptions where
  cooldown : UInt64
  flutterSeconds : UInt64
  /-- Post as soon as the queue allows instead of waiting a full cooldown from enqueue. -/
  immediate : Bool
deriving DecidableEq, Repr

/-! ## Limits -/

/-- Maximum entries retained by the durable queue. -/
def maxQueueEntries : Nat := 1024

/-- Maximum size of one serialized queue-entry file. -/
def maxEntryBytes : Nat := 2 * 1024 * 1024

/-- Maximum aggregate budget for entry files and their remaining update headroom. -/
def maxQueueBytes : Nat := 32 * 1024 * 1024

/-- Space reserved per entry for durable claim and ordering updates. -/
def entryMutationHeadroomBytes : Nat := 80

/-- Bound on one history line, delimiter included. -/
def maxHistoryLineBytes : Nat := 2 * 1024 * 1024

/-! ## Errors -/

inductive IoErrorKind
  | notFound
  | invalidData
  | invalidInput
  | unexpectedEof
deriving DecidableEq, Repr

/-- Why a decimal number could not be read. -/
inductive ParseIntError
  | empty
  | invalidDigit
  | posOverflow
deriving DecidableEq, Repr

/-- Errors raised by queue store operations. -/
inductive StoreError
  | io (kind : IoErrorKind)
  | serde
  | unknownId (id : String)
  | invalidId (id : String)
  | lastPost (error : ParseIntError)
  | lastAttempt (error : ParseIntError)
  | queueFull (limit : Nat)
  | entryTooLarge (size limit : Nat)
  | queueByteBudgetExceeded (used requested limit : Nat)
deriving DecidableEq, Repr

/-- The three errors that report exhausted durable capacity. -/
def StoreError.isCapacity : StoreError → Bool
  | queueFull _ | entryTooLarge .. | queueByteBudgetExceeded .. => true
  | _ => false

/-! ## Identifiers -/

def isUuidChar (c : Char) : Bool := c.isDigit || ('a' ≤ c && c ≤ 'f') || c == '-'

/-- The text of a freshly drawn UUID. -/
structure Uuid where
  text : String
  length_eq : text.toList.length = 36
  chars : ∀ c ∈ text.toList, isUuidChar c = true

def isAsciiHexdigit (c : Char) : Bool :=
  c.isDigit || ('a' ≤ c && c ≤ 'f') || ('A' ≤ c && c ≤ 'F')

/-- Whether an identifier is safe as a queue-entry filename. -/
def isValidId (id : String) : Bool := id.toList.length == 8 && id.toList.all isAsciiHexdigit

/-! ## Persisted timestamps -/

/-- The Unicode `White_Space` characters. -/
def isWhitespace (c : Char) : Bool :=
  (9 ≤ c.toNat && c.toNat ≤ 13) || c.toNat == 32 || c.toNat == 0x85 || c.toNat == 0xA0 ||
    c.toNat == 0x1680 || (0x2000 ≤ c.toNat && c.toNat ≤ 0x200A) || c.toNat == 0x2028 ||
    c.toNat == 0x2029 || c.toNat == 0x202F || c.toNat == 0x205F || c.toNat == 0x3000

def trim (cs : List Char) : List Char :=
  ((cs.dropWhile isWhitespace).reverse.dropWhile isWhitespace).reverse

def parseDigits (acc : Nat) : List Char → Except ParseIntError Nat
  | [] => .ok acc
  | c :: cs =>
    if c.isDigit then
      let next := 10 * acc + (c.toNat - '0'.toNat)
      if next > Saturating.maxU64 then .error .posOverflow else parseDigits next cs
    else .error .invalidDigit

/-- Read a 64-bit unsigned decimal number; a leading plus sign is allowed. -/
def parseU64 : List Char → Except ParseIntError UInt64
  | [] => .error .empty
  | ['+'] => .error .invalidDigit
  | '+' :: cs => (parseDigits 0 cs).map UInt64.ofNat
  | cs => (parseDigits 0 cs).map UInt64.ofNat

end Comenq
