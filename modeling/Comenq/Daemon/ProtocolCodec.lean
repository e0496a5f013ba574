import Comenq.Daemon.Messages
import Comenq.Store.Codec

/-!
# Reading the messages

A `WireJson` is any reader that inverts the writers of the messages; `wireJson` is one, made up of
readers for the requests and replies. Members the writers leave out are optional. As for the
persisted records, the laws ask nothing of a reader for positions beyond 64 bits.
-/

namespace Comenq

open JsonText JsonText.Reader

namespace Codec

/-! ## Pieces -/

/-- A member that has to be there, behind others. -/
def field {α : Type} (k : String) (p : Reader α) : Reader α := do byte 44; key k; p

theorem field_further {α : Type} {p : Reader α} {a : α} {k : String} {v : Bytes} {ms : Members}
    {xs : Bytes} (hp : p (v ++ (further ms ++ 125 :: xs)) = some (a, further ms ++ 125 :: xs)) :
    field k p (further ((k, v) :: ms) ++ 125 :: xs) = some (a, further ms ++ 125 :: xs) := by
  rw [further_cons]
  simp only [List.cons_append, List.append_assoc]
  exact step (byte_cons _ _) (step (key_append _ _) hp)

theorem string_further {s : String} {ms : Members} {xs : Bytes} :
    string (quote s ++ (further ms ++ 125 :: xs)) = some (s, further ms ++ 125 :: xs) :=
  string_quote s _

/-- A number of 64 bits. -/
def u64 : Reader UInt64 := do
  let n ← natural
  pure (UInt64.ofNat n)

theorem u64_further {n : UInt64} {ms : Members} {xs : Bytes} :
    u64 (decimalU64 n ++ (further ms ++ 125 :: xs)) = some (n, further ms ++ 125 :: xs) := by
  refine step (natural_decimalNat n.toNat (ends_further ms xs)) ?_
  rw [UInt64.ofNat_toNat]
  rfl

/-- A member that may be missing. -/
def field? {α : Type} (k : String) (p : Reader α) : Reader (Option α) :=
  optional (44 :: (quote k ++ [58])) p

theorem keys_member {k k' : String} {v : Option Bytes} (h : k ≠ k') :
    ∀ m ∈ member k v, m.1 ≠ k' := by
  intro m hm
  obtain ⟨w, -, rfl⟩ := Option.map_eq_some_iff.1 (Option.mem_toList.1 hm)
  exact h

/-! ## Parts -/

def cursor : Reader HistoryCursor := do
  byte 123; key "offset"; let offset ← natural
  let endOffset ← field "end_offset" natural
  byte 125
  pure ⟨offset, endOffset⟩

theorem cursor_toVec (c : HistoryCursor) (xs : Bytes) : cursor (c.toVec ++ xs) = some (c, xs) := by
  unfold HistoryCursor.toVec
  rw [object_cons]
  simp only [List.cons_append, List.append_assoc]
  refine step (byte_cons _ _) (step (key_append _ _) ?_)
  refine step (natural_decimalNat _ (ends_further _ _)) ?_
  refine step (field_further (natural_decimalNat _ (ends_further [] _))) ?_
  exact step (byte_cons _ _) rfl

/-- A cursor as the last member, if there is one. -/
theorem cursor_member (k : String) (c : Option HistoryCursor) (xs : Bytes) :
    field? k cursor (further (member k (c.map HistoryCursor.toVec)) ++ 125 :: xs) =
      some (c, 125 :: xs) := by
  rw [← List.append_nil (member k (c.map HistoryCursor.toVec))]
  exact optional_member c nofun fun c => cursor_toVec c _

def pendingEntry : Reader PendingEntry := do
  byte 123; key "id"; let id ← string
  let etaSeconds ← field "eta_seconds" u64
  let owner ← field "owner" string
  let repo ← field "repo" string
  let prNumber ← field "pr_number" u64
  let body ← field "body" string
  byte 125
  pure ⟨id, etaSeconds, owner, repo, prNumber, body⟩

theorem pendingEntry_toVec (e : PendingEntry) (xs : Bytes) :
    pendingEntry (e.toVec ++ xs) = some (e, xs) := by
  unfold PendingEntry.toVec
  rw [object_cons]
  simp only [List.cons_append, List.append_assoc]
  refine step (byte_cons _ _) (step (key_append _ _) (step string_further ?_))
  refine step (field_further u64_further) (step (field_further string_further) ?_)
  refine step (field_further string_further) (step (field_further u64_further) ?_)
  exact step (field_further string_further) (step (byte_cons _ _) rfl)

def historyEntry : Reader HistoryEntry := do
  byte 123; key "id"; let id ← string
  let postedAt ← field "posted_at" u64
  let success ← field "success" boolean
  let error ← field? "error" string
  let tokenHash ← field "token_hash" string
  let owner ← field "owner" string
  let repo ← field "repo" string
  let prNumber ← field "pr_number" u64
  let body ← field "body" string
  byte 125
  pure ⟨id, postedAt, success, error, tokenHash, owner, repo, prNumber, body⟩

theorem historyEntry_toVec (e : HistoryEntry) (xs : Bytes) :
    historyEntry (e.toVec ++ xs) = some (e, xs) := by
  unfold HistoryEntry.toVec
  simp only [List.cons_append, List.nil_append]
  rw [object_cons]
  simp only [List.cons_append, List.append_assoc]
  refine step (byte_cons _ _) (step (key_append _ _) (step string_further ?_))
  refine step (field_further u64_further) (step (field_further (boolean_bool _ _)) ?_)
  refine step (optional_member e.error (by simp) fun _ => string_further) ?_
  refine step (field_further string_further) (step (field_further string_further) ?_)
  refine step (field_further string_further) (step (field_further u64_further) ?_)
  exact step (field_further string_further) (step (byte_cons _ _) rfl)

/-! ## Replies -/

def response : Reader Response := do
  byte 123; key "outcome"; let outcome ← string
  if outcome = "ok" then
    let entry ← field? "entry" pendingEntry
    let entries ← field? "entries" (arrayOf pendingEntry)
    let history ← field? "history" (arrayOf historyEntry)
    let nextCursor ← field? "next_cursor" cursor
    byte 125
    pure (.ok entry entries history nextCursor)
  else
    let message ← field "message" string
    byte 125
    pure (.error message)

theorem response_toVec (r : Response) (xs : Bytes) : response (r.toVec ++ xs) = some (r, xs) := by
  cases r with
  | ok entry entries history nextCursor =>
    rw [Response.toVec]
    simp only [List.cons_append, List.nil_append, List.append_assoc]
    rw [object_cons]
    simp only [List.cons_append, List.append_assoc]
    refine step (byte_cons _ _) (step (key_append _ _) (step string_further ?_))
    refine step (optional_member entry ?_ fun e => pendingEntry_toVec e _) ?_
    · exact List.forall_mem_append.2 ⟨keys_member (by decide),
        List.forall_mem_append.2 ⟨keys_member (by decide), keys_member (by decide)⟩⟩
    refine step (optional_member entries ?_
      fun es => arrayOf_array pendingEntry_toVec (fun _ => rfl) es _) ?_
    · exact List.forall_mem_append.2 ⟨keys_member (by decide), keys_member (by decide)⟩
    refine step (optional_member history (keys_member (by decide))
      fun es => arrayOf_array historyEntry_toVec (fun _ => rfl) es _) ?_
    exact step (cursor_member "next_cursor" nextCursor xs) (step (byte_cons _ _) rfl)
  | error message =>
    rw [Response.toVec, object_cons]
    simp only [List.cons_append, List.append_assoc]
    refine step (byte_cons _ _) (step (key_append _ _) (step string_further ?_))
    exact step (field_further string_further) (step (byte_cons _ _) rfl)

/-! ## Requests -/

/-- The rest of a request that names an entry. -/
def named (f : String → Request) : Reader Request := do
  let id ← field "id" string
  byte 125
  pure (f id)

def putRest : Reader Request := do
  let request ← field "request" request
  let immediate ← field "immediate" boolean
  byte 125
  pure (.put request immediate)

def histRest : Reader Request := do
  let limit ← field "limit" (nullable natural)
  let cursor ← field? "cursor" cursor
  byte 125
  pure (.hist limit cursor)

/-- The rest of a request behind its operation. -/
def messageRest (op : String) : Reader Request :=
  if op = "put" then putRest
  else if op = "list" then do byte 125; pure .list
  else if op = "bump" then named .bump
  else if op = "bust" then named .bust
  else if op = "del" then named .del
  else if op = "await" then named .await
  else histRest

def message : Reader Request := do
  byte 123; key "op"; let op ← string
  messageRest op

theorem message_object {op : String} {ms : Members} {xs : Bytes} {r : Request}
    (h : messageRest op (further ms ++ 125 :: xs) = some (r, xs)) :
    message (object (("op", quote op) :: ms) ++ xs) = some (r, xs) := by
  rw [object_cons]
  simp only [List.cons_append, List.append_assoc]
  exact step (byte_cons _ _) (step (key_append _ _) (step string_further h))

theorem named_text (f : String → Request) (id : String) (xs : Bytes) :
    named f (further [("id", quote id)] ++ 125 :: xs) = some (f id, xs) :=
  step (field_further string_further) (step (byte_cons _ _) rfl)

theorem nullable_further (n : Option Nat) (ms : Members) (xs : Bytes) :
    nullable natural (orNull (n.map decimalNat) ++ (further ms ++ 125 :: xs)) =
      some (n, further ms ++ 125 :: xs) := by
  cases n with
  | none => exact nullable_none natural _
  | some n =>
    obtain ⟨b, ys, hb, hdig⟩ := decimalNat_cons n
    refine nullable_some (natural_decimalNat n (ends_further ms xs)) ?_
      (by rw [hb]; exact List.cons_ne_nil b ys)
    rw [hb]
    intro h
    rw [Option.some.inj h] at hdig
    exact absurd hdig (by decide)

theorem message_toVec (r : Request) (xs : Bytes) : message (r.toVec ++ xs) = some (r, xs) := by
  cases r with
  | put request immediate =>
    apply message_object
    refine step (field_further (request_object _ _)) (step (field_further (boolean_bool _ _)) ?_)
    exact step (byte_cons _ _) rfl
  | list => exact message_object (step (byte_cons _ _) rfl)
  | bump id => exact message_object (named_text _ id xs)
  | bust id => exact message_object (named_text _ id xs)
  | del id => exact message_object (named_text _ id xs)
  | await id => exact message_object (named_text _ id xs)
  | hist limit cursor =>
    apply message_object
    refine step (field_further (nullable_further limit _ _)) ?_
    exact step (cursor_member "cursor" cursor xs) (step (byte_cons _ _) rfl)

end Codec

/-! ## Readers -/

/-- Its positions are 64-bit numbers. -/
def HistoryCursor.fits (c : HistoryCursor) : Bool := c.offset < 2 ^ 64 && c.endOffset < 2 ^ 64

def Request.fits : Request → Bool
  | .hist limit cursor => limit.all (· < 2 ^ 64) && cursor.all HistoryCursor.fits
  | _ => true

def Response.fits : Response → Bool
  | .ok _ _ _ nextCursor => nextCursor.all HistoryCursor.fits
  | .error _ => true

/-- The deserializers of both sides; a decoded message is the one that was written. `complaint` is
what the daemon's deserializer says of a request it does not accept. -/
structure WireJson where
  message : Bytes → Option Request
  complaint : Bytes → String
  reply : Bytes → Option Response
  message_toVec : ∀ r : Request, r.fits = true → message r.toVec = some r
  reply_toVec : ∀ r : Response, r.fits = true → reply r.toVec = some r

namespace WireJson

variable (W : WireJson)

/-- The reader of requests, for any positions. -/
def request : Bytes → Option Request :=
  Codec.beyond Request.fits (Codec.whole Codec.message) W.message

/-- The reader of replies, for any positions. -/
def response : Bytes → Option Response :=
  Codec.beyond Response.fits (Codec.whole Codec.response) W.reply

theorem request_toVec (r : Request) : W.request r.toVec = some r :=
  Codec.beyond_of (Codec.whole_of (Codec.message_toVec r [])) (W.message_toVec r)

theorem response_toVec (r : Response) : W.response r.toVec = some r :=
  Codec.beyond_of (Codec.whole_of (Codec.response_toVec r [])) (W.reply_toVec r)

end WireJson

/-- Readers of the messages. -/
def wireJson : WireJson where
  message := Codec.whole Codec.message
  complaint _ := "expected value"
  reply := Codec.whole Codec.response
  message_toVec r _ := Codec.whole_of (Codec.message_toVec r [])
  reply_toVec r _ := Codec.whole_of (Codec.response_toVec r [])

end Comenq
