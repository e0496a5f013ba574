import Mathlib.Data.List.DropRight
import Comenq.Lib.JsonReader
import Comenq.Store.Encoding

/-!
# Reading the persisted JSON

Reading JSON is left open: a `SerdeJson` is any reader that inverts the writers, ignores a trailing
line feed, and refuses an object whose text is cut off. `serdeJson` is one, made up of readers for
the four kinds of persisted record. Entry files of older releases lack `incarnation`, `not_before`
or `claim_token`; its entry reader fills in the defaults. Its history reader accepts exactly the
texts the store writes, with line feeds after them.

Offsets in the log are 64-bit numbers in the source and natural numbers here. The laws ask nothing
of a reader beyond 64 bits; what is written of larger offsets, which no file has, is read by the
readers below (`Codec.beyond`), so that results need no bound on the log.
-/

namespace Comenq

open JsonText JsonText.Reader

namespace Codec

/-! ## Pieces -/

theorem natural_comma (n : Nat) (xs : Bytes) :
    natural (decimalNat n ++ 44 :: xs) = some (n, 44 :: xs) :=
  natural_decimalNat n (ends_cons (by decide) xs)

theorem natural_brace (n : Nat) (xs : Bytes) :
    natural (decimalNat n ++ 125 :: xs) = some (n, 125 :: xs) :=
  natural_decimalNat n (ends_cons (by decide) xs)

theorem integer_comma (i : Int) (xs : Bytes) :
    integer (decimal i ++ 44 :: xs) = some (i, 44 :: xs) :=
  integer_decimal i (ends_cons (by decide) xs)

/-- A key of a compact object. -/
def key (k : String) : Reader Unit := do literal (quote k); byte 58

theorem key_append (k : String) (xs : Bytes) : key k (quote k ++ 58 :: xs) = some ((), xs) :=
  step (literal_append _ _) (byte_cons 58 xs)

/-- The start of a line of an indented object. -/
def lineStart (depth : Nat) (k : String) : Bytes :=
  nl :: (indent (depth + 1) ++ (quote k ++ [58, 32]))

/-! ## Requests -/

def request : Reader CommentRequest := do
  byte 123; key "owner"; let owner ← string
  byte 44; key "repo"; let repo ← string
  byte 44; key "pr_number"; let prNumber ← natural
  byte 44; key "body"; let body ← string
  byte 125
  pure ⟨owner, repo, UInt64.ofNat prNumber, body⟩

theorem request_object (r : CommentRequest) (xs : Bytes) :
    request (object r.members ++ xs) = some (r, xs) := by
  unfold object CommentRequest.members decimalU64
  simp only [List.map_cons, List.map_nil, List.intercalate_cons_cons, List.intercalate_singleton,
    List.append_assoc, List.cons_append, List.nil_append]
  refine step (byte_cons _ _) (step (key_append _ _) (step (string_quote _ _) ?_))
  refine step (byte_cons _ _) (step (key_append _ _) (step (string_quote _ _) ?_))
  refine step (byte_cons _ _) (step (key_append _ _) (step (natural_comma _ _) ?_))
  refine step (byte_cons _ _) (step (key_append _ _) (step (string_quote _ _) ?_))
  refine step (byte_cons _ _) ?_
  rw [UInt64.ofNat_toNat]
  rfl

def requestPretty : Reader CommentRequest := do
  byte 123; literal (lineStart 1 "owner"); let owner ← string
  byte 44; literal (lineStart 1 "repo"); let repo ← string
  byte 44; literal (lineStart 1 "pr_number"); let prNumber ← natural
  byte 44; literal (lineStart 1 "body"); let body ← string
  byte nl; literal (indent 1); byte 125
  pure ⟨owner, repo, UInt64.ofNat prNumber, body⟩

theorem lineStart_append (depth : Nat) (k : String) (xs : Bytes) :
    literal (lineStart depth k) (nl :: (indent (depth + 1) ++ (quote k ++ (58 :: 32 :: xs)))) =
      some ((), xs) := by
  have h := literal_append (lineStart depth k) xs
  simpa only [lineStart, List.cons_append, List.append_assoc, List.nil_append] using h

theorem requestPretty_object (r : CommentRequest) (xs : Bytes) :
    requestPretty (prettyObject 1 r.members ++ xs) = some (r, xs) := by
  unfold prettyObject CommentRequest.members decimalU64
  simp only [List.map_cons, List.map_nil, List.intercalate_cons_cons, List.intercalate_singleton,
    List.append_assoc, List.cons_append, List.nil_append]
  refine step (byte_cons _ _) (step (lineStart_append 1 _ _) (step (string_quote _ _) ?_))
  refine step (byte_cons _ _) (step (lineStart_append 1 _ _) (step (string_quote _ _) ?_))
  refine step (byte_cons _ _) (step (lineStart_append 1 _ _) (step (natural_comma _ _) ?_))
  refine step (byte_cons _ _) (step (lineStart_append 1 _ _) (step (string_quote _ _) ?_))
  refine step (byte_cons _ _) (step (literal_append _ _) (step (byte_cons _ _) ?_))
  rw [UInt64.ofNat_toNat]
  rfl

/-! ## Entries -/

/-- An entry from its order key on. -/
def entryRest (id incarnation : String) : Reader StoredEntry := do
  byte 44; literal (lineStart 0 "order"); let order ← integer
  byte 44; literal (lineStart 0 "flutter_seconds"); let flutterSeconds ← natural
  byte 44; literal (lineStart 0 "enqueued_at"); let enqueuedAt ← natural
  let notBefore ← optional (44 :: lineStart 0 "not_before") natural
  let claimToken ← optional (44 :: lineStart 0 "claim_token") (nullable string)
  byte 44; literal (lineStart 0 "request"); let request ← requestPretty
  byte nl; literal (indent 0); byte 125
  pure ⟨id, incarnation, Int64.ofInt order, UInt64.ofNat flutterSeconds, UInt64.ofNat enqueuedAt,
    UInt64.ofNat (notBefore.getD 0), claimToken.join, request⟩

def entry : Reader StoredEntry := do
  byte 123; literal (lineStart 0 "id"); let id ← string
  let incarnation ← optional (44 :: lineStart 0 "incarnation") string
  entryRest id (incarnation.getD "")

theorem nullable_quote (t : Option String) (xs : Bytes) :
    nullable string (orNull (t.map quote) ++ xs) = some (t, xs) := by
  cases t with
  | none => exact nullable_none string xs
  | some s =>
    refine nullable_some (string_quote s xs) ?_ ?_
    · unfold quote; simp
    · unfold quote; simp

/-- An optional member that is there. -/
theorem member_some {α : Type} {p : Reader α} {a : α} {k : String} {v xs : Bytes}
    (h : p (v ++ xs) = some (a, xs)) :
    optional (44 :: lineStart 0 k) p
      (44 :: nl :: (indent (0 + 1) ++ (quote k ++ (58 :: 32 :: (v ++ xs))))) =
      some (some a, xs) := by
  have h' := optional_some (44 :: lineStart 0 k) h
  simpa only [lineStart, List.cons_append, List.append_assoc, List.nil_append] using h'

/-- An optional member that is not there. -/
theorem member_none {α : Type} (p : Reader α) {k next : String}
    (h₁ : (44 :: lineStart 0 k).isPrefixOf (44 :: nl :: (indent (0 + 1) ++ quote next)) = false)
    (h₂ : (44 :: nl :: (indent (0 + 1) ++ quote next)).isPrefixOf (44 :: lineStart 0 k) = false)
    (xs : Bytes) :
    optional (44 :: lineStart 0 k) p (44 :: nl :: (indent (0 + 1) ++ (quote next ++ xs))) =
      some (none, 44 :: nl :: (indent (0 + 1) ++ (quote next ++ xs))) := by
  have h := optional_none (44 :: lineStart 0 k) (44 :: nl :: (indent (0 + 1) ++ quote next))
    p h₁ h₂ xs
  simpa only [List.cons_append, List.append_assoc] using h

theorem incarnation_none (xs : Bytes) :
    optional (44 :: lineStart 0 "incarnation") string
      (44 :: nl :: (indent (0 + 1) ++ (quote "order" ++ xs))) =
      some (none, 44 :: nl :: (indent (0 + 1) ++ (quote "order" ++ xs))) :=
  member_none string (by decide) (by decide) xs

theorem entryRest_text (e : StoredEntry) (xs : Bytes) :
    entryRest e.id e.incarnation (44 :: nl :: (indent (0 + 1) ++ (quote "order" ++ (58 :: 32 ::
      (decimal e.order.toInt ++ 44 :: nl ::
      (indent (0 + 1) ++ (quote "flutter_seconds" ++
      (58 :: 32 :: (decimalNat e.flutterSeconds.toNat ++ 44 :: nl ::
      (indent (0 + 1) ++ (quote "enqueued_at" ++
      (58 :: 32 :: (decimalNat e.enqueuedAt.toNat ++ 44 :: nl :: (indent (0 + 1) ++
      (quote "not_before" ++ (58 :: 32 :: (decimalNat e.notBefore.toNat ++ 44 :: nl ::
      (indent (0 + 1) ++ (quote "claim_token" ++ (58 :: 32 :: (orNull (e.claimToken.map quote) ++
      44 :: nl :: (indent (0 + 1) ++ (quote "request" ++ (58 :: 32 ::
      (prettyObject 1 e.request.members ++ nl :: (indent 0 ++ 125 :: xs)))))))))))))))))))))))))) =
      some (e, xs) := by
  refine step (byte_cons _ _) (step (lineStart_append 0 _ _) (step (integer_comma _ _) ?_))
  refine step (byte_cons _ _) (step (lineStart_append 0 _ _) (step (natural_comma _ _) ?_))
  refine step (byte_cons _ _) (step (lineStart_append 0 _ _) (step (natural_comma _ _) ?_))
  refine step (member_some (natural_comma _ _)) (step (member_some (nullable_quote _ _)) ?_)
  refine step (byte_cons _ _) (step (lineStart_append 0 _ _) (step (requestPretty_object _ _) ?_))
  refine step (byte_cons _ _) (step (literal_append _ _) (step (byte_cons _ _) ?_))
  rw [Int64.ofInt_toInt, UInt64.ofNat_toNat, UInt64.ofNat_toNat, Option.getD_some,
    UInt64.ofNat_toNat, Option.join_some]
  rfl

theorem entry_toVecPretty (e : StoredEntry) (xs : Bytes) :
    entry (e.toVecPretty ++ xs) = some (e, xs) := by
  rw [StoredEntry.toVecPretty, prettyObject, StoredEntry.members]
  unfold decimalU64
  have hrest := entryRest_text e xs
  obtain ⟨id, incarnation, order, flutterSeconds, enqueuedAt, notBefore, claimToken, request⟩ := e
  by_cases hi : incarnation = ""
  · subst hi
    simp only [if_true, List.append_nil, List.map_cons, List.map_nil, List.intercalate_cons_cons,
      List.intercalate_singleton, List.append_assoc, List.cons_append, List.nil_append]
    refine step (byte_cons _ _) (step (lineStart_append 0 _ _) (step (string_quote _ _) ?_))
    exact step (incarnation_none _) hrest
  · simp only [hi, if_false, List.map_cons, List.map_nil, List.intercalate_cons_cons,
      List.intercalate_singleton, List.append_assoc, List.cons_append, List.nil_append]
    refine step (byte_cons _ _) (step (lineStart_append 0 _ _) (step (string_quote _ _) ?_))
    exact step (member_some (string_quote _ _)) hrest

/-- An entry without a lifetime, a floor or a claim, as releases before those fields wrote it. -/
theorem entry_legacyText {e : StoredEntry} (hi : e.incarnation = "") (hb : e.notBefore = 0)
    (hc : e.claimToken = none) (xs : Bytes) : entry (e.legacyText ++ xs) = some (e, xs) := by
  obtain ⟨id, incarnation, order, flutterSeconds, enqueuedAt, notBefore, claimToken, request⟩ := e
  subst hi hb hc
  rw [StoredEntry.legacyText, prettyObject]
  unfold decimalU64
  simp only [List.map_cons, List.map_nil, List.intercalate_cons_cons, List.intercalate_singleton,
    List.append_assoc, List.cons_append, List.nil_append]
  refine step (byte_cons _ _) (step (lineStart_append 0 _ _) (step (string_quote _ _) ?_))
  refine step (incarnation_none _) ?_
  refine step (byte_cons _ _) (step (lineStart_append 0 _ _) (step (integer_comma _ _) ?_))
  refine step (byte_cons _ _) (step (lineStart_append 0 _ _) (step (natural_comma _ _) ?_))
  refine step (byte_cons _ _) (step (lineStart_append 0 _ _) (step (natural_comma _ _) ?_))
  refine step (member_none natural (by decide) (by decide) _) ?_
  refine step (member_none (nullable string) (by decide) (by decide) _) ?_
  refine step (byte_cons _ _) (step (lineStart_append 0 _ _) (step (requestPretty_object _ _) ?_))
  refine step (byte_cons _ _) (step (literal_append _ _) (step (byte_cons _ _) ?_))
  rw [Int64.ofInt_toInt, UInt64.ofNat_toNat, UInt64.ofNat_toNat]
  rfl

/-! ## Compact records -/

/-- A record from its lifetime on. -/
def recordEnd (f : String → CommentRequest → HistoryRecord) : Reader HistoryRecord := do
  byte 44; key "incarnation"; let incarnation ← string
  byte 44; key "request"; let request ← request
  byte 125
  pure (f incarnation request)

/-- A record from its token hash on. -/
def recordRest (f : String → Option String → String → CommentRequest → HistoryRecord) :
    Reader HistoryRecord := do
  byte 44; key "token_hash"; let tokenHash ← string
  let commentUrl ← optional (44 :: (quote "comment_url" ++ [58])) string
  recordEnd (f tokenHash commentUrl)

def record : Reader HistoryRecord := do
  byte 123; key "attempt_id"; let attemptId ← string
  byte 44; key "id"; let id ← string
  byte 44; key "posted_at"; let postedAt ← natural
  byte 44; key "success"; let success ← boolean
  let error ← optional (44 :: (quote "error" ++ [58])) string
  recordRest (.mk attemptId id (UInt64.ofNat postedAt) success error)

/-- An optional member of a compact object that is there. -/
theorem compact_some (k v : String) (xs : Bytes) :
    optional (44 :: (quote k ++ [58])) string (44 :: (quote k ++ 58 :: (quote v ++ xs))) =
      some (some v, xs) := by
  have h := optional_some (44 :: (quote k ++ [58])) (string_quote v xs)
  simpa only [List.cons_append, List.append_assoc, List.nil_append] using h

theorem error_none (xs : Bytes) :
    optional (44 :: (quote "error" ++ [58])) string (44 :: (quote "token_hash" ++ xs)) =
      some (none, 44 :: (quote "token_hash" ++ xs)) :=
  optional_none _ (44 :: quote "token_hash") string (by decide) (by decide) xs

theorem commentUrl_none (xs : Bytes) :
    optional (44 :: (quote "comment_url" ++ [58])) string (44 :: (quote "incarnation" ++ xs)) =
      some (none, 44 :: (quote "incarnation" ++ xs)) :=
  optional_none _ (44 :: quote "incarnation") string (by decide) (by decide) xs

theorem recordEnd_text (f : String → CommentRequest → HistoryRecord) (incarnation : String)
    (request : CommentRequest) (xs : Bytes) :
    recordEnd f (44 :: (quote "incarnation" ++ 58 :: (quote incarnation ++
      44 :: (quote "request" ++ 58 :: (object request.members ++ 125 :: xs))))) =
      some (f incarnation request, xs) := by
  refine step (byte_cons _ _) (step (key_append _ _) (step (string_quote _ _) ?_))
  refine step (byte_cons _ _) (step (key_append _ _) (step (request_object _ _) ?_))
  exact step (byte_cons _ _) rfl

theorem record_toVec (r : HistoryRecord) (xs : Bytes) : record (r.toVec ++ xs) = some (r, xs) := by
  have hstart : ∀ ys o, recordRest (.mk r.attemptId r.id r.postedAt r.success r.error) ys = o →
      ∀ zs, optional (44 :: (quote "error" ++ [58])) string zs = some (r.error, ys) →
      record (123 :: (quote "attempt_id" ++ 58 :: (quote r.attemptId ++ 44 :: (quote "id" ++ 58 ::
        (quote r.id ++ 44 :: (quote "posted_at" ++ 58 :: (decimalNat r.postedAt.toNat ++ 44 ::
        (quote "success" ++ 58 :: (bool r.success ++ zs))))))))) = o := by
    intro ys o hrest zs herror
    refine step (byte_cons _ _) (step (key_append _ _) (step (string_quote _ _) ?_))
    refine step (byte_cons _ _) (step (key_append _ _) (step (string_quote _ _) ?_))
    refine step (byte_cons _ _) (step (key_append _ _) (step (natural_comma _ _) ?_))
    refine step (byte_cons _ _) (step (key_append _ _) (step (boolean_bool _ _) ?_))
    refine step herror ?_
    rw [UInt64.ofNat_toNat]
    exact hrest
  have hmiddle : ∀ ys zs, recordEnd (.mk r.attemptId r.id r.postedAt r.success r.error r.tokenHash
        r.commentUrl) ys = some (r, xs) →
      optional (44 :: (quote "comment_url" ++ [58])) string zs = some (r.commentUrl, ys) →
      recordRest (.mk r.attemptId r.id r.postedAt r.success r.error)
        (44 :: (quote "token_hash" ++ 58 :: (quote r.tokenHash ++ zs))) = some (r, xs) := by
    intro ys zs hend hurl
    refine step (byte_cons _ _) (step (key_append _ _) (step (string_quote _ _) ?_))
    exact step hurl hend
  have hend := recordEnd_text (.mk r.attemptId r.id r.postedAt r.success r.error r.tokenHash
    r.commentUrl) r.incarnation r.request xs
  obtain ⟨attemptId, id, postedAt, success, error, tokenHash, commentUrl, incarnation, request⟩ := r
  unfold HistoryRecord.toVec decimalU64
  rw [object]
  cases error with
  | none =>
    cases commentUrl with
    | none =>
      simp only [Option.map_none, Option.toList_none, List.append_nil, List.map_cons, List.map_nil,
        List.intercalate_cons_cons, List.intercalate_singleton, List.append_assoc, List.cons_append,
        List.nil_append]
      exact hstart _ _ (hmiddle _ _ hend (commentUrl_none _)) _ (error_none _)
    | some url =>
      simp only [Option.map_none, Option.map_some, Option.toList_none, Option.toList_some,
        List.append_nil, List.map_cons, List.map_nil, List.intercalate_cons_cons,
        List.intercalate_singleton, List.append_assoc, List.cons_append, List.nil_append]
      exact hstart _ _ (hmiddle _ _ hend (compact_some _ _ _)) _ (error_none _)
  | some err =>
    cases commentUrl with
    | none =>
      simp only [Option.map_none, Option.map_some, Option.toList_none, Option.toList_some,
        List.append_nil, List.map_cons, List.map_nil, List.intercalate_cons_cons,
        List.intercalate_singleton, List.append_assoc, List.cons_append, List.nil_append]
      exact hstart _ _ (hmiddle _ _ hend (commentUrl_none _)) _ (compact_some _ _ _)
    | some url =>
      simp only [Option.map_some, Option.toList_some, List.map_cons, List.map_nil,
        List.intercalate_cons_cons, List.intercalate_singleton, List.append_assoc, List.cons_append,
        List.nil_append]
      exact hstart _ _ (hmiddle _ _ hend (compact_some _ _ _)) _ (compact_some _ _ _)

def completion : Reader CompletionRecord := do
  byte 123; key "id"; let id ← string
  byte 44; key "posted_at"; let postedAt ← natural
  byte 44; key "claim_token"; let claimToken ← nullable string
  byte 44; key "history"; let history ← nullable record
  byte 44; key "history_offset"; let historyOffset ← nullable natural
  byte 125
  pure ⟨id, UInt64.ofNat postedAt, claimToken, history, historyOffset⟩

theorem nullable_record (r : Option HistoryRecord) (xs : Bytes) :
    nullable record (orNull (r.map HistoryRecord.toVec) ++ xs) = some (r, xs) := by
  cases r with
  | none => exact nullable_none record xs
  | some r =>
    refine nullable_some (record_toVec r xs) ?_ r.toVec_ne_nil
    unfold HistoryRecord.toVec object
    simp

theorem nullable_offset (n : Option Nat) (xs : Bytes) :
    nullable natural (orNull (n.map decimalNat) ++ 125 :: xs) = some (n, 125 :: xs) := by
  cases n with
  | none => exact nullable_none natural (125 :: xs)
  | some n =>
    obtain ⟨b, ys, hb, hdig⟩ := decimalNat_cons n
    refine nullable_some (natural_brace n xs) ?_ (by rw [hb]; exact List.cons_ne_nil b ys)
    rw [hb]
    intro h
    rw [Option.some.inj h] at hdig
    exact absurd hdig (by decide)

theorem completion_toVec (c : CompletionRecord) (xs : Bytes) :
    completion (c.toVec ++ xs) = some (c, xs) := by
  unfold CompletionRecord.toVec object decimalU64
  obtain ⟨id, postedAt, claimToken, history, historyOffset⟩ := c
  simp only [List.map_cons, List.map_nil, List.intercalate_cons_cons, List.intercalate_singleton,
    List.append_assoc, List.cons_append, List.nil_append]
  refine step (byte_cons _ _) (step (key_append _ _) (step (string_quote _ _) ?_))
  refine step (byte_cons _ _) (step (key_append _ _) (step (natural_comma _ _) ?_))
  refine step (byte_cons _ _) (step (key_append _ _) (step (nullable_quote _ _) ?_))
  refine step (byte_cons _ _) (step (key_append _ _) (step (nullable_record _ _) ?_))
  refine step (byte_cons _ _) (step (key_append _ _) (step (nullable_offset _ _) ?_))
  refine step (byte_cons _ _) ?_
  rw [UInt64.ofNat_toNat]
  rfl

def deletion : Reader AwaitDeletionRecord := do
  byte 123; key "incarnation"; let incarnation ← string
  byte 125
  pure ⟨incarnation⟩

theorem deletion_toVec (d : AwaitDeletionRecord) (xs : Bytes) :
    deletion (d.toVec ++ xs) = some (d, xs) := by
  unfold AwaitDeletionRecord.toVec object
  simp only [List.map_cons, List.map_nil, List.intercalate_singleton, List.append_assoc,
    List.cons_append, List.nil_append]
  refine step (byte_cons _ _) (step (key_append _ _) (step (string_quote _ _) ?_))
  exact step (byte_cons _ _) rfl

/-! ## The readers together -/

/-- A text without the line feeds at its end. -/
def stripNl (xs : Bytes) : Bytes := xs.rdropWhile (· == nl)

theorem stripNl_concat (xs : Bytes) : stripNl (xs ++ [nl]) = stripNl xs :=
  List.rdropWhile_concat_pos _ _ _ rfl

theorem stripNl_of_not_mem {xs : Bytes} (h : nl ∉ xs) : stripNl xs = xs := by
  rw [stripNl, List.rdropWhile_eq_self_iff]
  intro hne hlast
  exact h (by rw [← beq_iff_eq.1 hlast]; exact List.getLast_mem hne)

/-- Run a reader that must use up its input. -/
def whole {α : Type} (p : Reader α) (xs : Bytes) : Option α :=
  match p xs with
  | some (a, []) => some a
  | _ => none

theorem whole_of {α : Type} {p : Reader α} {xs : Bytes} {a : α} (h : p (xs ++ []) = some (a, [])) :
    whole p xs = some a := by
  rw [List.append_nil] at h
  rw [whole, h]

/-- A history record, in the form the store writes. -/
def line (xs : Bytes) : Option HistoryRecord :=
  (whole record (stripNl xs)).filter fun r => r.toVec = stripNl xs

theorem line_toVec (r : HistoryRecord) : line r.toVec = some r := by
  unfold line
  rw [stripNl_of_not_mem r.nl_not_mem_toVec, whole_of (record_toVec r []), Option.filter_some,
    if_pos (decide_eq_true rfl)]

/-- A text that is cut off would have to be the text of a record and the start of another. -/
theorem line_cut (r : HistoryRecord) (p q : Bytes) (h : r.toVec = p ++ q) (hq : q ≠ []) :
    line p = none := by
  cases hl : line p with
  | none => rfl
  | some r' =>
    have hp : nl ∉ p := fun hm => r.nl_not_mem_toVec (h ▸ List.mem_append_left q hm)
    unfold line at hl
    rw [stripNl_of_not_mem hp, Option.filter_eq_some_iff] at hl
    have htext : r'.toVec = p := of_decide_eq_true hl.2
    have hread := record_toVec r []
    rw [List.append_nil, h, ← htext, record_toVec r' q] at hread
    exact absurd (Prod.mk.inj (Option.some.inj hread)).2 hq

/-- Read with `read`, but a value that does not fit with `own`. -/
def beyond {α : Type} (fits : α → Bool) (own read : Bytes → Option α) (xs : Bytes) : Option α :=
  match own xs with
  | some a => if fits a then read xs else some a
  | none => read xs

theorem beyond_of {α : Type} {fits : α → Bool} {own read : Bytes → Option α} {xs : Bytes} {a : α}
    (hown : own xs = some a) (hread : fits a = true → read xs = some a) :
    beyond fits own read xs = some a := by
  rw [beyond, hown]
  simp only
  split
  · next hfits => exact hread hfits
  · rfl

end Codec

/-! ## Readers -/

/-- Its offset is a 64-bit number. -/
def CompletionRecord.fits (c : CompletionRecord) : Bool := c.historyOffset.all (· < 2 ^ 64)

/-- A reader of the persisted JSON. The fields state what the store relies on: the reader inverts
the writers, white space after a value is ignored, and no proper prefix of an object is a value. -/
structure SerdeJson where
  entry : Bytes → Option StoredEntry
  record : Bytes → Option HistoryRecord
  journal : Bytes → Option CompletionRecord
  deletion : Bytes → Option AwaitDeletionRecord
  entry_toVecPretty : ∀ e : StoredEntry, entry e.toVecPretty = some e
  record_toVec : ∀ r : HistoryRecord, record r.toVec = some r
  journal_toVec : ∀ c : CompletionRecord, c.fits = true → journal c.toVec = some c
  deletion_toVec : ∀ d : AwaitDeletionRecord, deletion d.toVec = some d
  record_nl : ∀ l : Bytes, record (l ++ [nl]) = record l
  record_cut : ∀ (r : HistoryRecord) (p q : Bytes), r.toVec = p ++ q → q ≠ [] → record p = none

/-- The reader of the completion journal, for any offset. -/
def SerdeJson.completion (J : SerdeJson) : Bytes → Option CompletionRecord :=
  Codec.beyond CompletionRecord.fits (Codec.whole Codec.completion) J.journal

theorem SerdeJson.completion_toVec (J : SerdeJson) (c : CompletionRecord) :
    J.completion c.toVec = some c :=
  Codec.beyond_of (Codec.whole_of (Codec.completion_toVec c [])) (J.journal_toVec c)

theorem SerdeJson.record_nil (J : SerdeJson) (r : HistoryRecord) : J.record [] = none :=
  J.record_cut r [] r.toVec rfl r.toVec_ne_nil

theorem CompletionRecord.toVec_injective {c c' : CompletionRecord} (h : c.toVec = c'.toVec) :
    c = c' := by
  have hread := Codec.whole_of (Codec.completion_toVec c [])
  rw [h, Codec.whole_of (Codec.completion_toVec c' [])] at hread
  exact (Option.some.inj hread).symm

/-- Readers of the persisted records. -/
def serdeJson : SerdeJson where
  entry := Codec.whole Codec.entry
  record := Codec.line
  journal := Codec.whole Codec.completion
  deletion := Codec.whole Codec.deletion
  entry_toVecPretty e := Codec.whole_of (Codec.entry_toVecPretty e [])
  record_toVec := Codec.line_toVec
  journal_toVec c _ := Codec.whole_of (Codec.completion_toVec c [])
  deletion_toVec d := Codec.whole_of (Codec.deletion_toVec d [])
  record_nl l := by rw [Codec.line, Codec.stripNl_concat]; rfl
  record_cut := Codec.line_cut

end Comenq
