import Comenq.Store.Types

/-!
# Serialized forms of the persisted records

Entry files hold indented JSON (`to_vec_pretty`), the history log, the completion journal and the
deletion markers compact JSON (`to_vec`). The writers are given here byte by byte.
-/

namespace Comenq

open JsonText

def decimalU64 (n : UInt64) : Bytes := decimalNat n.toNat

def CommentRequest.members (r : CommentRequest) : Members :=
  [("owner", quote r.owner), ("repo", quote r.repo), ("pr_number", decimalU64 r.prNumber),
    ("body", quote r.body)]

/-- `incarnation` is skipped when empty; an absent claim token is written as `null`. -/
def StoredEntry.members (e : StoredEntry) : Members :=
  [("id", quote e.id)] ++
    (if e.incarnation = "" then [] else [("incarnation", quote e.incarnation)]) ++
    [("order", decimal e.order.toInt), ("flutter_seconds", decimalU64 e.flutterSeconds),
      ("enqueued_at", decimalU64 e.enqueuedAt), ("not_before", decimalU64 e.notBefore),
      ("claim_token", orNull (e.claimToken.map quote)),
      ("request", prettyObject 1 e.request.members)]

def StoredEntry.toVecPretty (e : StoredEntry) : Bytes := prettyObject 0 e.members

/-- The file of an entry as releases before `incarnation`, `not_before` and `claim_token` wrote
it. -/
def StoredEntry.legacyText (e : StoredEntry) : Bytes :=
  prettyObject 0 [("id", quote e.id), ("order", decimal e.order.toInt),
    ("flutter_seconds", decimalU64 e.flutterSeconds), ("enqueued_at", decimalU64 e.enqueuedAt),
    ("request", prettyObject 1 e.request.members)]

/-- `error` and `comment_url` are skipped when absent. -/
def HistoryRecord.toVec (r : HistoryRecord) : Bytes :=
  object ([("attempt_id", quote r.attemptId), ("id", quote r.id),
      ("posted_at", decimalU64 r.postedAt), ("success", bool r.success)] ++
    (r.error.map fun e => ("error", quote e)).toList ++
    [("token_hash", quote r.tokenHash)] ++
    (r.commentUrl.map fun u => ("comment_url", quote u)).toList ++
    [("incarnation", quote r.incarnation), ("request", object r.request.members)])

def CompletionRecord.toVec (c : CompletionRecord) : Bytes :=
  object [("id", quote c.id), ("posted_at", decimalU64 c.postedAt),
    ("claim_token", orNull (c.claimToken.map quote)),
    ("history", orNull (c.history.map HistoryRecord.toVec)),
    ("history_offset", orNull (c.historyOffset.map decimalNat))]

def AwaitDeletionRecord.toVec (d : AwaitDeletionRecord) : Bytes :=
  object [("incarnation", quote d.incarnation)]

/-! ## Compact records -/

section Spelled

variable {Q : Bytes → Prop} (h : Spelled Q)
include h

theorem CommentRequest.spelled_object (r : CommentRequest) : Q (object r.members) := by
  apply h.object
  intro m hm
  simp only [CommentRequest.members, List.mem_cons, List.not_mem_nil, or_false] at hm
  rcases hm with rfl | rfl | rfl | rfl
  · exact h.quote _
  · exact h.quote _
  · exact h.decimalNat _
  · exact h.quote _

theorem HistoryRecord.spelled_toVec (r : HistoryRecord) : Q r.toVec := by
  apply h.object
  intro m hm
  simp only [List.mem_append, List.mem_cons, List.not_mem_nil, or_false, Option.mem_toList,
    Option.map_eq_some_iff] at hm
  rcases hm with (((((rfl | rfl | rfl | rfl) | ⟨e, -, rfl⟩) | rfl) | ⟨u, -, rfl⟩) | (rfl | rfl))
  · exact h.quote _
  · exact h.quote _
  · exact h.decimalNat _
  · exact h.bool _
  · exact h.quote _
  · exact h.quote _
  · exact h.quote _
  · exact h.quote _
  · exact r.request.spelled_object h

theorem CompletionRecord.spelled_toVec (c : CompletionRecord) : Q c.toVec := by
  apply h.object
  intro m hm
  simp only [List.mem_cons, List.not_mem_nil, or_false] at hm
  rcases hm with rfl | rfl | rfl | rfl | rfl
  · exact h.quote _
  · exact h.decimalNat _
  · refine h.orNull fun v hv => ?_
    obtain ⟨t, -, rfl⟩ := Option.map_eq_some_iff.1 hv
    exact h.quote t
  · refine h.orNull fun v hv => ?_
    obtain ⟨r, -, rfl⟩ := Option.map_eq_some_iff.1 hv
    exact r.spelled_toVec h
  · refine h.orNull fun v hv => ?_
    obtain ⟨n, -, rfl⟩ := Option.map_eq_some_iff.1 hv
    exact h.decimalNat n

end Spelled

/-- A history record is written on one line. -/
theorem HistoryRecord.nl_not_mem_toVec (r : HistoryRecord) : nl ∉ r.toVec :=
  r.spelled_toVec spelled_nl

/-- A completion journal is text. -/
theorem CompletionRecord.decodeUtf8_toVec (c : CompletionRecord) :
    ∃ cs, decodeUtf8 c.toVec = some cs := by
  obtain ⟨cs, hcs⟩ := c.spelled_toVec spelled_utf8
  exact ⟨cs, by rw [hcs, decodeUtf8_flatMap]⟩

theorem HistoryRecord.toVec_ne_nil (r : HistoryRecord) : r.toVec ≠ [] := by
  unfold HistoryRecord.toVec object
  simp

/-! ## Sizes of entry files -/

/-- The width of the claim token field: a quoted token or `null`. -/
def StoredEntry.claimText (e : StoredEntry) : Bytes := orNull (e.claimToken.map quote)

/-- The bytes of an entry file that no later update touches. -/
def StoredEntry.rigidBytes (e : StoredEntry) : Nat :=
  { e with incarnation := "", order := 0, claimToken := none }.toVecPretty.length - 5

/-- An entry file's size splits into the part that never changes, the order key, the claim and the
incarnation line. -/
theorem StoredEntry.length_toVecPretty (e : StoredEntry) :
    e.toVecPretty.length = e.rigidBytes + (decimal e.order.toInt).length + e.claimText.length +
      (if e.incarnation = "" then 0 else (quote e.incarnation).length + 19) := by
  have h0 : (decimal (0 : Int64).toInt).length = 1 := by decide
  have hn : (orNull (Option.map quote none)).length = 4 := by decide
  have hq : (quote "incarnation").length = 13 := by decide
  unfold StoredEntry.rigidBytes StoredEntry.toVecPretty StoredEntry.members prettyObject
    StoredEntry.claimText
  by_cases hi : e.incarnation = ""
  · simp only [hi, ↓reduceIte, List.append_nil, List.cons_append, List.nil_append, List.map_cons,
      List.map_nil, List.intercalate_cons_cons, List.intercalate_singleton, List.length_cons,
      List.length_append, List.length_nil, h0, hn]
    omega
  · simp only [hi, ↓reduceIte, List.append_nil, List.cons_append, List.nil_append, List.map_cons,
      List.map_nil, List.intercalate_cons_cons, List.intercalate_singleton, List.length_cons,
      List.length_append, List.length_nil, h0, hn, hq, indent, List.length_replicate]
    omega

end Comenq
