import Comenq.Verify.Deduplication
import Comenq.Verify.Etas
import Comenq.Verify.HistoryPaging

/-!
# Byte limits of requests, entries, records and replies

The limits of the daemon are set in different modules and have to fit together. A list reply is
built with a running size that is compared with the response limit at every entry; the size is that
of the encoded reply (`length_ofEntries_concat`), so the reply is complete or an error.

A request within the request limit becomes an entry file, the line of a failed attempt and the entry
of a history reply. Each consists of the texts of the request (`CommentRequest.textBytes`), an error
text that was cut, and parts of bounded width, so each stays within its own limit.
-/

namespace Comenq

open JsonText Traced

/-! ## List replies -/

theorem ofEntries_toVec (entries : List PendingEntry) :
    (Response.ofEntries entries).toVec =
      object [("outcome", quote "ok"), ("entries", array (entries.map PendingEntry.toVec))] := rfl

theorem length_ofEntries (entries : List PendingEntry) :
    (Response.ofEntries entries).toVec.length = (Response.ofEntries []).toVec.length +
      (List.intercalate [44] (entries.map PendingEntry.toVec)).length := by
  have harray := length_array (entries.map PendingEntry.toVec)
  simp only [ofEntries_toVec, length_object, List.map_cons, List.map_nil,
    List.intercalate_cons_cons, List.intercalate_singleton, List.length_append, List.length_cons]
  omega

/-- One more entry adds its own text and a separator behind the first. -/
theorem length_ofEntries_concat (entries : List PendingEntry) (pending : PendingEntry) :
    (Response.ofEntries (entries ++ [pending])).toVec.length =
      (Response.ofEntries entries).toVec.length + pending.toVec.length +
        (if entries.isEmpty then 0 else 1) := by
  rw [length_ofEntries, length_ofEntries entries, List.map_append, List.map_singleton,
    length_intercalate_concat, List.isEmpty_map]
  omega

theorem length_ofEntries_le (entries more : List PendingEntry) :
    (Response.ofEntries entries).toVec.length ≤
    (Response.ofEntries (entries ++ more)).toVec.length := by
  induction more using List.reverseRecOn with
  | nil => rw [List.append_nil]
  | append_singleton more pending ih =>
    rw [← List.append_assoc, length_ofEntries_concat]
    omega

/-- The entries a schedule is sent as. -/
def pendingEntries (schedule : List (StoredEntry × UInt64)) : List PendingEntry :=
  schedule.map fun p => pendingEntry p.1 p.2

/-- The reply when the encoded list is over the limit. -/
def listTooLarge : Response := .error "list response exceeds the 2097152-byte limit"

/-- What the loop carries after the entries of `done`. -/
def listed (done : List (StoredEntry × UInt64)) : List PendingEntry × Nat :=
  (pendingEntries done, (Response.ofEntries (pendingEntries done)).toVec.length)

theorem pendingEntries_append (done rest : List (StoredEntry × UInt64)) :
    pendingEntries (done ++ rest) = pendingEntries done ++ pendingEntries rest := List.map_append

/-- A turn adds its entry as long as the encoded reply fits. -/
theorem pushPending_listed (done : List (StoredEntry × UInt64)) (p : StoredEntry × UInt64) :
    pushPending (listed done) p =
      if (Response.ofEntries (pendingEntries (done ++ [p]))).toVec.length ≤ maxResponseBytes then
        .ok (listed (done ++ [p]))
      else .error listTooLarge := by
  have hsize := length_ofEntries_concat (pendingEntries done) (pendingEntry p.1 p.2)
  have hmax : maxResponseBytes < Saturating.maxU64 := by decide
  have happend : pendingEntries (done ++ [p]) = pendingEntries done ++ [pendingEntry p.1 p.2] :=
    pendingEntries_append done [p]
  have hnext : Saturating.addNat (Saturating.addNat
      (Response.ofEntries (pendingEntries done)).toVec.length (pendingEntry p.1 p.2).toVec.length)
        (if (pendingEntries done).isEmpty then 0 else 1) =
      min (Response.ofEntries (pendingEntries (done ++ [p]))).toVec.length Saturating.maxU64 := by
    rw [happend]
    unfold Saturating.addNat
    omega
  unfold pushPending listed
  simp only
  rw [hnext, happend]
  split
  · rw [if_neg (by omega)]
    rfl
  · rw [if_pos (by omega), Nat.min_eq_left (by omega)]

theorem foldlM_pushPending (rest : List (StoredEntry × UInt64)) {done : List (StoredEntry × UInt64)}
    (h : (Response.ofEntries (pendingEntries done)).toVec.length ≤ maxResponseBytes) :
    rest.foldlM pushPending (listed done) =
      if (Response.ofEntries (pendingEntries (done ++ rest))).toVec.length ≤ maxResponseBytes then
        .ok (listed (done ++ rest))
      else .error listTooLarge := by
  induction rest generalizing done with
  | nil =>
    rw [List.append_nil, if_pos h]
    rfl
  | cons p rest ih =>
    rw [List.foldlM_cons, pushPending_listed]
    split
    · next hfits =>
      have hrest := ih hfits
      rwa [List.append_assoc] at hrest
    · next hover =>
      -- a longer list is no shorter on the wire
      have hle := length_ofEntries_le (pendingEntries (done ++ [p])) (pendingEntries rest)
      rw [← pendingEntries_append, List.append_assoc, List.singleton_append] at hle
      rw [if_neg (by omega)]
      rfl

theorem length_ofEntries_nil :
    (Response.ofEntries (pendingEntries [])).toVec.length ≤ maxResponseBytes := by
  decide +kernel

theorem length_listTooLarge : listTooLarge.toVec.length ≤ maxResponseBytes := by decide +kernel

/-- The loop from its start. -/
theorem foldlM_pushPending_nil (done : List (StoredEntry × UInt64)) :
    done.foldlM pushPending ([], (Response.ofEntries []).toVec.length) =
      if (Response.ofEntries (pendingEntries done)).toVec.length ≤ maxResponseBytes then
        .ok (listed done)
      else .error listTooLarge := by
  have hstart : ([], (Response.ofEntries []).toVec.length) = listed [] := by
    unfold listed pendingEntries
    rw [List.map_nil]
  rw [hstart, foldlM_pushPending done length_ofEntries_nil, List.nil_append]

/-- A schedule within the entry limit is answered by the complete list or by an error. -/
theorem responseForSchedule_eq {schedule : List (StoredEntry × UInt64)}
    (h : schedule.length ≤ maxPendingEntries) :
    responseForSchedule schedule =
      if (Response.ofEntries (pendingEntries schedule)).toVec.length ≤ maxResponseBytes then
        Response.ofEntries (pendingEntries schedule)
      else listTooLarge := by
  unfold responseForSchedule
  rw [List.take_of_length_le h, foldlM_pushPending_nil]
  by_cases hfits : (Response.ofEntries (pendingEntries schedule)).toVec.length ≤ maxResponseBytes
  · simp only [if_pos hfits, listed]
  · simp only [if_neg hfits]

/-! ## Schedules -/

section Schedules

variable {J : SerdeJson} {fs : QueueFs} {cooldown now : UInt64}
  {planned : List (StoredEntry × UInt64)}

theorem length_filterMap_itemEntry_le (J : SerdeJson) (items : List (Σ _ : String, Node)) :
    (items.filterMap (itemEntry J)).length ≤ (fileSizes items).length := by
  induction items with
  | nil => simp [fileSizes]
  | cons item items ih =>
    obtain ⟨stem, node⟩ := item
    unfold fileSizes at ih ⊢
    cases node with
    | other =>
      have hnone : itemEntry J ⟨stem, .other⟩ = none := rfl
      rw [List.filterMap_cons_none hnone, List.filterMap_cons_none rfl]
      exact ih
    | file bytes =>
      simp only [List.filterMap_cons, List.length_cons]
      cases itemEntry J ⟨stem, .file bytes⟩ with
      | none => exact ih.trans (Nat.le_succ _)
      | some e => exact Nat.succ_le_succ ih

theorem length_queued_le (J : SerdeJson) (fs : QueueFs) : (queued J fs).length ≤ fileCount fs :=
  length_filterMap_itemEntry_le J fs.entries.entries

/-- The store never schedules more entries than a reply may hold. -/
theorem length_schedule_le (h : schedule J cooldown now fs = .ok planned) :
    planned.length ≤ maxPendingEntries := by
  obtain ⟨previous, hw, -, rfl⟩ := schedule_ok h
  have hcount := hw.count
  have hqueued := length_queued_le J fs
  have hlength : (projectedSchedule cooldown now (sortEntries (queued J fs)) previous).length =
      (queued J fs).length := by
    rw [← List.length_map Prod.fst, map_fst_projectedSchedule]
    exact (sortEntries_perm _).length_eq
  unfold maxQueueEntries at hcount
  unfold maxPendingEntries
  omega

end Schedules

/-- What answering a schedule amounts to: the complete list of its entries if the encoded reply is
within the limit, and an error otherwise. -/
structure ListsAllOrNothing (planned : List (StoredEntry × UInt64)) : Prop where
  complete_iff : responseForSchedule planned = .ofEntries (pendingEntries planned) ↔
    (Response.ofEntries (pendingEntries planned)).toVec.length ≤ maxResponseBytes
  error_otherwise : maxResponseBytes < (Response.ofEntries (pendingEntries planned)).toVec.length →
    responseForSchedule planned = listTooLarge
  no_part : ∀ entries, responseForSchedule planned = .ofEntries entries →
    entries = pendingEntries planned
  running_size : ∀ done rest entries size, planned = done ++ rest →
    done.foldlM pushPending ([], (Response.ofEntries []).toVec.length) = .ok (entries, size) →
    entries = pendingEntries done ∧ size = (Response.ofEntries entries).toVec.length
  accepted : ∀ (W : WireJson) (serve : Bytes → Bytes),
    serve Request.list.toVec = (responseForSchedule planned).toVec →
    transact W serve .list = .ok (responseForSchedule planned)

/-- A reply within the limit reaches the client. -/
theorem transact_of_le (W : WireJson) {serve : Bytes → Bytes} {request : Request}
    {response : Response} (hrequest : request.toVec.length ≤ maxRequestBytes)
    (hserve : serve request.toVec = response.toVec)
    (hlength : response.toVec.length ≤ maxResponseBytes) :
    transact W serve request = .ok response := by
  unfold transact
  rw [if_neg (by omega), hserve, if_neg (by omega), W.response_toVec]

/-- Every schedule the store can produce is listed as a whole or not at all. -/
theorem list_all_or_nothing (J : SerdeJson) (fs : QueueFs) (cooldown now : UInt64)
    (planned : List (StoredEntry × UInt64)) (h : schedule J cooldown now fs = .ok planned) :
    ListsAllOrNothing planned := by
  have hcount := length_schedule_le h
  have hreply := responseForSchedule_eq hcount
  have hlength : (responseForSchedule planned).toVec.length ≤ maxResponseBytes := by
    rw [hreply]
    split
    · assumption
    · exact length_listTooLarge
  constructor
  case complete_iff =>
    constructor
    · intro heq
      rwa [heq] at hlength
    · intro hfits
      rw [hreply, if_pos hfits]
  case error_otherwise =>
    intro hover
    rw [hreply, if_neg (by omega)]
  case no_part =>
    intro entries heq
    rw [hreply] at heq
    split at heq
    · cases heq
      rfl
    · cases heq
  case running_size =>
    intro done rest entries size _ hloop
    rw [foldlM_pushPending_nil] at hloop
    split at hloop
    · cases hloop
      exact ⟨rfl, rfl⟩
    · cases hloop
  case accepted =>
    intro W serve hserve
    exact transact_of_le W (by decide +kernel) hserve hlength

theorem list_all_or_nothing_two : ∃ planned,
    schedule serdeJson 900 1000 sampleTwoQueued = .ok planned ∧ planned.length = 2 ∧
      ListsAllOrNothing planned := by
  have hcount : (schedule serdeJson 900 1000 sampleTwoQueued).toOption.map List.length =
      some 2 := by
    decide +kernel
  cases h : schedule serdeJson 900 1000 sampleTwoQueued with
  | error err => rw [h] at hcount; cases hcount
  | ok planned =>
    rw [h] at hcount
    exact ⟨planned, rfl, Option.some.inj hcount, list_all_or_nothing serdeJson _ 900 1000 planned h⟩

/-! ## Cutting error texts -/

/-- The byte positions between characters are the lengths of the leading parts. -/
theorem isCharBoundary_iff {cs : List Char} {n : Nat} :
    isCharBoundary cs n = true ↔
      ∃ front back, cs = front ++ back ∧ (front.flatMap String.utf8EncodeChar).length = n := by
  induction cs generalizing n with
  | nil =>
    cases n with
    | zero => exact ⟨fun _ => ⟨[], [], rfl, rfl⟩, fun _ => rfl⟩
    | succ n =>
      constructor
      · intro h; cases h
      · rintro ⟨front, back, hcs, hn⟩
        obtain ⟨rfl, -⟩ := List.nil_eq_append_iff.1 hcs
        cases hn
  | cons c cs ih =>
    cases n with
    | zero => exact ⟨fun _ => ⟨[], c :: cs, rfl, rfl⟩, fun _ => rfl⟩
    | succ n =>
      rw [isCharBoundary, Bool.and_eq_true, decide_eq_true_eq, ih]
      constructor
      · rintro ⟨hle, front, back, rfl, hn⟩
        refine ⟨c :: front, back, rfl, ?_⟩
        rw [List.flatMap_cons, List.length_append, String.length_utf8EncodeChar]
        omega
      · rintro ⟨front, back, hcs, hn⟩
        cases front with
        | nil => cases hn
        | cons d front =>
          obtain ⟨rfl, rfl⟩ := List.cons.inj hcs
          rw [List.flatMap_cons, List.length_append, String.length_utf8EncodeChar] at hn
          exact ⟨by omega, front, back, rfl, by omega⟩

/-- The loop ends at a boundary, at the latest in front of the first character. -/
theorem stepToBoundary_spec (cs : List Char) (n : Nat) :
    isCharBoundary cs (stepToBoundary cs n) = true ∧ stepToBoundary cs n ≤ n := by
  induction n with
  | zero => cases cs <;> exact ⟨rfl, Nat.le_refl 0⟩
  | succ n ih =>
    unfold stepToBoundary
    split
    · exact ⟨by assumption, Nat.le_refl _⟩
    · exact ⟨ih.1, Nat.le_succ_of_le ih.2⟩

theorem truncate_append (front back : List Char) :
    truncate (front ++ back) (front.flatMap String.utf8EncodeChar).length = front := by
  induction front with
  | nil =>
    cases back with
    | nil => rfl
    | cons c back =>
      have hpos := c.utf8Size_pos
      rw [List.nil_append, truncate, List.flatMap_nil, List.length_nil, if_neg (by omega)]
  | cons c front ih =>
    rw [List.cons_append, truncate, List.flatMap_cons, List.length_append,
      String.length_utf8EncodeChar, if_pos (Nat.le_add_right _ _), Nat.add_sub_cancel_left, ih]

/-- What becomes of an error text: the text itself, or a leading part of it, cut between two
characters, and three dots. -/
def Shortened (error short : String) : Prop :=
  short = error ∨ ∃ front, front <+: error.toList ∧
    short = String.ofList front ++ "..."

theorem utf8_append (s t : String) : utf8 (s ++ t) = utf8 s ++ utf8 t := by
  unfold utf8
  rw [String.toList_append, List.flatMap_append]

theorem boundedError_spec (error : String) :
    Shortened error (boundedError error) ∧
      (utf8 (boundedError error)).length ≤ maxHistoryErrorBytes := by
  unfold boundedError
  split
  · next hle => exact ⟨Or.inl rfl, hle⟩
  · obtain ⟨hboundary, hle⟩ := stepToBoundary_spec error.toList (maxHistoryErrorBytes - 3)
    obtain ⟨front, back, hcs, hlength⟩ := isCharBoundary_iff.1 hboundary
    have hcut : truncate error.toList (stepToBoundary error.toList (maxHistoryErrorBytes - 3)) =
        front := by
      rw [← hlength, hcs, truncate_append]
    have hdots : (utf8 "...").length = 3 := by decide
    have hmax : 3 ≤ maxHistoryErrorBytes := by decide
    rw [hcut]
    refine ⟨Or.inr ⟨front, ⟨back, hcs.symm⟩, rfl⟩, ?_⟩
    rw [utf8_append, List.length_append, hdots]
    unfold utf8
    rw [String.toList_ofList]
    omega

/-! ## Sizes of what a request becomes -/

/-- The encoded texts of a request. -/
def CommentRequest.textBytes (r : CommentRequest) : Nat :=
  (quote r.owner).length + (quote r.repo).length + (quote r.body).length

theorem length_decimalU64_le (n : UInt64) : (decimalU64 n).length ≤ 20 :=
  length_decimalNat_le (by decide) (n.toNat_lt.trans (by decide))

theorem length_quote_le_of_le {s : String} {n : Nat} (h : s.toList.length ≤ n) :
    (quote s).length ≤ 6 * n + 2 := by
  have := length_quote_le s
  omega

theorem length_quote_boundedError (error : String) :
    (quote (boundedError error)).length ≤ 6 * maxHistoryErrorBytes + 2 := by
  have hchars := length_toList_le_utf8 (boundedError error)
  have hbytes := (boundedError_spec error).2
  have hquote := length_quote_le (boundedError error)
  omega

theorem length_toList_of_isValidId {id : String} (h : isValidId id = true) :
    id.toList.length = 8 := by
  unfold isValidId at h
  rw [Bool.and_eq_true] at h
  exact eq_of_beq h.1

theorem length_request_keys : (quote "owner").length = 7 ∧ (quote "repo").length = 6 ∧
    (quote "pr_number").length = 11 ∧ (quote "body").length = 6 := by decide +kernel

theorem CommentRequest.length_object_le (r : CommentRequest) :
    (object r.members).length ≤ r.textBytes + 60 := by
  have hle := JsonText.length_object_le r.members
  have hnumber := length_decimalU64_le r.prNumber
  unfold members at hle ⊢
  unfold textBytes
  simp only [List.map_cons, List.map_nil, List.sum_cons, List.sum_nil, length_request_keys] at hle
  omega

theorem CommentRequest.length_prettyObject_le (r : CommentRequest) :
    (prettyObject 1 r.members).length ≤ r.textBytes + 90 := by
  have hle := JsonText.length_prettyObject_le 1 r.members
  have hnumber := length_decimalU64_le r.prNumber
  unfold members at hle ⊢
  unfold textBytes
  simp only [List.map_cons, List.map_nil, List.sum_cons, List.sum_nil, length_request_keys] at hle
  omega

/-- The file of a new entry. -/
theorem length_newEntry_le {request : CommentRequest} (options : PutOptions) (now : UInt64)
    (incarnation : Uuid) {id : String} (hv : isValidId id = true) (queue : List StoredEntry) :
    (newEntry request options now incarnation id queue).toVecPretty.length ≤
      request.textBytes + 500 := by
  set e := newEntry request options now incarnation id queue with he
  have hle := JsonText.length_prettyObject_le 0 e.members
  have hid := length_quote_le_of_le (length_toList_of_isValidId hv).le
  have hinc := incarnation.length_quote
  have horder := (length_decimal_int64 e.order).2
  have hflutter := length_decimalU64_le e.flutterSeconds
  have hat := length_decimalU64_le e.enqueuedAt
  have hbefore := length_decimalU64_le e.notBefore
  have hrequest := request.length_prettyObject_le
  have hnull : (orNull (none : Option Bytes)).length = 4 := by decide
  have hkeys : (quote "id").length = 4 ∧ (quote "incarnation").length = 13 ∧
      (quote "order").length = 7 ∧ (quote "flutter_seconds").length = 17 ∧
      (quote "enqueued_at").length = 13 ∧ (quote "not_before").length = 12 ∧
      (quote "claim_token").length = 13 ∧ (quote "request").length = 9 := by decide +kernel
  have hmembers : e.members = [("id", quote id), ("incarnation", quote incarnation.text),
      ("order", decimal e.order.toInt), ("flutter_seconds", decimalU64 e.flutterSeconds),
      ("enqueued_at", decimalU64 e.enqueuedAt), ("not_before", decimalU64 e.notBefore),
      ("claim_token", orNull none), ("request", prettyObject 1 request.members)] := by
    unfold StoredEntry.members
    rw [if_neg (show e.incarnation ≠ "" from incarnation.text_ne_empty)]
    rfl
  unfold StoredEntry.toVecPretty
  rw [hmembers] at hle ⊢
  simp only [List.map_cons, List.map_nil, List.sum_cons, List.sum_nil, hkeys, hnull, hinc] at hle
  omega

section Failures

variable {e : StoredEntry} {tokenHash : String}

/-- The line of a failed attempt. -/
theorem length_failed_le (attempt : Uuid) (hv : isValidId e.id = true)
    (hinc : e.incarnation.toList.length ≤ 36) (hhash : tokenHash.toList.length = 64)
    (postedAt : UInt64) (error : String) :
    (HistoryRecord.failed attempt e tokenHash postedAt error).toVec.length ≤
      e.request.textBytes + 6 * maxHistoryErrorBytes + 1000 := by
  set r := HistoryRecord.failed attempt e tokenHash postedAt error with hr
  have hmembers : r.toVec = object [("attempt_id", quote attempt.text), ("id", quote e.id),
      ("posted_at", decimalU64 postedAt), ("success", bool false),
      ("error", quote (boundedError error)), ("token_hash", quote tokenHash),
      ("incarnation", quote e.incarnation), ("request", object e.request.members)] := rfl
  have hle := JsonText.length_object_le [("attempt_id", quote attempt.text), ("id", quote e.id),
      ("posted_at", decimalU64 postedAt), ("success", bool false),
      ("error", quote (boundedError error)), ("token_hash", quote tokenHash),
      ("incarnation", quote e.incarnation), ("request", object e.request.members)]
  have hid := length_quote_le_of_le (length_toList_of_isValidId hv).le
  have hhash := length_quote_le_of_le hhash.le
  have hattempt := attempt.length_quote
  have hincarnation := length_quote_le_of_le hinc
  have hposted := length_decimalU64_le postedAt
  have herror := length_quote_boundedError error
  have hrequest := e.request.length_object_le
  have hfalse : (bool false).length = 5 := by decide
  have hkeys : (quote "attempt_id").length = 12 ∧ (quote "id").length = 4 ∧
      (quote "posted_at").length = 11 ∧ (quote "success").length = 9 ∧ (quote "error").length = 7 ∧
      (quote "token_hash").length = 12 ∧ (quote "incarnation").length = 13 ∧
      (quote "request").length = 9 := by decide +kernel
  rw [hmembers]
  simp only [List.map_cons, List.map_nil, List.sum_cons, List.sum_nil, hkeys, hfalse,
    hattempt] at hle
  omega

/-- Its entry in a history reply. -/
theorem length_historyEntry_failed_le (attempt : Uuid) (hv : isValidId e.id = true)
    (hhash : tokenHash.toList.length = 64) (postedAt : UInt64) (error : String) :
    (historyEntry (.failed attempt e tokenHash postedAt error)).toVec.length ≤
      e.request.textBytes + 6 * maxHistoryErrorBytes + 1000 := by
  have hmembers : (historyEntry (.failed attempt e tokenHash postedAt error)).toVec =
      object [("id", quote e.id), ("posted_at", decimalU64 postedAt), ("success", bool false),
      ("error", quote (boundedError error)), ("token_hash", quote tokenHash),
      ("owner", quote e.request.owner), ("repo", quote e.request.repo),
      ("pr_number", decimalU64 e.request.prNumber), ("body", quote e.request.body)] := rfl
  have hle := JsonText.length_object_le [("id", quote e.id), ("posted_at", decimalU64 postedAt),
      ("success", bool false), ("error", quote (boundedError error)),
      ("token_hash", quote tokenHash), ("owner", quote e.request.owner),
      ("repo", quote e.request.repo), ("pr_number", decimalU64 e.request.prNumber),
      ("body", quote e.request.body)]
  have hid := length_quote_le_of_le (length_toList_of_isValidId hv).le
  have hhash := length_quote_le_of_le hhash.le
  have hposted := length_decimalU64_le postedAt
  have hnumber := length_decimalU64_le e.request.prNumber
  have herror := length_quote_boundedError error
  have hfalse : (bool false).length = 5 := by decide
  have hkeys : (quote "id").length = 4 ∧ (quote "posted_at").length = 11 ∧
      (quote "success").length = 9 ∧ (quote "error").length = 7 ∧
      (quote "token_hash").length = 12 := by decide +kernel
  unfold CommentRequest.textBytes
  rw [hmembers]
  simp only [List.map_cons, List.map_nil, List.sum_cons, List.sum_nil, hkeys, length_request_keys,
    hfalse] at hle
  omega

end Failures

/-! ## From a request to its record -/

/-- Decoding a put request does not make its texts longer: each was spelled in the buffer, and no
spelling of a text is shorter than `quote`'s. -/
def WireJson.Minimal (W : WireJson) : Prop :=
  ∀ buffer request immediate, W.request buffer = some (.put request immediate) →
    request.textBytes ≤ buffer.length

section Put

variable {J : SerdeJson} {fs : QueueFs} {request : CommentRequest}

theorem admitEntry_ne_tooLarge {e : StoredEntry} {usage : QueueUsage} {size limit : Nat}
    (hv : isValidId e.id = true) (hl : fs.entries.lookup e.id = none)
    (h : e.toVecPretty.length ≤ maxEntryBytes - entryMutationHeadroomBytes) :
    admitEntry J fs e usage ≠ .error (.entryTooLarge size limit) := by
  have hsize : ensureEntrySize e.toVecPretty.length (maxEntryBytes - entryMutationHeadroomBytes) =
      .ok () := by
    unfold ensureEntrySize
    rw [if_neg (by omega)]
  intro hadmit
  unfold admitEntry previousBytes previousHeadroom at hadmit
  simp only [hv, hl, if_true, Option.isNone_none, hsize] at hadmit
  split at hadmit
  · cases hadmit
  · have hbudget : ∀ used requested,
        ensureQueueBytes used requested ≠ .error (.entryTooLarge size limit) := by
      intro used requested hb
      unfold ensureQueueBytes at hb
      split at hb <;> cases hb
    exact hbudget _ _ hadmit

/-- A put whose new entries are small enough is never refused for their size. -/
theorem Clean.put_ne_tooLarge (h : Clean J fs) (options : PutOptions) (now : UInt64)
    (incarnation : Uuid) (size limit : Nat)
    (hfits : ∀ id queue, isValidId id = true →
      (newEntry request options now incarnation id queue).toVecPretty.length ≤
        maxEntryBytes - entryMutationHeadroomBytes) :
    (putWithEta J request options now incarnation fs).outcome ≠
      .error (.entryTooLarge size limit) := by
  cases hr : resolveEntryId J fs request now with
  | none =>
    unfold putWithEta
    rw [run_inspect, hr]
    intro hput
    cases hput
  | some resolved =>
    cases resolved with
    | error err => exact absurd hr (h.resolveEntryId_ne_error err)
    | ok found =>
      obtain ⟨id, existing⟩ := found
      cases existing with
      | some e =>
        obtain ⟨eta, hput⟩ := h.put_existing hr options incarnation
        rw [hput]
        intro herr
        cases herr
      | none =>
        obtain ⟨hv, other, hfind⟩ := resolveEntryId_ok hr
        obtain ⟨-, -, hfree⟩ := find_unknownId_iff.1 hfind
        rcases h.put_free hr options incarnation with ⟨err, -, hrefused, hput⟩ |
          ⟨e, eta, -, -, -, hput⟩
        · rw [hput]
          intro herr
          obtain rfl := Outcome.error.inj herr
          rcases hrefused with hfull | hadmit
          · cases hfull
          · exact @admitEntry_ne_tooLarge J fs
              (newEntry request options now incarnation id (sortEntries (queued J fs))) _
              size limit hv hfree (hfits id _ hv) hadmit
        · rw [hput]
          intro herr
          cases herr

end Put

/-- Once a record was kept, the loop answers with records. -/
theorem keepRecords_ne_error (next : Option HistoryPosition) (items : List HistoryRecordAt)
    {entries : List HistoryEntry} (h : entries ≠ []) (size : Nat)
    (nextCursor : Option HistoryCursor) (message : String) :
    keepRecords next items entries size nextCursor ≠ .error message := by
  have hfull : entries.isEmpty = false := List.isEmpty_eq_false_iff.2 h
  have hhistory : ∀ es cursor, Response.ofHistory es cursor ≠ .error message := by
    intro es cursor hr
    unfold Response.ofHistory at hr
    cases hr
  induction items generalizing entries size nextCursor with
  | nil =>
    unfold keepRecords
    split <;> exact hhistory _ _
  | cons item rest ih =>
    unfold keepRecords
    simp only [hfull, Bool.false_eq_true, if_false]
    rw [ne_eq, ite_eq_iff]
    rintro (⟨-, hr⟩ | ⟨-, hr⟩)
    · exact hhistory _ _ hr
    · exact ih (by simp) _ _ (by simp) hr

theorem responseForHistory_ne_error {item : HistoryRecordAt} (h : item.FitsAlone)
    (rest : List HistoryRecordAt) (next : Option HistoryPosition) (message : String) :
    responseForHistory ⟨item :: rest, next⟩ ≠ .error message := by
  have hfits := h.le rest next
  rw [← List.nil_append [item], ← cursorAfter_concat] at hfits
  unfold responseForHistory keepRecords
  simp only [List.isEmpty_nil, if_true, Nat.zero_add, Nat.add_zero]
  rw [if_neg (by omega)]
  exact keepRecords_ne_error next rest (by simp) _ _ message

/-- What the daemon can do with the failure record `r`: every reader of the log takes its line, and
it fits a history reply with any cursor. -/
structure Reportable (r : HistoryRecord) : Prop where
  fits : r.FitsLine
  read_forward : ∀ J, lineRecord J (r.toVec ++ [nl]) = some r
  read_backward : ∀ J, segmentRecord J r.toVec = some r
  delivers : ∀ J, Delivers J r.attemptId (r.toVec ++ [nl])
  reply : ∀ cursor : Option HistoryCursor,
    (∀ c ∈ cursor, c.offset < 2 ^ 64 ∧ c.endOffset < 2 ^ 64) →
    (Response.ofHistory [historyEntry r] cursor).toVec.length ≤ maxResponseBytes
  answered : ∀ position : HistoryPosition, position.offset < 2 ^ 64 → position.endOffset < 2 ^ 64 →
    ∀ rest next message, responseForHistory ⟨⟨r, position⟩ :: rest, next⟩ ≠ .error message

theorem reportable_of_le {r : HistoryRecord} (hline : r.FitsLine)
    (hentry : (historyEntry r).toVec.length + 200 ≤ maxResponseBytes) : Reportable r := by
  constructor
  case fits => exact hline
  case read_forward =>
    intro J
    exact HistoryRecord.lineRecord_line hline
  case read_backward =>
    intro J
    have hread := HistoryRecord.lineRecord_toVec (J := J) hline
    unfold lineRecord at hread
    unfold segmentRecord
    exact hread
  case delivers =>
    intro J
    exact HistoryRecord.delivers_line hline
  case reply =>
    intro cursor hc
    have hle := historyResponseSize_le (historyEntry r).toVec.length hc
    rw [length_ofHistory, List.map_singleton, List.intercalate_singleton]
    omega
  case answered =>
    intro position hoffset hend rest next message
    have halone : HistoryRecordAt.FitsAlone ⟨r, position⟩ :=
      HistoryRecordAt.fitsAlone_of_le hoffset hend hentry
    exact responseForHistory_ne_error halone rest next message

/-- What the limits allow for an accepted request. -/
structure Accommodated (request : CommentRequest) : Prop where
  entry : ∀ options now incarnation id queue, isValidId id = true →
    (newEntry request options now incarnation id queue).toVecPretty.length ≤
      maxEntryBytes - entryMutationHeadroomBytes
  put : ∀ J fs, Reachable J fs → ∀ options now incarnation size limit,
    (putWithEta J request options now incarnation fs).outcome ≠ .error (.entryTooLarge size limit)
  record : ∀ (e : StoredEntry) attempt (tokenHash : String) postedAt error, e.request = request →
    isValidId e.id = true → e.incarnation.toList.length ≤ 36 → tokenHash.toList.length = 64 →
    Reportable (.failed attempt e tokenHash postedAt error)

/-- Error texts are cut at a character boundary that the loop reaches, and every request within the
request limit can be stored, logged and reported. -/
theorem accepted_requests_fit (W : WireJson) (hW : W.Minimal) :
    (∀ error : String,
      isCharBoundary error.toList (stepToBoundary error.toList (maxHistoryErrorBytes - 3)) = true ∧
      Shortened error (boundedError error) ∧
      (utf8 (boundedError error)).length ≤ maxHistoryErrorBytes) ∧
    ∀ buffer request immediate, buffer.length ≤ maxRequestBytes →
      W.request buffer = some (.put request immediate) → Accommodated request := by
  refine ⟨fun error => ⟨(stepToBoundary_spec _ _).1, boundedError_spec error⟩, ?_⟩
  intro buffer request immediate hbuffer hrequest
  have htexts : request.textBytes ≤ maxRequestBytes := (hW _ _ _ hrequest).trans hbuffer
  have hentry : ∀ options now incarnation id queue, isValidId id = true →
      (newEntry request options now incarnation id queue).toVecPretty.length ≤
        maxEntryBytes - entryMutationHeadroomBytes := by
    intro options now incarnation id queue hv
    have hlimits : maxRequestBytes + 500 ≤ maxEntryBytes - entryMutationHeadroomBytes := by decide
    have hle := @length_newEntry_le request options now incarnation id hv queue
    omega
  refine ⟨hentry, ?_, ?_⟩
  · intro J fs hreach options now incarnation size limit
    exact hreach.clean.put_ne_tooLarge options now incarnation size limit
      (hentry options now incarnation)
  · rintro e attempt tokenHash postedAt error rfl hv hinc hhash
    have hlimits : maxRequestBytes + 6 * maxHistoryErrorBytes + 1001 ≤ maxHistoryLineBytes ∧
        maxRequestBytes + 6 * maxHistoryErrorBytes + 1200 ≤ maxResponseBytes := by decide
    have hline := length_failed_le attempt hv hinc hhash postedAt error
    have hreply := length_historyEntry_failed_le attempt hv hhash postedAt error
    apply reportable_of_le
    · unfold HistoryRecord.FitsLine
      omega
    · omega

/-! ## The readers of the messages are minimal -/

section Minimal

open Reader

/-- The texts of the comment that a message asks to put. -/
def Request.textBytes : Request → Nat
  | .put request _ => request.textBytes
  | _ => 0

theorem takes_key (k : String) : Takes (Codec.key k) fun _ => 0 :=
  (takes_literal _).skip fun _ => (takes_byte _).mono fun _ => Nat.zero_le _

theorem takes_field {α : Type} {p : Reader α} {size : α → Nat} (k : String) (hp : Takes p size) :
    Takes (Codec.field k p) size :=
  (takes_byte _).skip fun _ => (takes_key k).skip fun _ => hp

theorem takes_request : Takes Codec.request CommentRequest.textBytes := by
  unfold Codec.request
  refine (takes_byte _).skip fun _ => (takes_key _).skip fun _ => takes_string.bind fun owner => ?_
  refine (takes_byte _).skip fun _ => (takes_key _).skip fun _ => takes_string.bind fun repo => ?_
  refine (takes_byte _).skip fun _ => (takes_key _).skip fun _ =>
    takes_natural.skip fun number => ?_
  refine (takes_byte _).skip fun _ => (takes_key _).skip fun _ => takes_string.bind fun body => ?_
  refine (takes_byte _).skip fun _ => takes_pure ?_
  simp only [CommentRequest.textBytes]
  omega

theorem takes_cursor : Takes Codec.cursor fun _ => 0 := by
  unfold Codec.cursor
  refine (takes_byte _).skip fun _ => (takes_key _).skip fun _ =>
    takes_natural.skip fun offset => ?_
  refine (takes_field _ takes_natural).skip fun endOffset => (takes_byte _).skip fun _ => ?_
  exact takes_pure rfl

theorem takes_named {f : String → Request} (hf : ∀ id, (f id).textBytes = 0) :
    Takes (Codec.named f) Request.textBytes :=
  (takes_field _ takes_string).skip fun id => (takes_byte _).skip fun _ => takes_pure (hf id)

theorem takes_putRest : Takes Codec.putRest Request.textBytes := by
  unfold Codec.putRest
  refine (takes_field _ takes_request).bind fun request => ?_
  refine (takes_field _ takes_boolean).skip fun immediate => (takes_byte _).skip fun _ => ?_
  exact takes_pure (Nat.sub_self _)

theorem takes_histRest : Takes Codec.histRest Request.textBytes := by
  unfold Codec.histRest Codec.field?
  refine (takes_field _ (takes_nullable takes_natural)).skip fun limit => ?_
  refine (takes_optional _ takes_cursor).skip fun cursor => (takes_byte _).skip fun _ => ?_
  exact takes_pure rfl

theorem takes_message : Takes Codec.message Request.textBytes := by
  unfold Codec.message
  refine (takes_byte _).skip fun _ => (takes_key _).skip fun _ => takes_string.skip fun op => ?_
  unfold Codec.messageRest
  split
  · exact takes_putRest
  split
  · exact (takes_byte _).skip fun _ => takes_pure rfl
  split
  · exact takes_named fun _ => rfl
  split
  · exact takes_named fun _ => rfl
  split
  · exact takes_named fun _ => rfl
  split
  · exact takes_named fun _ => rfl
  · exact takes_histRest

theorem wireJson_minimal : wireJson.Minimal := by
  intro buffer request immediate h
  -- both readers of `wireJson.request` are this one
  have hwhole : Codec.whole Codec.message buffer = some (.put request immediate) := by
    change Codec.beyond Request.fits _ (Codec.whole Codec.message) buffer = _ at h
    unfold Codec.beyond at h
    split at h
    · next hread =>
      split at h
      · exact h
      · rw [hread, h]
    · exact h
  unfold Codec.whole at hwhole
  split at hwhole
  · next hread =>
    obtain rfl := Option.some.inj hwhole
    have := takes_message _ _ _ hread
    simpa [Request.textBytes] using this
  · cases hwhole

end Minimal

theorem accepted_requests_fit_sample : Accommodated sampleRequest :=
  (accepted_requests_fit wireJson wireJson_minimal).2 (Request.put sampleRequest true).toVec
    sampleRequest true (by decide +kernel) (wireJson.request_toVec _)

end Comenq
