import Comenq.Client.Wire
import Comenq.Daemon.ProtocolCodec
import Comenq.Verify.HistoryReaders

/-!
# Paging through the history

The client pages through the snapshot its first request selected. A page of the log is cut where the
encoded reply would grow too long (`keepRecords_spec`); the cursor is the position behind the last
record that was kept, where the other records of the snapshot follow (`hist_reply`). So the pages
together are the records of the snapshot, whatever is appended between the requests
(`history_pages_exact`).
-/

namespace Comenq

open JsonText LineLog

/-! ## The size of a reply -/

theorem length_object (ms : Members) :
    (object ms).length =
      2 + (List.intercalate [44] (ms.map fun m => quote m.1 ++ 58 :: m.2)).length := by
  unfold object
  rw [List.length_cons, List.length_append, List.length_singleton]
  omega

theorem ofHistory_none (entries : List HistoryEntry) :
    (Response.ofHistory entries none).toVec =
      object [("outcome", quote "ok"), ("history", array (entries.map HistoryEntry.toVec))] := rfl

theorem ofHistory_some (entries : List HistoryEntry) (c : HistoryCursor) :
    (Response.ofHistory entries (some c)).toVec =
      object [("outcome", quote "ok"), ("history", array (entries.map HistoryEntry.toVec)),
        ("next_cursor", c.toVec)] := rfl

/-- The encoded length of a history reply, from that of its entries. -/
theorem length_ofHistory (entries : List HistoryEntry) (nextCursor : Option HistoryCursor) :
    (Response.ofHistory entries nextCursor).toVec.length = historyResponseSize
      (List.intercalate [44] (entries.map HistoryEntry.toVec)).length nextCursor := by
  have harray := length_array (entries.map HistoryEntry.toVec)
  unfold historyResponseSize
  cases nextCursor with
  | none =>
    simp only [ofHistory_none, length_object, List.map_cons, List.map_nil,
      List.intercalate_cons_cons, List.intercalate_singleton, List.length_append, List.length_cons]
    omega
  | some c =>
    simp only [ofHistory_some, length_object, List.map_cons, List.map_nil,
      List.intercalate_cons_cons, List.intercalate_singleton, List.length_append, List.length_cons]
    omega

theorem HistoryCursor.length_toVec_le {c : HistoryCursor}
    (h : c.offset < 2 ^ 64 ∧ c.endOffset < 2 ^ 64) : c.toVec.length ≤ 80 := by
  have hoffset : (decimalNat c.offset).length ≤ 20 :=
    length_decimalNat_le (by decide) (h.1.trans (by decide))
  have hend : (decimalNat c.endOffset).length ≤ 20 :=
    length_decimalNat_le (by decide) (h.2.trans (by decide))
  have hkeys : (quote "offset").length = 8 ∧ (quote "end_offset").length = 12 := by decide +kernel
  unfold HistoryCursor.toVec
  simp only [length_object, List.map_cons, List.map_nil, List.intercalate_cons_cons,
    List.intercalate_singleton, List.length_append, List.length_cons, List.length_nil, hkeys]
  omega

/-- A cursor only makes a reply longer. -/
theorem historyResponseSize_none_le (size : Nat) (c : HistoryCursor) :
    historyResponseSize size none ≤ historyResponseSize size (some c) := by
  unfold historyResponseSize
  simp only [ofHistory_none, ofHistory_some, length_object, List.map_cons, List.map_nil,
    List.intercalate_cons_cons, List.intercalate_singleton, List.length_append, List.length_cons]
  omega

/-- What surrounds the entries of a reply takes at most 200 bytes. -/
theorem historyResponseSize_le (size : Nat) {nextCursor : Option HistoryCursor}
    (h : ∀ c ∈ nextCursor, c.offset < 2 ^ 64 ∧ c.endOffset < 2 ^ 64) :
    historyResponseSize size nextCursor ≤ size + 200 := by
  have hkeys : (quote "outcome").length = 9 ∧ (quote "ok").length = 4 ∧
      (quote "history").length = 9 ∧ (quote "next_cursor").length = 13 := by decide +kernel
  have hempty : (array []).length = 2 := rfl
  unfold historyResponseSize
  cases nextCursor with
  | none =>
    simp only [ofHistory_none, length_object, List.map_cons, List.map_nil,
      List.intercalate_cons_cons, List.intercalate_singleton, List.length_append, List.length_cons,
      List.length_nil, hkeys, hempty]
    omega
  | some c =>
    have hcursor := HistoryCursor.length_toVec_le (h c rfl)
    simp only [ofHistory_some, length_object, List.map_cons, List.map_nil,
      List.intercalate_cons_cons, List.intercalate_singleton, List.length_append, List.length_cons,
      List.length_nil, hkeys, hempty]
    omega

/-! ## Cutting a page -/

/-- The record alone, with the cursor behind it, fits one response. -/
def HistoryRecordAt.FitsAlone (a : HistoryRecordAt) : Prop :=
  historyResponseSize (historyEntry a.record).toVec.length (some a.positionAfter.cursor) ≤
    maxResponseBytes

/-- The cursor behind the records that were kept, if others are left or the page has a successor. -/
def cursorAfter (kept left : List HistoryRecordAt) (next : Option HistoryPosition) :
    Option HistoryCursor :=
  if left.isEmpty && next.isNone then none
  else kept.getLast?.map fun a => a.positionAfter.cursor

theorem HistoryRecordAt.FitsAlone.le {a : HistoryRecordAt} (h : a.FitsAlone)
    (left : List HistoryRecordAt) (next : Option HistoryPosition) :
    historyResponseSize (historyEntry a.record).toVec.length (cursorAfter [a] left next) ≤
      maxResponseBytes := by
  unfold cursorAfter
  split
  · exact (historyResponseSize_none_le _ _).trans h
  · exact h

/-- What the loop has done after keeping `kept`, with `left` still to come. -/
structure Keeping (next : Option HistoryPosition) (kept left : List HistoryRecordAt)
    (encodedEntriesSize : Nat) (nextCursor : Option HistoryCursor) : Prop where
  size : encodedEntriesSize =
    (List.intercalate [44] (kept.map fun a => (historyEntry a.record).toVec)).length
  cursor : kept ≠ [] → nextCursor = cursorAfter kept left next
  fits : kept ≠ [] → historyResponseSize encodedEntriesSize nextCursor ≤ maxResponseBytes

/-- The reply for the records that were kept. -/
def keptReply (kept left : List HistoryRecordAt) (next : Option HistoryPosition) : Response :=
  .ofHistory (kept.map fun a => historyEntry a.record) (cursorAfter kept left next)

theorem Keeping.reply {next : Option HistoryPosition}
    {kept left : List HistoryRecordAt} {size : Nat} {nextCursor : Option HistoryCursor}
    (h : Keeping next kept left size nextCursor) (hk : kept ≠ []) :
    Response.ofHistory (kept.map fun a => historyEntry a.record) nextCursor =
    keptReply kept left next ∧
      (keptReply kept left next).toVec.length ≤ maxResponseBytes := by
  have hfits := h.fits hk
  unfold keptReply
  rw [h.cursor hk] at hfits ⊢
  refine ⟨rfl, ?_⟩
  rw [length_ofHistory, List.map_map]
  rw [h.size] at hfits
  exact hfits

theorem Keeping.keep {next : Option HistoryPosition} {kept left : List HistoryRecordAt}
    {item : HistoryRecordAt} {size : Nat} {nextCursor : Option HistoryCursor}
    (h : Keeping next kept (item :: left) size nextCursor) {size' : Nat}
    (hsize : size' = size + (historyEntry item.record).toVec.length +
      (if kept.isEmpty then 0 else 1))
    (hfits :
      historyResponseSize size' (cursorAfter (kept ++ [item]) left next) ≤ maxResponseBytes) :
    Keeping next (kept ++ [item]) left size' (cursorAfter (kept ++ [item]) left next) := by
  refine ⟨?_, fun _ => rfl, fun _ => hfits⟩
  rw [List.map_append, List.map_singleton, length_intercalate_concat, hsize, h.size,
    List.isEmpty_map]

/-- The cursor the loop considers for a record is the one behind it. -/
theorem cursorAfter_concat (kept left : List HistoryRecordAt) (item : HistoryRecordAt)
    (next : Option HistoryPosition) :
    (if (!left.isEmpty || next.isSome) = true then some item.positionAfter.cursor else none) =
      cursorAfter (kept ++ [item]) left next := by
  unfold cursorAfter
  rw [List.getLast?_concat]
  cases left <;> cases next <;> rfl

/-- The loop keeps records from the front of the page, at least one if there is any, and the encoded
reply is within the limit. -/
theorem keepRecords_spec {next : Option HistoryPosition} {kept items : List HistoryRecordAt}
    {size : Nat} {nextCursor : Option HistoryCursor} (h : Keeping next kept items size nextCursor)
    (hempty : kept = [] → nextCursor = none) (hnext : kept ++ items = [] → next = none)
    (halone : ∀ a ∈ items, a.FitsAlone) :
    ∃ more left, items = more ++ left ∧ (kept ++ items ≠ [] → kept ++ more ≠ []) ∧
      keepRecords next items (kept.map fun a => historyEntry a.record) size nextCursor =
        keptReply (kept ++ more) left next ∧
      (keptReply (kept ++ more) left next).toVec.length ≤ maxResponseBytes := by
  induction items generalizing kept size nextCursor with
  | nil =>
    refine ⟨[], [], rfl, id, ?_⟩
    rw [List.append_nil] at hnext ⊢
    unfold keepRecords
    by_cases hk : kept = []
    · subst hk
      rw [hnext rfl, hempty rfl]
      exact ⟨rfl, by decide +kernel⟩
    · obtain ⟨hreply, hlength⟩ := h.reply hk
      have hfull : (kept.map fun a => historyEntry a.record).isEmpty = false := by
        rw [List.isEmpty_map, List.isEmpty_eq_false_iff]
        exact hk
      refine ⟨?_, hlength⟩
      rw [hfull]
      cases next <;> exact hreply
  | cons item rest ih =>
    unfold keepRecords
    simp only [cursorAfter_concat kept]
    by_cases hover : historyResponseSize (size + (historyEntry item.record).toVec.length +
        (if (kept.map fun a => historyEntry a.record).isEmpty = true then 0 else 1))
        (cursorAfter (kept ++ [item]) rest next) > maxResponseBytes
    · rw [if_pos hover]
      by_cases hk : kept = []
      · -- a record that fits alone is kept
        exfalso
        subst hk
        have hsize : size = 0 := h.size
        have hitem := (halone item List.mem_cons_self).le rest next
        rw [hsize, Nat.zero_add, List.map_nil, List.isEmpty_nil, if_pos rfl, Nat.add_zero] at hover
        exact absurd hitem (Nat.not_le_of_gt hover)
      · obtain ⟨hreply, hlength⟩ := h.reply hk
        have hfull : (kept.map fun a => historyEntry a.record).isEmpty = false := by
          rw [List.isEmpty_map, List.isEmpty_eq_false_iff]
          exact hk
        refine ⟨[], item :: rest, rfl, fun _ => by rwa [List.append_nil], ?_⟩
        rw [List.append_nil, hfull]
        exact ⟨hreply, hlength⟩
    · rw [if_neg hover]
      rw [List.isEmpty_map] at hover ⊢
      have hkept := h.keep rfl (Nat.le_of_not_lt hover)
      obtain ⟨more, left, hitems, hne, hreply, hlength⟩ := ih hkept (by simp) (by simp)
        fun a ha => halone a (List.mem_cons_of_mem item ha)
      refine ⟨item :: more, left, by rw [hitems]; rfl, fun _ => by simp, ?_⟩
      rw [List.append_assoc, List.singleton_append] at hreply hlength
      rw [List.map_append, List.map_singleton] at hreply
      exact ⟨hreply, hlength⟩

/-! ## One exchange -/

section Exchange

variable {J : SerdeJson} {log : Bytes} {offset endOffset : Nat} {rest : List HistoryRecordAt}

/-- The position a request with this cursor asks for. -/
def HistoryCursor.position (c : HistoryCursor) : HistoryPosition := ⟨c.offset, c.endOffset⟩

/-- From a cursor on, `rest` is still to come. -/
structure Continues (J : SerdeJson) (log : Bytes) (endOffset offset : Nat)
    (rest : List HistoryRecordAt) (c : HistoryCursor) : Prop where
  endOffset_eq : c.endOffset = endOffset
  gt : offset < c.offset
  lt : c.offset < endOffset
  start : AtLineStart log endOffset c.offset
  resumes : Resumes J log endOffset c.offset rest

/-- Where records follow, the snapshot has not ended. -/
theorem Resumes.lt (h : Resumes J log endOffset offset rest) (hne : rest ≠ []) :
    offset < endOffset := by
  refine Nat.lt_of_le_of_ne h.le fun heq => hne ?_
  rw [heq] at h
  exact h.rest_eq.symm.trans resumes_end.rest_eq

section Page

variable {pageSize : Nat} {page : HistoryPage} {kept left : List HistoryRecordAt}

/-- Only the last page is empty. -/
theorem HistoryPage.Reads.next_of_nil (h : page.Reads J log endOffset offset pageSize rest)
    (hpage : 0 < pageSize) (hnil : page.records = []) : page.next = .none := by
  rw [h.records] at hnil
  cases hp : page.next with
  | none => rfl
  | some p =>
    have hfull := (h.behind hp).1
    have hlength := congrArg List.length hnil
    rw [List.length_take, Nat.min_eq_left hfull] at hlength
    exact absurd hlength hpage.ne'

/-- What is kept of a page and what is left of it are the next records of the snapshot. -/
theorem HistoryPage.Reads.rest_eq (h : page.Reads J log endOffset offset pageSize rest)
    (hitems : page.records = kept ++ left) : rest = kept ++ (left ++ rest.drop pageSize) := by
  rw [← List.append_assoc, ← hitems, h.records, List.take_append_drop]

/-- Without a cursor behind the kept records nothing is left of the snapshot. -/
theorem HistoryPage.Reads.left_of_none (h : page.Reads J log endOffset offset pageSize rest)
    (hpage : 0 < pageSize) (hitems : page.records = kept ++ left)
    (hne : page.records ≠ [] → kept ≠ []) (hlast : cursorAfter kept left page.next = .none) :
    left ++ rest.drop pageSize = [] := by
  have hdone : left = [] ∧ page.next = .none := by
    unfold cursorAfter at hlast
    split at hlast
    · next hdone =>
      rwa [Bool.and_eq_true, List.isEmpty_iff, Option.isNone_iff_eq_none] at hdone
    · have hkept : kept = [] := by
        rwa [Option.map_eq_none_iff, List.getLast?_eq_none_iff] at hlast
      have hnil : page.records = [] := by_contra fun hr => hne hr hkept
      rw [hkept, List.nil_append] at hitems
      exact ⟨hitems.symm.trans hnil, h.next_of_nil hpage hnil⟩
  rw [hdone.1, h.none hdone.2]
  rfl

/-- The cursor behind the kept records is where the others of the snapshot follow. -/
theorem HistoryPage.Reads.continues (h : page.Reads J log endOffset offset pageSize rest)
    (he : endOffset ≤ log.length) (hres : Resumes J log endOffset offset rest)
    (hitems : page.records = kept ++ left) {c : HistoryCursor}
    (hc : cursorAfter kept left page.next = .some c) :
    Continues J log endOffset offset (left ++ rest.drop pageSize) c := by
  unfold cursorAfter at hc
  split at hc
  · cases hc
  · next hmore =>
    obtain ⟨a, ha, rfl⟩ := Option.map_eq_some_iff.1 hc
    obtain ⟨pre, rfl⟩ := List.getLast?_eq_some_iff.1 ha
    have hrest := h.rest_eq hitems
    rw [List.append_assoc, List.singleton_append] at hrest
    have hres' := hres
    rw [hrest] at hres'
    obtain ⟨hresumes, hend, hgt, hstart⟩ := Resumes.after he (Nat.le_refl _) hres'
    refine ⟨hend, hgt, ?_, hstart, hresumes⟩
    rw [Bool.and_eq_true, List.isEmpty_iff, Option.isNone_iff_eq_none, not_and_or] at hmore
    rcases hmore with hleft | hpage
    · exact hresumes.lt (by simp [hleft])
    · obtain ⟨p, hp⟩ := Option.ne_none_iff_exists'.1 hpage
      have hmem : a ∈ page.records := by rw [hitems]; simp
      exact ((h.behind hp).2 a hmem).trans_lt (h.some hp).2.2.1

end Page

/-- A reply holds the next records of the snapshot, no more than a page of them, and its cursor is
where the others follow. -/
theorem hist_reply (describe : StoreError → String) (fill : Nat → Nat) (he : endOffset ≤ log.length)
    (hres : Resumes J log endOffset offset rest) {cursor : Option HistoryCursor}
    (hv : validateCursor log (cursor.map HistoryCursor.position) = .ok ())
    (ho : pageOffsets J log (cursor.map HistoryCursor.position) none = (offset, endOffset))
    (halone : ∀ a ∈ rest, a.FitsAlone) :
    ∃ kept left nextCursor, rest = kept ++ left ∧ kept.length ≤ historyReadPageSize ∧
      dispatchHist J describe (some log) fill none cursor =
        .ofHistory (kept.map fun a => historyEntry a.record) nextCursor ∧
      (Response.ofHistory (kept.map fun a => historyEntry a.record) nextCursor).toVec.length ≤
        maxResponseBytes ∧
      (nextCursor = none → left = []) ∧
      ∀ c, nextCursor = some c → Continues J log endOffset offset left c := by
  have hsize : 0 < historyReadPageSize := by decide
  obtain ⟨page, hpage, hreads⟩ := readPage_eq fill he hsize hres hv ho
  have hempty : Keeping page.next [] page.records 0 none :=
    ⟨rfl, fun h => absurd rfl h, fun h => absurd rfl h⟩
  have hfits : ∀ a ∈ page.records, a.FitsAlone := by
    intro a ha
    rw [hreads.records] at ha
    exact halone a (List.mem_of_mem_take ha)
  obtain ⟨kept, left, hitems, hne, hreply, hlength⟩ :=
    keepRecords_spec hempty (fun _ => rfl) (fun hnil => hreads.next_of_nil hsize hnil) hfits
  rw [List.nil_append] at hne hreply hlength
  have hpageSize : kept.length ≤ historyReadPageSize := by
    have htake := congrArg List.length hreads.records
    rw [hitems, List.length_append, List.length_take] at htake
    omega
  refine ⟨kept, left ++ rest.drop historyReadPageSize, cursorAfter kept left page.next,
    hreads.rest_eq hitems, hpageSize, ?_, hlength, hreads.left_of_none hsize hitems hne,
    fun c hc => hreads.continues he hres hitems hc⟩
  unfold dispatchHist
  rw [show (cursor.map fun c => (⟨c.offset, c.endOffset⟩ : HistoryPosition)) =
    cursor.map HistoryCursor.position from rfl, hpage]
  exact hreply

end Exchange

/-! ## Growing logs -/

section Growth

variable {J : SerdeJson} {H : Bytes} {offset : Nat} {rest : List HistoryRecordAt}

theorem slice_append (H X : Bytes) (offset : Nat) :
    slice (H ++ X) offset H.length = slice H offset H.length := by
  unfold slice
  rw [List.take_left, List.take_length]

/-- What follows in the snapshot does not depend on later appends. -/
theorem Resumes.append (h : Resumes J H H.length offset rest) (X : Bytes) :
    Resumes J (H ++ X) H.length offset rest :=
  ⟨h.le, by rw [slice_append]; exact h.rest_eq⟩

theorem Resumes.of_append {X : Bytes} (h : Resumes J (H ++ X) H.length offset rest) :
    Resumes J H H.length offset rest :=
  ⟨h.le, by rw [← slice_append H X]; exact h.rest_eq⟩

theorem atLineStart_append (X : Bytes) :
    AtLineStart (H ++ X) H.length offset ↔ AtLineStart H H.length offset := by
  unfold AtLineStart
  refine forall_congr' fun hlt => ?_
  rw [List.getElem?_append_left (by omega)]

/-- A cursor of the snapshot passes validation, whatever was appended. -/
theorem Continues.validate {c : HistoryCursor} (h : Continues J H H.length offset rest c)
    (X : Bytes) : validatePosition (H ++ X) c.position = .ok () := by
  have hlt := h.lt
  have hend : c.position = ⟨c.offset, H.length⟩ := by
    rw [← h.endOffset_eq]
    rfl
  rw [hend]
  apply validatePosition_ok (by simp) hlt.le
  exact ((atLineStart_append X).2 h.start) hlt

theorem Continues.of_append {X : Bytes} {c : HistoryCursor}
    (h : Continues J (H ++ X) H.length offset rest c) : Continues J H H.length offset rest c :=
  ⟨h.endOffset_eq, h.gt, h.lt, (atLineStart_append X).1 h.start, h.resumes.of_append⟩

end Growth

/-! ## Runs -/

section Runs

variable (J : SerdeJson) (W : WireJson) (describe : StoreError → String)
  (others : Request → Response)

/-- The daemon's reply while the log is `history`; `others` answers all but history requests. -/
def serveHistory (history : Option Bytes) (fill : Nat → Nat) : Bytes → Bytes :=
  handleClient W fun
    | .hist limit cursor => dispatchHist J describe history fill limit cursor
    | request => others request

variable {J W describe others}

theorem length_hist_le {cursor : Option HistoryCursor}
    (h : ∀ c ∈ cursor, c.offset < 2 ^ 64 ∧ c.endOffset < 2 ^ 64) :
    (Request.hist none cursor).toVec.length ≤ maxRequestBytes := by
  cases cursor with
  | none => decide +kernel
  | some c =>
    have hcursor := HistoryCursor.length_toVec_le (h c rfl)
    have htext : (Request.hist none (some c)).toVec =
        object [("op", quote "hist"), ("limit", ascii "null"), ("cursor", c.toVec)] := rfl
    have hkeys : (quote "op").length = 4 ∧ (quote "hist").length = 6 ∧ (quote "limit").length = 7 ∧
        (ascii "null").length = 4 ∧ (quote "cursor").length = 8 := by decide +kernel
    rw [htext]
    unfold maxRequestBytes
    simp only [length_object, List.map_cons, List.map_nil, List.intercalate_cons_cons,
      List.intercalate_singleton, List.length_append, List.length_cons, List.length_nil, hkeys]
    omega

/-- An exchange whose reply is within the limit. -/
theorem serveHistory_hist {history : Option Bytes} {fill : Nat → Nat}
    {cursor : Option HistoryCursor}
    (hrequest : (Request.hist none cursor).toVec.length ≤ maxRequestBytes) {response : Response}
    (hd : dispatchHist J describe history fill none cursor = response)
    (hr : response.toVec.length ≤ maxResponseBytes) :
    serveHistory J W describe others history fill (Request.hist none cursor).toVec =
        response.toVec ∧
      transact W (serveHistory J W describe others history fill) (.hist none cursor) =
        .ok response := by
  have hserve : serveHistory J W describe others history fill (Request.hist none cursor).toVec =
      response.toVec := by
    unfold serveHistory handleClient
    rw [if_neg (Nat.not_lt.2 hrequest), W.request_toVec]
    simp only [hd]
    rw [if_neg (Nat.not_lt.2 hr)]
  refine ⟨hserve, ?_⟩
  unfold transact
  rw [if_neg (Nat.not_lt.2 hrequest), hserve, if_neg (Nat.not_lt.2 hr), W.response_toVec]

/-- The cursor a request carries. -/
def Request.cursor : Request → Option HistoryCursor
  | .hist _ cursor => cursor
  | _ => none

/-- What a run over the snapshot `H` has to satisfy: `rest` is rendered, and the requests, the first
of which is the `k`-th, carry valid cursors that move on and get replies within the limit. -/
structure Pages (J : SerdeJson) (W : WireJson) (describe : StoreError → String)
    (others : Request → Response) (logs : Nat → Option Bytes) (fill : Nat → Nat → Nat)
    (rest : List HistoryRecordAt) (k : Nat) (run : HistoryRun) : Prop where
  result : run.result = some (.ok ())
  pages : run.pages.flatten = rest.map fun a => historyEntry a.record
  replies : ∀ j request, run.requests[j]? = some request →
    (serveHistory J W describe others (logs (k + j)) (fill (k + j)) request.toVec).length ≤
      maxResponseBytes
  cursors : ∀ j request c, run.requests[j]? = some request → request.cursor = some c →
    ∃ log, logs (k + j) = some log ∧ validatePosition log c.position = .ok ()
  increasing : (run.requests.filterMap Request.cursor).Pairwise fun c c' => c.offset < c'.offset

variable {H : Bytes} {logs : Nat → Option Bytes} {fill : Nat → Nat → Nat}

/-- One more exchange in front of a run. -/
theorem Pages.after {k : Nat} {kept left : List HistoryRecordAt} {run : HistoryRun}
    (h : Pages J W describe others logs fill left (k + 1) run) {cursor : Option HistoryCursor}
    {rendered : List (List HistoryEntry)}
    (hrendered : rendered.flatten = kept.map fun a => historyEntry a.record)
    (hreply : (serveHistory J W describe others (logs k) (fill k)
      (Request.hist none cursor).toVec).length ≤ maxResponseBytes)
    (hvalid : ∀ c ∈ cursor, ∃ log, logs k = some log ∧ validatePosition log c.position = .ok ())
    (hlater : ∀ c ∈ cursor, ∀ c' ∈ run.requests.filterMap Request.cursor, c.offset < c'.offset) :
    Pages J W describe others logs fill (kept ++ left) k
      (run.after (.hist none cursor) rendered) where
  result := h.result
  pages := by
    change (rendered ++ run.pages).flatten = _
    rw [List.flatten_append, hrendered, h.pages, List.map_append]
  replies j request hj := by
    cases j with
    | zero =>
      obtain rfl := Option.some.inj hj
      exact hreply
    | succ j =>
      have := h.replies j request hj
      rwa [Nat.add_assoc, Nat.add_comm 1 j] at this
  cursors j request c hj hc := by
    cases j with
    | zero =>
      obtain rfl := Option.some.inj hj
      exact hvalid c hc
    | succ j =>
      have := h.cursors j request c hj hc
      rwa [Nat.add_assoc, Nat.add_comm 1 j] at this
  increasing := by
    change ((Request.hist none cursor :: run.requests).filterMap Request.cursor).Pairwise _
    rw [List.filterMap_cons]
    cases cursor with
    | none => exact h.increasing
    | some c => exact List.pairwise_cons.2 ⟨hlater c rfl, h.increasing⟩

/-- The exchange of the `k`-th request. -/
def askHistory (J : SerdeJson) (W : WireJson) (describe : StoreError → String)
    (others : Request → Response) (logs : Nat → Option Bytes) (fill : Nat → Nat → Nat) (k : Nat) :
    Request → Except ClientError Response :=
  transact W (serveHistory J W describe others (logs k) (fill k))

theorem Pages.done (k : Nat) (found : Bool) :
    Pages J W describe others logs fill [] k ⟨if found then [] else [[]], [], some (.ok ())⟩ where
  result := rfl
  pages := by cases found <;> rfl
  replies := nofun
  cursors := nofun
  increasing := List.Pairwise.nil

/-- A request at a position of the snapshot, when the run goes on well from every later position. -/
theorem runHistoryPages_step {fuel k offset : Nat} {cursor : Option HistoryCursor} {found : Bool}
    {rest : List HistoryRecordAt} {X : Bytes} (hlog : logs k = some (H ++ X))
    (hres : Resumes J (H ++ X) H.length offset rest)
    (hv : validateCursor (H ++ X) (cursor.map HistoryCursor.position) = .ok ())
    (ho : pageOffsets J (H ++ X) (cursor.map HistoryCursor.position) none = (offset, H.length))
    (halone : ∀ a ∈ rest, a.FitsAlone)
    (hcursor : ∀ c ∈ cursor, c.offset = offset ∧ c.offset < 2 ^ 64 ∧ c.endOffset < 2 ^ 64)
    (hlater : ∀ left c' found', Continues J H H.length offset left c' → (∀ a ∈ left, a.FitsAlone) →
      let run := runHistoryPages (askHistory J W describe others logs fill) none fuel
        (k + 1) (some c') found'
      Pages J W describe others logs fill left (k + 1) run ∧
        ∀ c ∈ run.requests.filterMap Request.cursor, c'.offset ≤ c.offset) :
    let run := runHistoryPages (askHistory J W describe others logs fill) none (fuel + 1)
      k cursor found
    Pages J W describe others logs fill rest k run ∧
      ∀ c ∈ run.requests.filterMap Request.cursor, offset ≤ c.offset := by
  obtain ⟨kept, left, nextCursor, hrest, -, hdispatch, hlength, hdone, hmore⟩ :=
    hist_reply describe (fill k) (by simp) hres hv ho halone
  have hrequest : (Request.hist none cursor).toVec.length ≤ maxRequestBytes :=
    length_hist_le fun c hc => (hcursor c hc).2
  rw [← hlog] at hdispatch
  obtain ⟨hserve, hask⟩ := @serveHistory_hist J W describe others _ _ _ hrequest _ hdispatch hlength
  have hask : askHistory J W describe others logs fill k (.hist none cursor) =
      .ok (.ok none none (some (kept.map fun a => historyEntry a.record)) nextCursor) := hask
  have hreply : (serveHistory J W describe others (logs k) (fill k)
      (Request.hist none cursor).toVec).length ≤ maxResponseBytes := by
    rw [hserve]
    exact hlength
  have hvalid : ∀ c ∈ cursor, ∃ log, logs k = some log ∧
      validatePosition log c.position = .ok () := by
    rintro c rfl
    exact ⟨_, hlog, hv⟩
  have hflatten : ∀ es : List HistoryEntry, (if es.isEmpty then [] else [es]).flatten = es := by
    intro es
    cases es <;> simp
  intro run
  rw [hrest]
  cases nextCursor with
  | none =>
    have hrun := runHistoryPages_last fuel found hask
    rw [show run = _ from hrun, hdone rfl]
    refine ⟨(Pages.done (k + 1) _).after (hflatten _) hreply hvalid nofun, ?_⟩
    intro c hc
    cases cursor with
    | none => cases hc
    | some c' =>
      obtain rfl := List.mem_singleton.1 hc
      exact (hcursor c rfl).1.ge
  | some c' =>
    have hnext := (hmore c' rfl).of_append
    have hgt := hnext.gt
    have hmoved : cursor ≠ some c' := by
      intro h
      have := (hcursor c' h).1
      omega
    have hrun := runHistoryPages_next fuel found hask hmoved
    rw [show run = _ from hrun]
    obtain ⟨hpages, hcursors⟩ :=
      hlater left c' (found || !(kept.map fun a => historyEntry a.record).isEmpty)
      hnext fun a ha => halone a (by rw [hrest]; exact List.mem_append_right kept ha)
    refine ⟨hpages.after (hflatten _) hreply hvalid ?_, ?_⟩
    · intro c hc c'' hc''
      have := hcursors c'' hc''
      have := (hcursor c hc).1
      omega
    · intro c hc
      change c ∈ (Request.hist none cursor :: _).filterMap Request.cursor at hc
      rw [List.filterMap_cons] at hc
      cases cursor with
      | none =>
        have := hcursors c hc
        omega
      | some c₀ =>
        rcases List.mem_cons.1 hc with rfl | hc
        · exact (hcursor c rfl).1.ge
        · have := hcursors c hc
          omega

/-- The requests that follow a cursor of the snapshot. The induction is on the fuel: each page moves
the cursor on, so the bytes behind it bound the requests. -/
theorem runHistoryPages_cursor (hlogs : ∀ k, ∃ X, logs k = some (H ++ X))
    (hsize : H.length < 2 ^ 64) {fuel : Nat} :
    ∀ {k offset : Nat} {rest : List HistoryRecordAt} {c : HistoryCursor} {found : Bool},
      Continues J H H.length offset rest c → (∀ a ∈ rest, a.FitsAlone) →
      H.length - c.offset < fuel →
      let run := runHistoryPages (askHistory J W describe others logs fill) none fuel k (some c)
        found
      Pages J W describe others logs fill rest k run ∧
        ∀ c' ∈ run.requests.filterMap Request.cursor, c.offset ≤ c'.offset := by
  induction fuel with
  | zero =>
    intro k offset rest c found _ _ hfuel
    omega
  | succ fuel ih =>
    intro k offset rest c found hc halone hfuel
    obtain ⟨X, hlog⟩ := hlogs k
    have hlt := hc.lt
    have hend := hc.endOffset_eq
    have hvalid : validateCursor (H ++ X) ((some c).map HistoryCursor.position) = .ok () :=
      hc.validate X
    apply runHistoryPages_step hlog (hc.resumes.append X) hvalid _ halone
    · intro c' hc'
      obtain rfl := Option.some.inj hc'
      exact ⟨rfl, by omega, by omega⟩
    · intro left c' found' hc' halone'
      have hgt := hc'.gt
      have hlt' := hc'.lt
      exact ih hc' halone' (by omega)
    · rw [← hend]
      rfl

/-- The requests of a client that starts without a cursor. -/
theorem runHistoryPages_all (hlogs : ∀ k, ∃ X, logs k = some (H ++ X)) (hzero : logs 0 = some H)
    (hsize : H.length < 2 ^ 64) (halone : ∀ a ∈ recordsAt J H.length 0 H, a.FitsAlone) {fuel : Nat}
    (hfuel : H.length < fuel) :
    Pages J W describe others logs fill (recordsAt J H.length 0 H) 0
      (runHistoryPages (askHistory J W describe others logs fill) none fuel 0 none false) := by
  obtain ⟨fuel, rfl⟩ := Nat.exists_eq_add_of_lt (Nat.zero_lt_of_lt hfuel)
  rw [Nat.zero_add] at hfuel ⊢
  rw [← List.append_nil H] at hzero
  have hoffsets : pageOffsets J (H ++ []) ((none : Option HistoryCursor).map HistoryCursor.position)
      none = (0, H.length) := by
    rw [List.append_nil]
    rfl
  have hcursor : ∀ c ∈ (none : Option HistoryCursor), c.offset = 0 ∧ c.offset < 2 ^ 64 ∧
      c.endOffset < 2 ^ 64 := fun _ h => nomatch h
  refine (runHistoryPages_step hzero ((resumes_zero J H).append []) rfl hoffsets halone
    hcursor ?_).1
  · intro left c' found' hc' halone'
    have hgt := hc'.gt
    have hlt := hc'.lt
    exact runHistoryPages_cursor hlogs hsize hc' halone' (by omega)

/-- A log that only grows holds its first content at every request. -/
theorem logs_append (hzero : logs 0 = some H)
    (hgrows : ∀ k log, logs k = some log → ∃ X, logs (k + 1) = some (log ++ X)) (k : Nat) :
    ∃ X, logs k = some (H ++ X) := by
  induction k with
  | zero => exact ⟨[], by rw [hzero, List.append_nil]⟩
  | succ k ih =>
    obtain ⟨X, hX⟩ := ih
    obtain ⟨Y, hY⟩ := hgrows k _ hX
    exact ⟨X ++ Y, by rw [hY, List.append_assoc]⟩

/-- Without a log the only page is empty. -/
theorem runHistoryPages_none (hzero : logs 0 = none) (fuel : Nat) :
    Pages J W describe others logs fill [] 0
      (runHistoryPages (askHistory J W describe others logs fill) none (fuel + 1) 0
        none false) := by
  have hlength : (Response.ofHistory [] none).toVec.length ≤ maxResponseBytes := by decide +kernel
  obtain ⟨hserve, hask⟩ := @serveHistory_hist J W describe others (logs 0) (fill 0) none
    (by decide +kernel) (.ofHistory [] none) (by rw [hzero]; rfl) hlength
  have hask : askHistory J W describe others logs fill 0 (.hist none none) =
      .ok (.ok none none (some []) none) := hask
  rw [runHistoryPages_last fuel false hask]
  have hreply : (serveHistory J W describe others (logs 0) (fill 0)
      (Request.hist none none).toVec).length ≤ maxResponseBytes := by
    rw [hserve]
    exact hlength
  change Pages J W describe others logs fill ([] ++ []) 0 _
  exact (Pages.done 1 false).after rfl hreply nofun nofun

end Runs

/-- The client's pages are the records of the log at its first request, whatever is appended between
its requests: it stops, each cursor it sends back is valid, the cursors move on and no reply is too
long. Offsets are those of a file, so they fit 64 bits. -/
theorem history_pages_exact (J : SerdeJson) (W : WireJson) (describe : StoreError → String)
    (others : Request → Response) (logs : Nat → Option Bytes) (fill : Nat → Nat → Nat)
    (hgrows : ∀ k log, logs k = some log → ∃ X, logs (k + 1) = some (log ++ X))
    (hsize : ((logs 0).getD []).length < 2 ^ 64)
    (halone : ∀ a ∈ recordsAt J ((logs 0).getD []).length 0 ((logs 0).getD []), a.FitsAlone)
    (fuel : Nat) (hfuel : ((logs 0).getD []).length < fuel) :
    let run := runHistoryPages (askHistory J W describe others logs fill) none fuel 0 none false
    run.result = some (.ok ()) ∧
      run.pages.flatten = (historyRecords J ((logs 0).getD [])).map historyEntry ∧
      (∀ j request c, run.requests[j]? = some request → request.cursor = some c →
        ∃ log, logs j = some log ∧ validatePosition log c.position = .ok ()) ∧
      (run.requests.filterMap Request.cursor).Pairwise (fun c c' => c.offset < c'.offset) ∧
      ∀ j request, run.requests[j]? = some request →
        (serveHistory J W describe others (logs j) (fill j) request.toVec).length ≤
          maxResponseBytes := by
  intro run
  have hpages : Pages J W describe others logs fill
      (recordsAt J ((logs 0).getD []).length 0 ((logs 0).getD [])) 0 run := by
    cases hzero : logs 0 with
    | none =>
      rw [hzero] at hfuel
      obtain ⟨fuel, rfl⟩ := Nat.exists_eq_add_of_lt hfuel
      exact runHistoryPages_none hzero _
    | some H =>
      rw [hzero] at hsize halone hfuel
      exact runHistoryPages_all (logs_append hzero hgrows) hzero hsize halone hfuel
  refine ⟨hpages.result, ?_, ?_, hpages.increasing, ?_⟩
  · rw [hpages.pages, ← map_record_recordsAt ((logs 0).getD []).length 0, List.map_map]
    rfl
  · intro j request c hj hc
    have := hpages.cursors j request c hj hc
    rwa [Nat.zero_add] at this
  · intro j request hj
    have := hpages.replies j request hj
    rwa [Nat.zero_add] at this

/-- The records of a log lie within it. -/
theorem position_of_mem_recordsAt {J : SerdeJson} {H : Bytes} {a : HistoryRecordAt}
    (h : a ∈ recordsAt J H.length 0 H) :
    a.positionAfter.offset ≤ H.length ∧ a.positionAfter.endOffset = H.length := by
  obtain ⟨pre, post, hsplit⟩ := List.append_of_mem h
  have hres := resumes_zero J H
  rw [hsplit] at hres
  obtain ⟨hafter, hend, -⟩ := Resumes.after (Nat.le_refl _) (Nat.le_refl _) hres
  exact ⟨hafter.le, hend⟩

/-- A record fits one response if its entry leaves 200 bytes of it. -/
theorem HistoryRecordAt.fitsAlone_of_le {a : HistoryRecordAt}
    (hoffset : a.positionAfter.offset < 2 ^ 64) (hend : a.positionAfter.endOffset < 2 ^ 64)
    (h : (historyEntry a.record).toVec.length + 200 ≤ maxResponseBytes) : a.FitsAlone :=
  (historyResponseSize_le _ (by rintro c ⟨⟩; exact ⟨hoffset, hend⟩)).trans h

/-- Each request is made with the cursor the run has come to. -/
theorem runHistoryPages_head (ask : Nat → Request → Except ClientError Response)
    (limit : Option Nat) (fuel k : Nat) (cursor : Option HistoryCursor) (found : Bool) :
    (runHistoryPages ask limit (fuel + 1) k cursor found).requests.head? =
      some (.hist (if cursor.isNone then limit else none) cursor) := by
  rw [runHistoryPages]
  dsimp only
  split
  · rfl
  · rfl
  · split <;> rfl
  · rfl

/-- A log of more records than a page holds takes a second request, with a cursor. -/
theorem runHistoryPages_second {J : SerdeJson} {W : WireJson} {describe : StoreError → String}
    {others : Request → Response} {logs : Nat → Option Bytes} {fill : Nat → Nat → Nat} {H : Bytes}
    (hzero : logs 0 = some H) (halone : ∀ a ∈ recordsAt J H.length 0 H, a.FitsAlone)
    (hmany : historyReadPageSize < (historyRecords J H).length) (fuel : Nat) :
    ∃ c, (runHistoryPages (askHistory J W describe others logs fill) none (fuel + 2) 0 none
      false).requests[1]? = some (.hist none (some c)) := by
  obtain ⟨kept, left, nextCursor, hrest, hpage, hdispatch, hlength, hdone, -⟩ :=
    @hist_reply J H 0 H.length _ describe (fill 0) (Nat.le_refl _) (resumes_zero J H) none
      rfl rfl halone
  rw [← hzero] at hdispatch
  obtain ⟨-, hask⟩ := @serveHistory_hist J W describe others _ _ _
    (length_hist_le fun c hc => (Option.not_mem_none c hc).elim) _ hdispatch hlength
  have hask : askHistory J W describe others logs fill 0 (.hist none none) =
      .ok (.ok none none (some (kept.map fun a => historyEntry a.record)) nextCursor) := hask
  cases nextCursor with
  | none =>
    -- one page does not hold all the records
    rw [hdone rfl, List.append_nil] at hrest
    rw [← map_record_recordsAt H.length 0, List.length_map, hrest] at hmany
    omega
  | some c =>
    refine ⟨c, ?_⟩
    rw [runHistoryPages_next (fuel + 1) false hask nofun]
    change (Request.hist none none :: _)[0 + 1]? = _
    rw [List.getElem?_cons_succ, ← List.head?_eq_getElem?, runHistoryPages_head]
    rfl

/-- A log with `n` lines for the sample record. -/
def sampleLines (n : Nat) : Bytes := (List.replicate n (shortRecord.toVec ++ [nl])).flatten

theorem historyRecords_sampleLines (n : Nat) :
    historyRecords serdeJson (sampleLines n) = List.replicate n shortRecord := by
  induction n with
  | zero => rfl
  | succ n ih =>
    unfold sampleLines at ih ⊢
    rw [List.replicate_succ, List.flatten_cons, historyRecords_append (closed_append_singleton _),
      historyRecords_line fitsLine_shortRecord, ih]
    rfl

theorem length_sampleLines (n : Nat) :
    (sampleLines n).length = n * (shortRecord.toVec ++ [nl]).length := by
  simp [sampleLines]

/-- A log of two pages that grows by a byte between any two requests: the second page is asked for
with a cursor, which the daemon accepts. -/
theorem history_pages_exact_second :
    let logs := fun k => some (sampleLines 70 ++ List.replicate k 97)
    let run := runHistoryPages
      (askHistory serdeJson wireJson (fun _ => "") (fun _ => .error "") logs (fun _ _ => 0)) none
      ((sampleLines 70).length + 2) 0 none false
    run.pages.flatten = List.replicate 70 (historyEntry shortRecord) ∧
    ∃ c, run.requests[1]? = some (.hist none (some c)) ∧
      validatePosition (sampleLines 70 ++ [97]) c.position = .ok () := by
  -- the log is not to be written out
  generalize hn : (70 : Nat) = n
  intro logs
  dsimp only
  have hzero : logs 0 = some (sampleLines n) := congrArg some (List.append_nil _)
  have hlog : (logs 0).getD [] = sampleLines n := by rw [hzero, Option.getD_some]
  have hrecords := historyRecords_sampleLines n
  have hlength := length_sampleLines n
  have hline : (shortRecord.toVec ++ [nl]).length < 1000 ∧
      (historyEntry shortRecord).toVec.length + 200 ≤ maxResponseBytes := by decide +kernel
  have hsize : (sampleLines n).length < 2 ^ 64 := by
    rw [hlength, ← hn]
    omega
  have halone : ∀ a ∈ recordsAt serdeJson (sampleLines n).length 0 (sampleLines n),
      a.FitsAlone := by
    intro a ha
    obtain ⟨hoffset, hend⟩ := position_of_mem_recordsAt ha
    have hmem := List.mem_map_of_mem (f := HistoryRecordAt.record) ha
    rw [map_record_recordsAt, hrecords] at hmem
    apply HistoryRecordAt.fitsAlone_of_le (by omega) (by omega)
    rw [List.eq_of_mem_replicate hmem]
    exact hline.2
  have hgrows : ∀ k log, logs k = some log → ∃ X, logs (k + 1) = some (log ++ X) := by
    intro k log hk
    obtain rfl := Option.some.inj hk
    exact ⟨[97], by rw [List.append_assoc, ← List.replicate_succ']⟩
  obtain ⟨-, hpages, hcursors, -⟩ := history_pages_exact serdeJson wireJson (fun _ => "")
    (fun _ => .error "") logs (fun _ _ => 0) hgrows (by rw [hlog]; exact hsize)
    (by rw [hlog]; exact halone) ((sampleLines n).length + 2) (by rw [hlog]; omega)
  rw [hlog, hrecords, List.map_replicate] at hpages
  obtain ⟨c, hc⟩ := @runHistoryPages_second serdeJson wireJson (fun _ => "")
    (fun _ => .error "") logs (fun _ _ => 0) _ hzero halone
    (by rw [hrecords, List.length_replicate, ← hn]; decide)
    (sampleLines n).length
  obtain ⟨log, hone, hvalid⟩ := hcursors 1 _ c hc rfl
  have hnext : logs 1 = some (sampleLines n ++ [97]) := by simp only [logs, List.replicate_one]
  rw [hnext, Option.some.injEq] at hone
  rw [hone]
  exact ⟨hpages, c, hc, hvalid⟩

end Comenq
