import Comenq.Store.HistoryPages
import Comenq.Store.Codec
import Comenq.Verify.HistoryLog

/-!
# The two history readers

The forward reader and the reverse scan cut the log into lines independently of each other. They
agree on every line but one kind: the forward reader counts the delimiter against the line cap, the
reverse scan does not, so a finished record whose text alone fills the cap is offered by the scan
and skipped by the reader (`CapLine`). `offered_eq_iff`: the two lists of records are the same
exactly when the region has no such line.

The same difference shows in an append: a record without delimiter that fills the cap is readable
until the next append finishes its line (`CapTail`).

`readPages` follows the cursors of a page to the end of its snapshot, and `ReadsForward` is what a
log holds for such a reader, whatever the page size and the buffering.
-/

namespace Comenq

open JsonText LineLog Traced CrashTrace

/-! ## Offers -/

section Offers

variable {σ : Type} (accept : σ → Nat → HistoryRecord → σ × Bool)

/-- Offer records with the offsets of their lines until one is accepted. -/
def offerRecords : σ → List (Nat × HistoryRecord) → σ × Option HistoryRecord
  | s, [] => (s, none)
  | s, (offset, record) :: rest =>
    match accept s offset record with
    | (s', true) => (s', some record)
    | (s', false) => offerRecords s' rest

/-- The scan passes over segments without a record. -/
theorem offerAll_eq (J : SerdeJson) (segs : List (Nat × Bytes)) (s : σ) :
    offerAll J accept s segs =
      offerRecords accept s (segs.filterMap fun p => (segmentRecord J p.2).map (Prod.mk p.1)) := by
  induction segs generalizing s with
  | nil => rfl
  | cons p segs ih =>
    obtain ⟨offset, seg⟩ := p
    rw [List.filterMap_cons, offerAll]
    cases segmentRecord J seg with
    | none => exact ih s
    | some record =>
      rw [Option.map_some, offerOne, offerRecords]
      rcases accept s offset record with ⟨s', _ | _⟩
      · exact ih s'
      · rfl

/-- A caller that accepts nothing sees all of the records. -/
theorem offerRecords_collect (l seen : List (Nat × HistoryRecord)) :
    offerRecords (fun s offset record => (s ++ [(offset, record)], false)) seen l =
      (seen ++ l, none) := by
  induction l generalizing seen with
  | nil => rw [offerRecords, List.append_nil]
  | cons p l ih =>
    rw [offerRecords]
    simp only
    rw [ih, List.append_assoc]
    rfl

/-- A caller that counts to `limit` stops at the last record it needs. -/
theorem offerRecords_count {limit : Nat} (l : List (Nat × HistoryRecord)) {offset count : Nat}
    (h : count < limit) :
    (offerRecords (fun (s : Nat × Nat) start _ => ((start, s.2 + 1), s.2 + 1 == limit))
      (offset, count) l).1.1 = ((l.take (limit - count)).map Prod.fst).getLastD offset := by
  induction l generalizing offset count with
  | nil => rw [List.take_nil]; rfl
  | cons p l ih =>
    obtain ⟨k, hk⟩ : ∃ k, limit - count = k + 1 := ⟨limit - count - 1, by omega⟩
    rw [offerRecords, hk, List.take_succ_cons, List.map_cons, List.getLastD_cons]
    by_cases hlast : count + 1 = limit
    · obtain rfl : k = 0 := by omega
      simp [hlast]
    · have hbeq : (count + 1 == limit) = false := by simpa using hlast
      have hnext := @ih p.1 (count + 1) (by omega)
      rw [show limit - (count + 1) = k by omega] at hnext
      simp only [hbeq]
      exact hnext

end Offers

/-! ## Where the readers agree -/

section Agree

variable (J : SerdeJson)

/-- The readable records of a region that starts at `offset`, with the offsets of their lines. -/
def recordsFrom (offset : Nat) (xs : Bytes) : List (Nat × HistoryRecord) :=
  (located offset (lines nl xs)).filterMap fun p => (lineRecord J p.2).map (Prod.mk p.1)

/-- What the scan makes of the same lines. -/
def recordsOffered (offset : Nat) (xs : Bytes) : List (Nat × HistoryRecord) :=
  (located offset (lines nl xs)).filterMap fun p =>
    (segmentRecord J (content nl p.2)).map (Prod.mk p.1)

/-- A finished line whose record fills the line cap without the delimiter. -/
def CapLine (line : Bytes) : Prop :=
  ∃ t, line = t ++ [nl] ∧ t.length = maxHistoryLineBytes ∧ (segmentRecord J t).isSome = true

variable {J}

/-- Finishing a line matters only at the cap. -/
theorem lineRecord_nl {t : Bytes} (h : t.length = maxHistoryLineBytes → segmentRecord J t = none) :
    lineRecord J (t ++ [nl]) = segmentRecord J t := by
  have hlen : (t ++ [nl]).length = t.length + 1 := List.length_append
  rcases Nat.lt_trichotomy t.length maxHistoryLineBytes with hlt | heq | hgt
  · have hall : (t ++ [nl]).all isAsciiWhitespace = t.all isAsciiWhitespace := by
      rw [List.all_append]
      exact Bool.and_true _
    unfold lineRecord segmentRecord
    rw [if_neg (Nat.not_lt.2 (by omega)), if_neg (Nat.not_lt.2 (by omega)), hall, J.record_nl]
  · rw [h heq]
    unfold lineRecord
    rw [if_pos (by omega)]
  · unfold lineRecord segmentRecord
    rw [if_pos (by omega), if_pos (by omega)]

theorem lineRecord_capLine {line : Bytes} (h : CapLine J line) : lineRecord J line = none := by
  obtain ⟨t, rfl, hlen, -⟩ := h
  unfold lineRecord
  rw [if_pos (by rw [List.length_append, hlen]; exact Nat.lt_succ_self _)]

theorem segmentRecord_capLine {line : Bytes} (h : CapLine J line) :
    (segmentRecord J (content nl line)).isSome = true := by
  obtain ⟨t, rfl, -, hrec⟩ := h
  rw [content_append_singleton]
  exact hrec

theorem segmentRecord_content {line : Bytes} (h : ¬ CapLine J line) :
    segmentRecord J (content nl line) = lineRecord J line := by
  by_cases hlast : line.getLast? = some nl
  · obtain ⟨t, rfl⟩ : ∃ t, line = t ++ [nl] := List.getLast?_eq_some_iff.1 hlast
    rw [content_append_singleton]
    refine (lineRecord_nl fun hlen => ?_).symm
    by_contra hne
    exact h ⟨t, rfl, hlen, Option.isSome_iff_ne_none.2 hne⟩
  · unfold content
    rw [if_neg hlast]
    rfl

/-- The two readers find the same records exactly when no line fills the cap. -/
theorem offered_eq_iff (offset : Nat) (xs : Bytes) :
    recordsOffered J offset xs = recordsFrom J offset xs ↔
      ∀ line ∈ lines nl xs, ¬ CapLine J line := by
  unfold recordsOffered recordsFrom
  rw [filterMap_eq_iff]
  · constructor
    · intro hall line hline hcap
      rw [← map_snd_located offset (lines nl xs)] at hline
      obtain ⟨p, hp, rfl⟩ := List.mem_map.1 hline
      have heq := hall p hp
      rw [lineRecord_capLine hcap, Option.map_none, Option.map_eq_none_iff] at heq
      have hsome := segmentRecord_capLine hcap
      rw [heq] at hsome
      cases hsome
    · intro hno p hp
      have hline : p.2 ∈ lines nl xs := by
        rw [← map_snd_located offset (lines nl xs)]
        exact List.mem_map_of_mem hp
      rw [segmentRecord_content (hno p.2 hline)]
  · intro p _
    by_cases hcap : CapLine J p.2
    · exact Or.inl (by rw [lineRecord_capLine hcap]; rfl)
    · exact Or.inr (by rw [segmentRecord_content hcap])

/-- The scan offers what it makes of the lines of its region, last one first. -/
theorem scanReverse_eq_offered {σ : Type} (accept : σ → Nat → HistoryRecord → σ × Bool)
    {log : Bytes} {endOffset : Nat} (he : endOffset ≤ log.length) (minimum : Nat) (s : σ) :
    scanReverse J accept log endOffset minimum s =
      offerRecords accept s (recordsOffered J minimum (slice log minimum endOffset)).reverse := by
  rw [scanReverse_eq J accept he, offerAll_eq, segmentsAt_eq, List.filterMap_reverse,
    List.filterMap_append, List.filterMap_map]
  have hend : ∀ c : Prop, [Decidable c] → ∀ o : Nat,
      (if c then [(o, ([] : Bytes))] else []).filterMap
        (fun p => (segmentRecord J p.2).map (Prod.mk p.1)) = [] := by
    intro c _ o
    split <;> rfl
  rw [hend, List.append_nil]
  rfl

end Agree

/-! ## Following the cursors of a page -/

section Pages

variable (J : SerdeJson)

/-- Read a page and the pages its cursors lead to. `fill` is the buffering of each read; there is no
result when the rounds do not suffice. -/
def readPages (log : Bytes) (fill : Nat → Nat → Nat) (pageSize : Nat) :
    Nat → Option HistoryPosition → Option Nat → Option (Except StoreError (List HistoryRecordAt))
  | 0, _, _ => none
  | rounds + 1, position, recentLimit =>
    match readPage J (some log) (fill rounds) position recentLimit pageSize with
    | .error e => some (.error e)
    | .ok page =>
      match page.next with
      | none => some (.ok page.records)
      | some next =>
        (readPages log fill pageSize rounds (some next) none).map (·.map (page.records ++ ·))

variable {J}

theorem readPage_eq {log : Bytes} (fill : Nat → Nat) {offset endOffset pageSize : Nat}
    (he : endOffset ≤ log.length) (hp : 0 < pageSize) {rest : List HistoryRecordAt}
    (hres : Resumes J log endOffset offset rest) {position : Option HistoryPosition}
    {recentLimit : Option Nat} (hv : validateCursor log position = .ok ())
    (ho : pageOffsets J log position recentLimit = (offset, endOffset)) :
    ∃ page, readPage J (some log) fill position recentLimit pageSize = .ok page ∧
      page.Reads J log endOffset offset pageSize rest := by
  unfold readPage
  rw [if_neg (by omega)]
  simp only
  rw [ho]
  exact readSnapshotPage_eq fill he hp hres hv

/-- The pages together hold what is left of the snapshot. The induction is on the rounds: a page
with a cursor has consumed part of it. -/
theorem readPages_eq {log : Bytes} (fill : Nat → Nat → Nat) {endOffset pageSize rounds : Nat}
    (he : endOffset ≤ log.length) (hp : 0 < pageSize) :
    ∀ {offset : Nat} {rest : List HistoryRecordAt} {position : Option HistoryPosition}
      {recentLimit : Option Nat}, Resumes J log endOffset offset rest →
      validateCursor log position = .ok () →
      pageOffsets J log position recentLimit = (offset, endOffset) → endOffset - offset < rounds →
      readPages J log fill pageSize rounds position recentLimit = some (.ok rest) := by
  induction rounds with
  | zero => intro offset rest position recentLimit _ _ _ hr; omega
  | succ rounds ih =>
    intro offset rest position recentLimit hres hv ho hr
    obtain ⟨page, hok, hreads⟩ := readPage_eq (fill rounds) he hp hres hv ho
    rw [readPages, hok]
    simp only
    cases hnext : page.next with
    | none =>
      simp only
      rw [hreads.records, List.take_of_length_le (List.drop_eq_nil_iff.1 (hreads.none hnext))]
    | some next =>
      obtain ⟨hend, hgt, hlt, hstart, hrest⟩ := hreads.some hnext
      have hv' : validateCursor log (some next) = .ok () := by
        obtain ⟨o, e⟩ := next
        obtain rfl : e = endOffset := hend
        exact validatePosition_ok he (Nat.le_of_lt hlt) (hstart hlt)
      have ho' : pageOffsets J log (some next) none = (next.offset, endOffset) := by
        rw [← hend]
        rfl
      simp only
      rw [ih hrest hv' ho' (by omega), hreads.records]
      simp only [Option.map_some, Except.map, List.take_append_drop]

theorem slice_all (log : Bytes) : slice log 0 log.length = log := by
  unfold slice
  rw [List.take_length, List.drop_zero]

theorem resumes_zero (J : SerdeJson) (log : Bytes) :
    Resumes J log log.length 0 (recordsAt J log.length 0 log) :=
  ⟨Nat.zero_le _, by rw [slice_all]⟩

theorem readPages_all (J : SerdeJson) (log : Bytes) (fill : Nat → Nat → Nat) {pageSize : Nat}
    (hp : 0 < pageSize) :
    readPages J log fill pageSize (log.length + 1) none none =
      some (.ok (recordsAt J log.length 0 log)) :=
  readPages_eq fill (Nat.le_refl _) hp (resumes_zero J log) rfl rfl (Nat.lt_succ_self _)

theorem recordsFrom_nil (offset : Nat) : recordsFrom J offset [] = [] := rfl

/-- From the line of each record of a region, the region's records follow from that one on. The
induction is on what is left of the snapshot. -/
theorem Resumes.headD {file : Bytes} {endOffset : Nat} (he : endOffset ≤ file.length) :
    ∀ {n offset : Nat} {rest : List HistoryRecordAt} (i : Nat), endOffset - offset ≤ n →
      Resumes J file endOffset offset rest →
      Resumes J file endOffset
        ((((recordsFrom J offset (slice file offset endOffset)).drop i).map Prod.fst).headD
          endOffset) (rest.drop i) := by
  intro n
  induction n with
  | zero =>
    intro offset rest i hn h
    have hle := h.le
    obtain rfl : offset = endOffset := by omega
    obtain rfl : rest = [] := h.rest_eq.symm.trans resumes_end.rest_eq
    rw [slice_eq_nil (Nat.le_refl _), recordsFrom_nil, List.drop_nil, List.drop_nil]
    exact resumes_end
  | succ n ih =>
    intro offset rest i hn h
    by_cases hlt : offset < endOffset
    · set line := firstLine nl (slice file offset endOffset) with hline
      have hpos : 0 < line.length := List.length_pos_iff.2 (firstLine_ne_nil (slice_ne_nil he hlt))
      have hnext := resumes_firstLine (J := J) he hlt (congrArg List.length hline)
      have hfrom : recordsFrom J offset (slice file offset endOffset) =
          ((lineRecord J line).map (Prod.mk offset)).toList ++
            recordsFrom J (offset + line.length) (slice file (offset + line.length) endOffset) := by
        unfold recordsFrom
        rw [lines_eq_cons (slice_ne_nil he hlt), drop_slice, ← hline, located, List.filterMap_cons]
        cases lineRecord J line <;> rfl
      have hrest := h.rest_eq
      rw [recordsAt_cons (slice_ne_nil he hlt), drop_slice, ← hline] at hrest
      unfold recordAt at hrest
      rw [hfrom]
      cases hrec : lineRecord J line with
      | none =>
        rw [hrec, Option.map_none, Option.toList_none, List.nil_append] at hrest
        rw [hrest] at hnext
        exact ih i (by omega) hnext
      | some r =>
        cases i with
        | zero => exact h
        | succ i =>
          rw [hrec, Option.map_some, Option.toList_some, List.singleton_append] at hrest
          rw [← hrest]
          exact ih i (by omega) hnext
    · have hle := h.le
      obtain rfl : offset = endOffset := by omega
      obtain rfl : rest = [] := h.rest_eq.symm.trans resumes_end.rest_eq
      rw [slice_eq_nil (Nat.le_refl _), recordsFrom_nil, List.drop_nil, List.drop_nil]
      exact resumes_end

/-- The search for the newest `limit` records stops at the last one it counts. -/
theorem recentStart_offered (log : Bytes) {limit : Nat} (hl : 0 < limit) :
    recentStart J log log.length limit =
      (((recordsOffered J 0 log).reverse.take limit).map Prod.fst).getLastD log.length := by
  unfold recentStart
  rw [scanReverse_eq_offered _ (Nat.le_refl _), slice_all, offerRecords_count _ hl, Nat.sub_zero]

/-- The newest `limit` records start at the line of the first of them. -/
theorem recentStart_eq {log : Bytes} (hno : ∀ line ∈ lines nl log, ¬ CapLine J line) {limit : Nat}
    (hl : 0 < limit) :
    recentStart J log log.length limit =
      (((recordsFrom J 0 log).drop ((recordsFrom J 0 log).length - limit)).map Prod.fst).headD
        log.length := by
  rw [recentStart_offered log hl, (offered_eq_iff 0 log).2 hno, List.take_reverse, List.map_reverse]
  generalize ((recordsFrom J 0 log).drop ((recordsFrom J 0 log).length - limit)).map Prod.fst =
    offsets
  rw [List.getLastD_eq_getLast?, List.getLast?_reverse, List.headD_eq_head?_getD]

theorem map_snd_recordsFrom (offset : Nat) (xs : Bytes) :
    (recordsFrom J offset xs).map Prod.snd = historyRecords J xs := by
  unfold recordsFrom historyRecords collect
  rw [List.map_filterMap]
  conv_rhs => rw [← map_snd_located offset (lines nl xs), List.filterMap_map]
  congr 1
  funext p
  cases h : lineRecord J p.2 <;> simp [h]

theorem length_recordsFrom (endOffset offset : Nat) (xs : Bytes) :
    (recordsFrom J offset xs).length = (recordsAt J endOffset offset xs).length := by
  rw [← List.length_map Prod.snd, map_snd_recordsFrom, ← map_record_recordsAt endOffset offset,
    List.length_map]

theorem pageOffsets_recent (log : Bytes) (limit : Nat) :
    pageOffsets J log none (some (limit + 1)) =
      (recentStart J log log.length (limit + 1), log.length) := rfl

/-- Without lines at the cap, the newest records follow where the search for them stops. -/
theorem resumes_recent {log : Bytes} (hno : ∀ line ∈ lines nl log, ¬ CapLine J line) {limit : Nat}
    (hl : 0 < limit) :
    Resumes J log log.length (recentStart J log log.length limit)
      ((recordsAt J log.length 0 log).drop ((recordsAt J log.length 0 log).length - limit)) := by
  have hres := Resumes.headD (Nat.le_refl _) ((recordsAt J log.length 0 log).length - limit)
    (Nat.le_refl _) (resumes_zero J log)
  rwa [slice_all, ← length_recordsFrom log.length 0 log, ← recentStart_eq hno hl,
    length_recordsFrom log.length 0 log] at hres

/-- Without lines at the cap, a read of the newest records returns the last of all records. -/
theorem readPages_recent {log : Bytes} (hno : ∀ line ∈ lines nl log, ¬ CapLine J line)
    (fill : Nat → Nat → Nat) {pageSize : Nat} (hp : 0 < pageSize) (limit : Nat) :
    readPages J log fill pageSize (log.length + 1) none (some limit) =
      some (.ok ((recordsAt J log.length 0 log).drop
        ((recordsAt J log.length 0 log).length - limit))) := by
  cases limit with
  | zero =>
    rw [Nat.sub_zero, List.drop_length]
    exact readPages_eq fill (Nat.le_refl _) hp resumes_end rfl rfl (by omega)
  | succ limit =>
    exact readPages_eq fill (Nat.le_refl _) hp (resumes_recent hno (Nat.succ_pos limit)) rfl rfl
      (by omega)

end Pages

/-! ## Agreement of the readers -/

/-- The forward reader returns the records of a region whatever the buffering. The reverse scan
offers exactly those, last one first and with the offsets of their lines, when no line of the region
fills the cap, and only then. Without such a line in the log, a read of the newest `limit` records
returns the last ones of all. -/
theorem reverse_scan_agrees_iff (J : SerdeJson) {log : Bytes} {endOffset : Nat}
    (he : endOffset ≤ log.length) (minimum : Nat) :
    (∀ fill pageSize, (recordsFrom J minimum (slice log minimum endOffset)).length ≤ pageSize →
      ∃ records after, readRecords J log fill endOffset pageSize (endOffset - minimum) minimum [] =
          .ok (records, after) ∧
        records.map HistoryRecordAt.record =
          (recordsFrom J minimum (slice log minimum endOffset)).map Prod.snd) ∧
    ((∀ (σ : Type) (accept : σ → Nat → HistoryRecord → σ × Bool) (s : σ),
        scanReverse J accept log endOffset minimum s =
          offerRecords accept s (recordsFrom J minimum (slice log minimum endOffset)).reverse) ↔
      ∀ line ∈ lines nl (slice log minimum endOffset), ¬ CapLine J line) ∧
    ((∀ line ∈ lines nl log, ¬ CapLine J line) →
      ∀ fill pageSize limit, 0 < pageSize → ∃ records,
        readPages J log fill pageSize (log.length + 1) none none = some (.ok records) ∧
        records.map HistoryRecordAt.record = historyRecords J log ∧
        readPages J log fill pageSize (log.length + 1) none (some limit) =
          some (.ok (records.drop (records.length - limit)))) := by
  refine ⟨fun fill pageSize hsize => ?_, ⟨fun hagree => ?_, fun hno σ accept s => ?_⟩,
    fun hno fill pageSize limit hp => ?_⟩
  · by_cases hle : minimum ≤ endOffset
    · obtain ⟨after, hok, -⟩ := readRecords_eq (J := J) fill he (Nat.le_refl (endOffset - minimum))
        ⟨hle, rfl⟩ (show pageSize = ([] : List HistoryRecordAt).length + pageSize by simp)
      refine ⟨_, after, hok, ?_⟩
      rw [length_recordsFrom endOffset] at hsize
      rw [List.nil_append, List.take_of_length_le hsize, map_record_recordsAt, map_snd_recordsFrom]
    · rw [slice_eq_nil (by omega), show endOffset - minimum = 0 by omega]
      exact ⟨[], minimum, rfl, rfl⟩
  · -- a caller that accepts nothing tells the two lists apart
    have hlists := hagree _ (fun s offset record => (s ++ [(offset, record)], false)) []
    rw [scanReverse_eq_offered _ he, offerRecords_collect, offerRecords_collect] at hlists
    have heq := List.reverse_inj.1 (congrArg Prod.fst hlists)
    exact (offered_eq_iff _ _).1 heq
  · rw [scanReverse_eq_offered _ he, (offered_eq_iff _ _).2 hno]
  · exact ⟨_, readPages_all J log fill hp, map_record_recordsAt _ _ _,
      readPages_recent hno fill hp limit⟩

/-! ## A record at the cap -/

section Cap

variable {J : SerdeJson} {r c : HistoryRecord}

theorem segmentRecord_cap (hc : c.toVec.length = maxHistoryLineBytes) :
    segmentRecord J c.toVec = some c := by
  have hw := c.not_all_whitespace []
  rw [List.append_nil] at hw
  unfold segmentRecord
  rw [if_neg (by rw [hc]; exact Nat.lt_irrefl _), hw, J.record_toVec]
  rfl

theorem capLine_cap (hc : c.toVec.length = maxHistoryLineBytes) : CapLine J (c.toVec ++ [nl]) :=
  ⟨_, rfl, hc, by rw [segmentRecord_cap hc]; rfl⟩

theorem HistoryRecord.FitsLine.le (hr : r.FitsLine) : r.toVec.length ≤ maxHistoryLineBytes :=
  Nat.le_of_succ_le hr

theorem not_capLine_of_fitsLine (hr : r.FitsLine) : ¬ CapLine J (r.toVec ++ [nl]) := by
  rintro ⟨t, ht, hlen, -⟩
  obtain rfl := List.append_cancel_right ht
  have hfits : r.toVec.length + 1 ≤ maxHistoryLineBytes := hr
  omega

/-- The log of two finished records. -/
def twoLines (r c : HistoryRecord) : Bytes := (r.toVec ++ [nl]) ++ (c.toVec ++ [nl])

theorem lines_twoLines (r c : HistoryRecord) :
    lines nl (twoLines r c) = [r.toVec ++ [nl], c.toVec ++ [nl]] := by
  unfold twoLines
  rw [lines_append (closed_append_singleton _), lines_append_singleton r.nl_not_mem_toVec,
    lines_append_singleton c.nl_not_mem_toVec]
  rfl

theorem recordsOffered_twoLines (hr : r.FitsLine) (hc : c.toVec.length = maxHistoryLineBytes) :
    recordsOffered J 0 (twoLines r c) = [(0, r), ((r.toVec ++ [nl]).length, c)] := by
  have hshort : segmentRecord J (content nl (r.toVec ++ [nl])) = some r := by
    rw [segmentRecord_content (not_capLine_of_fitsLine hr), HistoryRecord.lineRecord_line hr]
  unfold recordsOffered
  rw [lines_twoLines, located, located, located, List.filterMap_cons, hshort, List.filterMap_cons,
    content_append_singleton, segmentRecord_cap hc, Nat.zero_add]
  rfl

theorem historyRecords_twoLines (hr : r.FitsLine) (hc : c.toVec.length = maxHistoryLineBytes) :
    historyRecords J (twoLines r c) = [r] := by
  unfold historyRecords collect
  rw [lines_twoLines, List.filterMap_cons, HistoryRecord.lineRecord_line hr, List.filterMap_cons,
    lineRecord_capLine (capLine_cap hc)]
  rfl

/-- The search for the newest record stops at the last line. -/
theorem recentStart_twoLines (hr : r.FitsLine) (hc : c.toVec.length = maxHistoryLineBytes) :
    recentStart J (twoLines r c) (twoLines r c).length 1 = (r.toVec ++ [nl]).length := by
  rw [recentStart_offered _ Nat.one_pos, recordsOffered_twoLines hr hc]
  rfl

/-- The reader skips that line. -/
theorem resumes_twoLines (r : HistoryRecord) (hc : c.toVec.length = maxHistoryLineBytes) :
    Resumes J (twoLines r c) (twoLines r c).length (r.toVec ++ [nl]).length [] := by
  refine ⟨?_, ?_⟩
  · unfold twoLines
    exact (List.prefix_append _ _).length_le
  · unfold slice recordsAt
    rw [List.take_length]
    unfold twoLines
    rw [List.drop_left, lines_append_singleton c.nl_not_mem_toVec, located, located,
      List.filterMap_cons]
    unfold recordAt
    rw [lineRecord_capLine (capLine_cap hc)]
    rfl

theorem readPages_twoLines (hr : r.FitsLine) (hc : c.toVec.length = maxHistoryLineBytes)
    (fill : Nat → Nat → Nat) {pageSize : Nat} (hp : 0 < pageSize) :
    readPages J (twoLines r c) fill pageSize ((twoLines r c).length + 1) none (some 1) =
      some (.ok []) := by
  apply readPages_eq fill (Nat.le_refl _) hp (resumes_twoLines r hc) rfl
  · rw [pageOffsets_recent, recentStart_twoLines hr hc]
  · exact Nat.lt_succ_of_le (Nat.sub_le _ _)

end Cap

/-- The same record with another comment text. -/
def HistoryRecord.withBody (r : HistoryRecord) (body : String) : HistoryRecord :=
  { r with request := { r.request with body := body } }

theorem HistoryRecord.length_withBody (r : HistoryRecord) (body : String) :
    (r.withBody body).toVec.length + (quote r.request.body).length =
      r.toVec.length + (quote body).length := by
  unfold HistoryRecord.withBody HistoryRecord.toVec object CommentRequest.members
  rcases r.error with _ | e <;> rcases r.commentUrl with _ | u <;>
    simp only [Option.map_none, Option.map_some, Option.toList_none, Option.toList_some,
      List.append_nil, List.cons_append, List.nil_append, List.map_cons, List.map_nil,
      List.intercalate_cons_cons, List.intercalate_singleton, List.length_cons,
      List.length_append, List.length_nil] <;> omega

def shortRecord : HistoryRecord :=
  ⟨"00000000-0000-4000-8000-000000000001", "4e881b86", 1000, true, none, "9f86d081", none,
    "00000000-0000-4000-8000-000000000000", ⟨"octocat", "hello", 7, ""⟩⟩

theorem fitsLine_shortRecord : shortRecord.FitsLine := by decide +kernel

/-- A record whose text fills the line cap. -/
def capRecord : HistoryRecord :=
  shortRecord.withBody
    (String.ofList (List.replicate (maxHistoryLineBytes - shortRecord.toVec.length) 'a'))

theorem length_capRecord : capRecord.toVec.length = maxHistoryLineBytes := by
  have hbody := shortRecord.length_withBody
    (String.ofList (List.replicate (maxHistoryLineBytes - shortRecord.toVec.length) 'a'))
  have hempty : (quote shortRecord.request.body).length = 2 := by decide
  rw [length_quote_replicate, hempty, ← Nat.add_assoc] at hbody
  exact (Nat.add_right_cancel hbody).trans (Nat.add_sub_of_le fitsLine_shortRecord.le)

/-- The scan offers the record at the cap, the reader skips it, and a read of the newest record of
the log returns none at all. -/
theorem cap_record_offered_not_read :
    scanReverse serdeJson (fun seen offset record => (seen ++ [(offset, record)], false))
        (twoLines shortRecord capRecord) (twoLines shortRecord capRecord).length 0 [] =
      ([((shortRecord.toVec ++ [nl]).length, capRecord), (0, shortRecord)], none) ∧
    historyRecords serdeJson (twoLines shortRecord capRecord) = [shortRecord] ∧
    ∀ fill, readPages serdeJson (twoLines shortRecord capRecord) fill 64
      ((twoLines shortRecord capRecord).length + 1) none (some 1) = some (.ok []) := by
  refine ⟨?_, historyRecords_twoLines fitsLine_shortRecord length_capRecord, fun fill =>
    readPages_twoLines fitsLine_shortRecord length_capRecord fill (by decide)⟩
  rw [scanReverse_eq_offered _ (Nat.le_refl _), slice_all,
    recordsOffered_twoLines fitsLine_shortRecord length_capRecord, offerRecords_collect]
  rfl

theorem reverse_scan_agrees_iff_sample :
    (∀ line ∈ lines nl (twoLines shortRecord shortRecord), ¬ CapLine serdeJson line) ∧
    ∀ fill, ∃ records,
      readPages serdeJson (twoLines shortRecord shortRecord) fill 64
        ((twoLines shortRecord shortRecord).length + 1) none none = some (.ok records) ∧
      records.map HistoryRecordAt.record =
        historyRecords serdeJson (twoLines shortRecord shortRecord) ∧
      readPages serdeJson (twoLines shortRecord shortRecord) fill 64
        ((twoLines shortRecord shortRecord).length + 1) none (some 1) =
        some (.ok (records.drop (records.length - 1))) := by
  have hno : ∀ line ∈ lines nl (twoLines shortRecord shortRecord), ¬ CapLine serdeJson line := by
    intro line hline
    rw [lines_twoLines] at hline
    simp only [List.mem_cons, List.not_mem_nil, or_false, or_self] at hline
    rw [hline]
    exact not_capLine_of_fitsLine fitsLine_shortRecord
  refine ⟨hno, fun fill => ?_⟩
  exact (reverse_scan_agrees_iff serdeJson (Nat.le_refl _) 0).2.2 hno fill 64 1 (by decide)

/-! ## Appending to any log -/

section Appending

variable (J : SerdeJson)

/-- Reading the log to its end returns these records, whatever the page size and the buffering. -/
def ReadsForward (log : Bytes) (records : List HistoryRecord) : Prop :=
  ∀ fill pageSize, 0 < pageSize → ∃ page,
    readPages J log fill pageSize (log.length + 1) none none = some (.ok page) ∧
      page.map HistoryRecordAt.record = records

/-- The log ends in a record without delimiter that fills the line cap. -/
def CapTail (log : Bytes) : Prop :=
  ∃ L t, log = L ++ t ∧ Closed nl L ∧ nl ∉ t ∧ t.length = maxHistoryLineBytes ∧
    (segmentRecord J t).isSome = true

variable {J}

theorem readsForward_iff {log : Bytes} {records : List HistoryRecord} :
    ReadsForward J log records ↔ records = historyRecords J log := by
  constructor
  · intro h
    obtain ⟨page, hpage, hrecords⟩ := h (fun _ _ => 0) 1 Nat.one_pos
    rw [readPages_all J log _ Nat.one_pos] at hpage
    obtain rfl := Except.ok.inj (Option.some.inj hpage)
    rw [← hrecords, map_record_recordsAt]
  · rintro rfl fill pageSize hp
    exact ⟨_, readPages_all J log fill hp, map_record_recordsAt _ _ _⟩

theorem lineRecord_empty : lineRecord J [] = none := rfl

/-- Finishing the last line keeps what is readable, except for a record at the cap. -/
theorem historyRecords_close_iff (log : Bytes) :
    historyRecords J (close nl log) = historyRecords J log ↔ ¬ CapTail J log := by
  obtain ⟨L, t, rfl, hL, ht⟩ := exists_tail nl log
  by_cases htn : t = []
  · subst htn
    rw [List.append_nil, close_of_closed hL]
    refine ⟨fun _ => ?_, fun _ => rfl⟩
    rintro ⟨L', t', heq, -, ht', hlen, -⟩
    have hpos : t' ≠ [] := by
      rintro rfl
      exact absurd hlen (by decide)
    exact not_closed_append L' hpos ht' (heq ▸ hL)
  · have hopen : ¬ Closed nl (L ++ t) := not_closed_append L htn ht
    rw [close_of_not_closed hopen, List.append_assoc, historyRecords_append hL,
      historyRecords_append hL]
    unfold historyRecords
    rw [collect_line ht, collect_tail lineRecord_empty ht, List.append_cancel_left_eq]
    constructor
    · rintro heq ⟨L', t', htail, hL', ht', hlen, hsome⟩
      obtain rfl : t' = t := tail_unique hL' ht' hL ht htail.symm
      rw [lineRecord_capLine ⟨t', rfl, hlen, hsome⟩] at heq
      have hnone : segmentRecord J t' = none := Option.toList_eq_nil_iff.1 heq.symm
      rw [hnone] at hsome
      cases hsome
    · intro hcap
      rw [lineRecord_nl fun hlen => ?_]
      · rfl
      · by_contra hne
        exact hcap ⟨L, t, rfl, hL, ht, hlen, Option.isSome_iff_ne_none.2 hne⟩

/-- Behind part of a line that fits there is no record at the cap. -/
theorem not_capTail_append {r : HistoryRecord} (hr : r.FitsLine) {L p : Bytes} (hL : Closed nl L)
    (hp : p <+: r.toVec ++ [nl]) : ¬ CapTail J (L ++ p) := by
  rintro ⟨L', t', heq, hL', ht', hlen, -⟩
  have hfits : r.toVec.length + 1 ≤ maxHistoryLineBytes := hr
  rcases List.prefix_concat_iff.1 hp with rfl | hobj
  · have hclosed : Closed nl (L ++ (r.toVec ++ [nl])) := hL.append (closed_append_singleton _)
    have hpos : t' ≠ [] := by
      rintro rfl
      exact absurd hlen (by decide)
    exact not_closed_append L' hpos ht' (heq ▸ hclosed)
  · have hn : nl ∉ p := fun hm => r.nl_not_mem_toVec (hobj.subset hm)
    obtain rfl : t' = p := tail_unique hL' ht' hL hn heq.symm
    have hle := hobj.length_le
    omega

/-- What a cut-off append has written of its line, behind the repaired log. -/
theorem torn_appendedBytes {r : HistoryRecord} {H p : Bytes} (hp : p <+: appendedBytes r H) :
    H ++ p = H ∨ ∃ q, q <+: r.toVec ++ [nl] ∧ H ++ p = close nl H ++ q := by
  unfold appendedBytes at hp
  by_cases hH : Closed nl H
  · rw [if_pos hH, List.nil_append] at hp
    exact Or.inr ⟨p, hp, by rw [close_of_closed hH]⟩
  · rw [if_neg hH, List.singleton_append] at hp
    rcases List.prefix_cons_iff.1 hp with rfl | ⟨q, rfl, hq⟩
    · exact Or.inl (List.append_nil H)
    · refine Or.inr ⟨q, hq, ?_⟩
      rw [close_of_not_closed hH, List.append_assoc, List.singleton_append]

/-- A cut-off append leaves the earlier records, or these and the new one, and no record at the cap
at the end of the log. -/
theorem torn_append_records {r : HistoryRecord} (hr : r.FitsLine) {H p : Bytes}
    (hcap : ¬ CapTail J H) (hp : p <+: appendedBytes r H) :
    (historyRecords J (H ++ p) = historyRecords J H ∨
      historyRecords J (H ++ p) = historyRecords J H ++ [r]) ∧ ¬ CapTail J (H ++ p) := by
  rcases torn_appendedBytes hp with heq | ⟨q, hq, heq⟩
  · rw [heq]
    exact ⟨Or.inl rfl, hcap⟩
  · have hno : ¬ CapTail J (close nl H ++ q) := not_capTail_append hr (closed_close H) hq
    have hstart : Pending J r.attemptId (close nl H) (close nl H) := .start J _ _
    have hclose : historyRecords J (close nl (close nl H)) = historyRecords J H := by
      rw [close_of_closed (closed_close H), (historyRecords_close_iff H).2 hcap]
    rw [heq]
    rcases hstart.torn hr (closed_close H) hq with htorn | hlogged
    · refine ⟨Or.inl ?_, hno⟩
      rw [← (historyRecords_close_iff _).2 hno, htorn.records, hclose]
    · exact ⟨Or.inr (by rw [hlogged.records, hclose]), hno⟩

/-- Appending to a log adds the record to those readable before exactly when the log does not end in
a record at the cap. Then a cut-off append leaves the records as they were or with the new one, and
the next append adds its own. -/
theorem append_keeps_records_iff (J : SerdeJson) (fs : QueueFs) {r r₂ : HistoryRecord}
    (hr : r.FitsLine) (hr₂ : r₂.FitsLine) {records : List HistoryRecord}
    (hrecords : ReadsForward J fs.historyBytes records) :
    (append r fs).outcome = .ok () ∧
    (ReadsForward J (final (append r) fs).historyBytes (records ++ [r]) ↔
      ¬ CapTail J fs.historyBytes) ∧
    (¬ CapTail J fs.historyBytes → ∀ fs', Interrupted Tears (append r) fs fs' →
      ∃ left, (left = records ∨ left = records ++ [r]) ∧ ReadsForward J fs'.historyBytes left ∧
        ReadsForward J (final (append r₂) fs').historyBytes (left ++ [r₂])) := by
  have happend : ∀ {r : HistoryRecord}, r.FitsLine → ∀ fs : QueueFs,
      historyRecords J (final (append r) fs).historyBytes =
        historyRecords J (close nl fs.historyBytes) ++ [r] := by
    intro r hr fs
    unfold final
    rw [append_run, run_appendTrace]
    exact historyRecords_appendedBytes hr _
  obtain rfl := readsForward_iff.1 hrecords
  refine ⟨by rw [append_run], ?_, fun hcap fs' hi => ?_⟩
  · rw [readsForward_iff, happend hr, List.append_cancel_right_eq, eq_comm,
      historyRecords_close_iff]
  · obtain ⟨p, hp, hlog⟩ := interrupted_append hi
    obtain ⟨hleft, hno⟩ := torn_append_records hr hcap hp
    refine ⟨_, hleft, readsForward_iff.2 (by rw [hlog]), readsForward_iff.2 ?_⟩
    rw [happend hr₂, hlog, (historyRecords_close_iff _).2 hno]

/-- A record without delimiter that fills the cap is readable. -/
theorem readsForward_cap {c : HistoryRecord} (hc : c.toVec.length = maxHistoryLineBytes) :
    ReadsForward J c.toVec [c] := by
  have hline : lineRecord J c.toVec = some c := segmentRecord_cap hc
  rw [readsForward_iff]
  unfold historyRecords
  rw [collect_tail lineRecord_empty c.nl_not_mem_toVec, hline]
  rfl

/-- The next append makes it unreadable. -/
theorem readsForward_append_cap {c r : HistoryRecord} (hr : r.FitsLine)
    (hc : c.toVec.length = maxHistoryLineBytes) :
    ReadsForward J (final (append r) { QueueFs.empty with history := some c.toVec }).historyBytes
      [r] := by
  have hopen : ¬ Closed nl c.toVec := not_closed_append [] c.toVec_ne_nil c.nl_not_mem_toVec
  rw [readsForward_iff]
  unfold final
  rw [append_run, run_appendTrace]
  change _ = historyRecords J (c.toVec ++ appendedBytes r c.toVec)
  rw [historyRecords_appendedBytes hr, close_of_not_closed hopen]
  unfold historyRecords
  rw [collect_line c.nl_not_mem_toVec, lineRecord_capLine (capLine_cap hc)]
  rfl

end Appending

theorem cap_tail_lost_by_append :
    ReadsForward serdeJson capRecord.toVec [capRecord] ∧
      ReadsForward serdeJson
        (final (append shortRecord)
          { QueueFs.empty with history := some capRecord.toVec }).historyBytes
        [shortRecord] :=
  ⟨readsForward_cap length_capRecord, readsForward_append_cap fitsLine_shortRecord length_capRecord⟩

theorem not_capTail_of_length_lt {J : SerdeJson} {log : Bytes}
    (h : log.length < maxHistoryLineBytes) : ¬ CapTail J log := by
  rintro ⟨L, t, rfl, -, -, hlen, -⟩
  rw [List.length_append, hlen] at h
  omega

theorem not_capTail_nil (J : SerdeJson) : ¬ CapTail J [] := not_capTail_of_length_lt (by decide)

/-- The record of a later attempt. -/
def laterRecord : HistoryRecord :=
  { shortRecord with attemptId := "00000000-0000-4000-8000-000000000002", postedAt := 2000 }

/-- A log with a record and part of another one behind it. -/
def sampleTornLog : Bytes := shortRecord.toVec ++ [nl] ++ laterRecord.toVec.take 30

def sampleTorn : QueueFs := { QueueFs.empty with history := some sampleTornLog }

/-- An append to that log is cut off within its line. -/
def sampleCutOff : QueueFs :=
  { QueueFs.empty with history := some (sampleTornLog ++ [nl] ++ laterRecord.toVec.take 40) }

theorem interrupted_sampleCutOff :
    Interrupted Tears (append laterRecord) sampleTorn sampleCutOff := by
  have hopen : ¬ Closed nl sampleTornLog := by decide +kernel
  have htrace : (append laterRecord sampleTorn).trace = [.openHistory, .appendHistory [nl],
      .appendHistory (laterRecord.toVec ++ [nl]), .syncHistory] := by
    rw [append_run]
    change appendTrace laterRecord sampleTornLog = _
    unfold appendTrace
    rw [if_neg hopen]
    rfl
  refine ⟨[.openHistory, .appendHistory [nl], .appendHistory (laterRecord.toVec.take 40)], ?_, ?_⟩
  · rw [htrace]
    exact .step _ (.step _
      (.torn (.append ((List.take_prefix _ _).trans (List.prefix_append _ _))) _))
  · rfl

/-- Behind a torn tail an append adds its record, and one that is cut off does no harm to the
next. -/
theorem append_keeps_records_iff_torn :
    ReadsForward serdeJson sampleTornLog [shortRecord] ∧
    ReadsForward serdeJson (final (append laterRecord) sampleTorn).historyBytes
      [shortRecord, laterRecord] ∧
    Interrupted Tears (append laterRecord) sampleTorn sampleCutOff ∧
    ReadsForward serdeJson (final (append laterRecord) sampleCutOff).historyBytes
      [shortRecord, laterRecord] := by
  have hfacts : laterRecord.FitsLine ∧ sampleTornLog.length < maxHistoryLineBytes ∧
      [shortRecord] = historyRecords serdeJson sampleTornLog ∧
      [shortRecord] = historyRecords serdeJson sampleCutOff.historyBytes := by decide +kernel
  obtain ⟨hfits, hlength, hrecords, hcut⟩ := hfacts
  obtain ⟨-, hadds, hcutoff⟩ := append_keeps_records_iff serdeJson sampleTorn hfits hfits
    (readsForward_iff.2 hrecords)
  have hno : ¬ CapTail serdeJson sampleTornLog := not_capTail_of_length_lt hlength
  obtain ⟨left, -, hleft, hnext⟩ := hcutoff hno sampleCutOff interrupted_sampleCutOff
  rw [readsForward_iff.1 hleft, ← hcut] at hnext
  exact ⟨readsForward_iff.2 hrecords, hadds.2 hno, interrupted_sampleCutOff, hnext⟩

end Comenq
