import Comenq.Store.Recent

/-!
# Bounded forward reads of the history log

The model of the paging half of `store/history.rs`: a page of the records between two offsets of a
fixed snapshot of the log, and the position from which the next page continues.

The buffered reader hands out the file in slices of arbitrary length; `fill` gives, for each offset,
one less than the number of bytes it makes available there. `readRecords_eq`: whatever the slices
are, the reader returns the readable lines of the region, and where it stops the rest of the region
holds exactly the records not returned yet.
-/

namespace Comenq

open JsonText LineLog

/-- Position in a fixed snapshot of the append-only history file. -/
structure HistoryPosition where
  offset : Nat
  endOffset : Nat
deriving DecidableEq, Repr

/-- A persisted record paired with the position immediately after its line. -/
structure HistoryRecordAt where
  record : HistoryRecord
  positionAfter : HistoryPosition
deriving DecidableEq, Repr

/-- One bounded page from the persisted history log. -/
structure HistoryPage where
  records : List HistoryRecordAt
  next : Option HistoryPosition
deriving DecidableEq, Repr

def HistoryPage.empty : HistoryPage := ⟨[], none⟩

/-! ## Reading lines -/

/-- The line read so far, the offset behind it, and whether it is too long to be kept. -/
structure LineRead where
  line : Bytes
  offset : Nat
  oversized : Bool

/-- Read up to the next delimiter or the end of the snapshot, one buffered slice in each round. -/
def readSnapshotLine (file : Bytes) (fill : Nat → Nat) (endOffset : Nat) :
    Nat → LineRead → Except StoreError LineRead
  | 0, st => .ok st
  | rounds + 1, st =>
    if st.offset < endOffset then
      let remaining := endOffset - st.offset
      let available := (file.drop st.offset).take (fill st.offset + 1)
      if available = [] then .error (.io .unexpectedEof)
      else
        let visible := available.take remaining
        let lineEnd := visible.idxOf? nl
        let lineLen := match lineEnd with
          | none => visible.length
          | some index => index + 1
        let st' :=
          if !st.oversized && st.line.length + lineLen ≤ maxHistoryLineBytes then
            ⟨st.line ++ available.take lineLen, st.offset + lineLen, false⟩
          else ⟨st.line, st.offset + lineLen, true⟩
        if lineEnd.isSome then .ok st' else readSnapshotLine file fill endOffset rounds st'
    else .ok st

section Reader

variable (J : SerdeJson)

/-- The record of the line at an offset, if it holds one, and the offset behind the line. -/
def readRecord (file : Bytes) (fill : Nat → Nat) (endOffset offset : Nat) :
    Except StoreError (Option HistoryRecord × Nat) := do
  let st ← readSnapshotLine file fill endOffset (endOffset - offset) ⟨[], offset, false⟩
  if st.oversized then pure (none, st.offset)
  else if st.line.all isAsciiWhitespace then pure (none, st.offset)
  else pure (J.record st.line, st.offset)

/-- Read records until the page is full or the snapshot ends, one line in each round. -/
def readRecords (file : Bytes) (fill : Nat → Nat) (endOffset pageSize : Nat) :
    Nat → Nat → List HistoryRecordAt → Except StoreError (List HistoryRecordAt × Nat)
  | 0, offset, records => .ok (records, offset)
  | rounds + 1, offset, records =>
    if offset < endOffset ∧ records.length < pageSize then do
      let (record, after) ← readRecord J file fill endOffset offset
      let found := record.toList.map fun r => ⟨r, ⟨after, endOffset⟩⟩
      readRecords file fill endOffset pageSize rounds after (records ++ found)
    else .ok (records, offset)

/-! ## Pages -/

/-- Find the start of the newest `limit` valid records. -/
def recentStart (log : Bytes) (endOffset limit : Nat) : Nat :=
  (scanReverse J (fun (s : Nat × Nat) start _ => ((start, s.2 + 1), s.2 + 1 == limit))
    log endOffset 0 (endOffset, 0)).1.1

def pageOffsets (log : Bytes) (position : Option HistoryPosition) (recentLimit : Option Nat) :
    Nat × Nat :=
  match position with
  | some position => (position.offset, position.endOffset)
  | none =>
    match recentLimit with
    | some 0 => (log.length, log.length)
    | some limit => (recentStart J log log.length limit, log.length)
    | none => (0, log.length)

/-- Accept a position within the file that is its start or directly behind a delimiter. -/
def validatePosition (log : Bytes) (position : HistoryPosition) : Except StoreError Unit :=
  if position.offset > position.endOffset ∨ position.endOffset > log.length then
    .error (.io .invalidData)
  else if position.offset = 0 then .ok ()
  else if log[position.offset - 1]? = some nl then .ok ()
  else .error (.io .invalidData)

/-- Only positions given by a caller are checked. -/
def validateCursor (log : Bytes) : Option HistoryPosition → Except StoreError Unit
  | none => .ok ()
  | some position => validatePosition log position

def readSnapshotPage (log : Bytes) (fill : Nat → Nat) (position : Option HistoryPosition)
    (offset endOffset pageSize : Nat) : Except StoreError HistoryPage := do
  validateCursor log position
  if offset ≥ endOffset then pure .empty
  else
    let (records, current) ←
      readRecords J log fill endOffset pageSize (endOffset - offset) offset []
    pure ⟨records, if current < endOffset then some ⟨current, endOffset⟩ else none⟩

/-- Read a bounded page, optionally starting at the newest `recentLimit` records. -/
def readPage (history : Option Bytes) (fill : Nat → Nat) (position : Option HistoryPosition)
    (recentLimit : Option Nat) (pageSize : Nat) : Except StoreError HistoryPage :=
  if pageSize = 0 then .error (.io .invalidInput)
  else
    match history with
    | none => if position.isNone then .ok .empty else .error (.io .notFound)
    | some log =>
      let (offset, endOffset) := pageOffsets J log position recentLimit
      readSnapshotPage J log fill position offset endOffset pageSize

end Reader

/-! ## Independence of the buffering -/

/-- The bytes of a file between two offsets. -/
def slice (file : Bytes) (offset endOffset : Nat) : Bytes := (file.take endOffset).drop offset

theorem slice_eq_nil {file : Bytes} {offset endOffset : Nat} (h : endOffset ≤ offset) :
    slice file offset endOffset = [] := by
  apply List.drop_of_length_le
  rw [List.length_take]
  omega

theorem length_slice {file : Bytes} {offset endOffset : Nat} (he : endOffset ≤ file.length) :
    (slice file offset endOffset).length = endOffset - offset := by
  unfold slice
  rw [List.length_drop, List.length_take, Nat.min_eq_left he]

theorem drop_slice (file : Bytes) (offset endOffset n : Nat) :
    (slice file offset endOffset).drop n = slice file (offset + n) endOffset :=
  List.drop_drop

/-- What the reader sees of the file at an offset is a part of the snapshot that starts there. -/
theorem take_take_drop {file : Bytes} (offset endOffset n : Nat) :
    ((file.drop offset).take n).take (endOffset - offset) =
      (slice file offset endOffset).take n := by
  unfold slice
  rw [List.drop_take, List.take_take, List.take_take, Nat.min_comm]

/-- The state of the reader stands for the line read so far. -/
structure LineRead.Holds (st : LineRead) (cur : Bytes) : Prop where
  within : cur.length ≤ maxHistoryLineBytes → st.oversized = false ∧ st.line = cur
  beyond : maxHistoryLineBytes < cur.length → st.oversized = true

theorem LineRead.Holds.start (offset : Nat) : LineRead.Holds ⟨[], offset, false⟩ [] :=
  ⟨fun _ => ⟨rfl, rfl⟩, fun h => absurd h (by simp)⟩

/-- One more piece of the line. -/
theorem LineRead.Holds.extend {st : LineRead} {cur piece : Bytes} (h : st.Holds cur)
    {offset n : Nat} (hn : piece.length = n) :
    LineRead.Holds
      (if !st.oversized && st.line.length + n ≤ maxHistoryLineBytes then
        ⟨st.line ++ piece, offset, false⟩ else ⟨st.line, offset, true⟩) (cur ++ piece) := by
  have hlen : (cur ++ piece).length = cur.length + n := by rw [List.length_append, hn]
  by_cases hcur : cur.length ≤ maxHistoryLineBytes
  · obtain ⟨ho, hl⟩ := h.within hcur
    rw [ho, hl]
    by_cases hfit : cur.length + n ≤ maxHistoryLineBytes
    · rw [if_pos (by simpa using hfit)]
      refine ⟨fun _ => ⟨rfl, rfl⟩, fun hb => ?_⟩
      rw [hlen] at hb
      omega
    · rw [if_neg (by simpa using hfit)]
      refine ⟨fun hw => ?_, fun _ => rfl⟩
      rw [hlen] at hw
      omega
  · rw [h.beyond (by omega)]
    refine ⟨fun hw => ?_, fun _ => rfl⟩
    rw [hlen] at hw
    omega

/-- The reader consumes the first line of what is left of the snapshot. The induction is on the
rounds; in each one the buffered slice either ends the line or is a proper part of it. -/
theorem readSnapshotLine_eq {file : Bytes} (fill : Nat → Nat) {endOffset : Nat}
    (he : endOffset ≤ file.length) {rounds : Nat} {st : LineRead} {cur : Bytes} (h : st.Holds cur)
    (hr : endOffset - st.offset ≤ rounds) :
    ∃ st', readSnapshotLine file fill endOffset rounds st = .ok st' ∧
      st'.Holds (cur ++ firstLine nl (slice file st.offset endOffset)) ∧
      st'.offset = st.offset + (firstLine nl (slice file st.offset endOffset)).length := by
  induction rounds generalizing st cur with
  | zero =>
    rw [slice_eq_nil (by omega)]
    refine ⟨st, rfl, ?_, rfl⟩
    rw [firstLine, List.append_nil]
    exact h
  | succ rounds ih =>
    unfold readSnapshotLine
    by_cases hlt : st.offset < endOffset
    · have hne : (file.drop st.offset).take (fill st.offset + 1) ≠ [] := by
        intro hn
        have := congrArg List.length hn
        rw [List.length_take, List.length_drop, List.length_nil] at this
        omega
      rw [if_pos hlt]
      simp only
      rw [if_neg hne, take_take_drop]
      set xs := slice file st.offset endOffset with hxs
      have hxlen : xs.length = endOffset - st.offset := length_slice he
      set chunk := xs.take (fill st.offset + 1) with hchunk
      have hcpos : 0 < chunk.length := by
        rw [hchunk, List.length_take]
        omega
      have hsplit : xs = chunk ++ xs.drop chunk.length := by
        have hl : chunk.length = min (fill st.offset + 1) xs.length := List.length_take
        conv_lhs => rw [← List.take_append_drop (fill st.offset + 1) xs]
        rw [hl]
        congr 1
        rcases Nat.le_total (fill st.offset + 1) xs.length with hle | hle
        · rw [Nat.min_eq_left hle]
        · rw [Nat.min_eq_right hle, List.drop_length, List.drop_of_length_le hle]
      -- the bytes kept of the buffered slice are those of the visible part
      have hkept : ∀ n, n ≤ chunk.length →
          ((file.drop st.offset).take (fill st.offset + 1)).take n = chunk.take n := by
        intro n hn
        have hl : chunk.length ≤ endOffset - st.offset := by
          rw [hchunk, List.length_take]
          omega
        rw [hchunk, hxs, ← take_take_drop]
        conv_rhs => rw [List.take_take, Nat.min_eq_left (by omega)]
      cases hi : chunk.idxOf? nl with
      | some i =>
        have hmem : nl ∈ chunk := by
          by_contra hn
          rw [List.idxOf?_eq_none_iff.2 hn] at hi
          cases hi
        have hfirst : firstLine nl xs = chunk.take (i + 1) := by
          rw [hsplit, firstLine_append_of_mem hmem, take_idxOf?_succ hi]
        have hile : i + 1 ≤ chunk.length := by
          obtain ⟨hlt', -⟩ := List.idxOf?_eq_some_iff.1 hi
          omega
        have hl : (chunk.take (i + 1)).length = i + 1 := by
          rw [List.length_take]
          omega
        simp only [Option.isSome_some, if_true]
        rw [hkept _ hile]
        refine ⟨_, rfl, ?_, ?_⟩
        · rw [hfirst]
          exact h.extend hl
        · rw [hfirst, hl]
          split <;> rfl
      | none =>
        have hmem : nl ∉ chunk := List.idxOf?_eq_none_iff.1 hi
        have hfirst : firstLine nl xs = chunk ++ firstLine nl (xs.drop chunk.length) := by
          conv_lhs => rw [hsplit]
          exact firstLine_append_of_not_mem hmem _
        have hrest : xs.drop chunk.length = slice file (st.offset + chunk.length) endOffset :=
          drop_slice _ _ _ _
        simp only [Option.isSome_none, Bool.false_eq_true, if_false]
        rw [hkept _ (Nat.le_refl _), List.take_length]
        have hnext : LineRead.Holds (if !st.oversized &&
            st.line.length + chunk.length ≤ maxHistoryLineBytes then
            ⟨st.line ++ chunk, st.offset + chunk.length, false⟩
            else ⟨st.line, st.offset + chunk.length, true⟩) (cur ++ chunk) := h.extend rfl
        generalize hst :
          (if !st.oversized && st.line.length + chunk.length ≤ maxHistoryLineBytes then
          (⟨st.line ++ chunk, st.offset + chunk.length, false⟩ : LineRead)
          else ⟨st.line, st.offset + chunk.length, true⟩) = next at hnext ⊢
        have hoff : next.offset = st.offset + chunk.length := by
          rw [← hst]
          split <;> rfl
        obtain ⟨st', hok, hholds, hoff'⟩ := ih hnext (by omega)
        refine ⟨st', hok, ?_, ?_⟩
        · rw [hfirst, hrest, ← List.append_assoc, ← hoff]
          exact hholds
        · rw [hoff', hoff, hfirst, hrest, List.length_append]
          omega
    · rw [if_neg hlt, slice_eq_nil (by omega)]
      refine ⟨st, rfl, ?_, rfl⟩
      rw [firstLine, List.append_nil]
      exact h

/-! ## The records of a region -/

section Records

variable (J : SerdeJson)

/-- What the forward reader makes of the line at an offset. -/
def recordAt (endOffset : Nat) (p : Nat × Bytes) : Option HistoryRecordAt :=
  (lineRecord J p.2).map fun r => ⟨r, ⟨p.1 + p.2.length, endOffset⟩⟩

/-- The readable records of a region that starts at `offset`, with the positions behind them. -/
def recordsAt (endOffset offset : Nat) (xs : Bytes) : List HistoryRecordAt :=
  (located offset (lines nl xs)).filterMap (recordAt J endOffset)

variable {J}

theorem recordsAt_nil (endOffset offset : Nat) : recordsAt J endOffset offset [] = [] := rfl

theorem recordsAt_cons {endOffset offset : Nat} {xs : Bytes} (h : xs ≠ []) :
    recordsAt J endOffset offset xs =
      (recordAt J endOffset (offset, firstLine nl xs)).toList ++
        recordsAt J endOffset (offset + (firstLine nl xs).length)
          (xs.drop (firstLine nl xs).length) := by
  unfold recordsAt
  rw [lines_eq_cons h, located, List.filterMap_cons]
  cases recordAt J endOffset (offset, firstLine nl xs) <;> rfl

/-- The records alone are those of the whole-log reader. -/
theorem map_record_recordsAt (endOffset offset : Nat) (xs : Bytes) :
    (recordsAt J endOffset offset xs).map HistoryRecordAt.record = historyRecords J xs := by
  unfold recordsAt historyRecords collect
  rw [List.map_filterMap]
  conv_rhs => rw [← map_snd_located offset (lines nl xs), List.filterMap_map]
  congr 1
  funext p
  unfold recordAt
  cases h : lineRecord J p.2 <;> simp [h]

theorem readRecord_eq {file : Bytes} (fill : Nat → Nat) {endOffset : Nat}
    (he : endOffset ≤ file.length) (offset : Nat) :
    readRecord J file fill endOffset offset =
      .ok (lineRecord J (firstLine nl (slice file offset endOffset)),
        offset + (firstLine nl (slice file offset endOffset)).length) := by
  obtain ⟨st, hok, hholds, hoff⟩ := readSnapshotLine_eq fill he (LineRead.Holds.start offset)
    (Nat.le_refl (endOffset - offset))
  rw [List.nil_append] at hholds
  unfold readRecord lineRecord
  rw [hok]
  by_cases hfit : (firstLine nl (slice file offset endOffset)).length ≤ maxHistoryLineBytes
  · obtain ⟨ho, hl⟩ := hholds.within hfit
    simp only [bind, Except.bind, ho, hl, hoff, Bool.false_eq_true, if_false,
      if_neg (Nat.not_lt.2 hfit)]
    split <;> rfl
  · simp only [bind, Except.bind, hholds.beyond (Nat.lt_of_not_le hfit), hoff, if_true,
      if_pos (Nat.lt_of_not_le hfit)]
    rfl

/-- At an offset of the snapshot, `rest` is still to come. -/
structure Resumes (J : SerdeJson) (file : Bytes) (endOffset offset : Nat)
    (rest : List HistoryRecordAt) : Prop where
  le : offset ≤ endOffset
  rest_eq : recordsAt J endOffset offset (slice file offset endOffset) = rest

/-- A position before the end of the snapshot at which a line starts. -/
def AtLineStart (file : Bytes) (endOffset offset : Nat) : Prop :=
  offset < endOffset → offset = 0 ∨ file[offset - 1]? = some nl

theorem slice_ne_nil {file : Bytes} {offset endOffset : Nat} (he : endOffset ≤ file.length)
    (h : offset < endOffset) : slice file offset endOffset ≠ [] := by
  intro hn
  have hlen : (slice file offset endOffset).length = endOffset - offset := length_slice he
  rw [hn, List.length_nil] at hlen
  omega

theorem resumes_end {file : Bytes} {endOffset : Nat} : Resumes J file endOffset endOffset [] :=
  ⟨Nat.le_refl _, by rw [slice_eq_nil (Nat.le_refl _)]; rfl⟩

/-- The byte before the end of the first line of a region, when something follows the line. -/
theorem getElem?_firstLine {file : Bytes} {offset endOffset n : Nat} (he : endOffset ≤ file.length)
    (h : offset < endOffset) (hn : n = (firstLine nl (slice file offset endOffset)).length)
    (hlt : offset + n < endOffset) : file[offset + n - 1]? = some nl := by
  have hlen : (slice file offset endOffset).length = endOffset - offset := length_slice he
  have hlast := firstLine_closed (show (firstLine nl (slice file offset endOffset)).length < _ by
    omega)
  have hpos : 0 < (firstLine nl (slice file offset endOffset)).length :=
    List.length_pos_iff.2 (firstLine_ne_nil (slice_ne_nil he h))
  obtain ⟨t, ht⟩ := firstLine_isPrefix nl (slice file offset endOffset)
  have hget : (slice file offset endOffset)[n - 1]? = some nl := by
    rw [← ht, List.getElem?_append_left (by omega), hn, ← List.getLast?_eq_getElem?]
    exact hlast
  unfold slice at hget
  rw [List.getElem?_drop, List.getElem?_take_of_lt (by omega)] at hget
  rw [← hget]
  congr 1
  omega

theorem resumes_firstLine {file : Bytes} {offset endOffset n : Nat} (he : endOffset ≤ file.length)
    (h : offset < endOffset) (hn : n = (firstLine nl (slice file offset endOffset)).length) :
    Resumes J file endOffset (offset + n)
      (recordsAt J endOffset (offset + n) (slice file (offset + n) endOffset)) := by
  have hlen : (slice file offset endOffset).length = endOffset - offset := length_slice he
  have hle := (firstLine_isPrefix nl (slice file offset endOffset)).length_le
  exact ⟨by omega, rfl⟩

/-- A reader that wants `m` more records takes them from the front of the region and stops where the
others follow. The induction is on the rounds: each one consumes a line. -/
theorem readRecords_eq {file : Bytes} (fill : Nat → Nat) {endOffset : Nat}
    (he : endOffset ≤ file.length) {rounds offset pageSize m : Nat}
    {records rest : List HistoryRecordAt} (hr : endOffset - offset ≤ rounds)
    (hres : Resumes J file endOffset offset rest) (hm : pageSize = records.length + m) :
    ∃ after, readRecords J file fill endOffset pageSize rounds offset records =
        .ok (records ++ rest.take m, after) ∧
      (offset < endOffset → 0 < m → offset < after) ∧
      (after = offset ∨ offset < after ∧ AtLineStart file endOffset after) ∧
      (∀ a ∈ rest.take m, a.positionAfter.offset ≤ after) ∧ (after < endOffset → m ≤ rest.length) ∧
      Resumes J file endOffset after (rest.drop m) := by
  induction rounds generalizing offset records rest m with
  | zero =>
    have hle := hres.le
    obtain rfl : offset = endOffset := by omega
    obtain rfl : rest = [] := hres.rest_eq.symm.trans resumes_end.rest_eq
    exact ⟨offset, by simp [readRecords], fun h => absurd h (Nat.lt_irrefl _), Or.inl rfl, by simp,
      fun h => absurd h (Nat.lt_irrefl _), by rw [List.drop_nil]; exact resumes_end⟩
  | succ rounds ih =>
    unfold readRecords
    by_cases hgo : offset < endOffset ∧ records.length < pageSize
    · obtain ⟨hlt, hsize⟩ := hgo
      obtain ⟨m, rfl⟩ : ∃ k, m = k + 1 := ⟨m - 1, by omega⟩
      set line := firstLine nl (slice file offset endOffset) with hline
      have hpos : 0 < line.length := List.length_pos_iff.2 (firstLine_ne_nil (slice_ne_nil he hlt))
      have hnext := resumes_firstLine (J := J) he hlt (congrArg List.length hline)
      have hstart : AtLineStart file endOffset (offset + line.length) := fun h =>
        Or.inr (getElem?_firstLine he hlt (congrArg List.length hline) h)
      -- wherever the rest of the read stops, it stops behind this line
      have hstop : ∀ after, (after = offset + line.length ∨
          offset + line.length < after ∧ AtLineStart file endOffset after) →
          offset < after ∧ AtLineStart file endOffset after := by
        rintro after (rfl | ⟨hgt, ha⟩)
        · exact ⟨by omega, hstart⟩
        · exact ⟨by omega, ha⟩
      have hrest := hres.rest_eq
      rw [recordsAt_cons (slice_ne_nil he hlt), drop_slice, ← hline] at hrest
      rw [if_pos ⟨hlt, hsize⟩, readRecord_eq fill he, ← hline]
      simp only [bind, Except.bind]
      unfold recordAt at hrest
      cases hrec : lineRecord J line with
      | none =>
        rw [hrec, Option.map_none, Option.toList_none, List.nil_append] at hrest
        rw [hrest] at hnext
        obtain ⟨after, hok, -, hat, hbehind, hfull, hafter⟩ := ih (by omega) hnext hm
        rw [Option.toList_none, List.map_nil, List.append_nil]
        exact ⟨after, hok, fun _ _ => (hstop after hat).1, Or.inr (hstop after hat), hbehind, hfull,
          hafter⟩
      | some r =>
        rw [hrec, Option.map_some, Option.toList_some, List.singleton_append] at hrest
        obtain ⟨after, hok, -, hat, hbehind, hfull, hafter⟩ := @ih _ m
          (records ++ [⟨r, ⟨offset + line.length, endOffset⟩⟩]) _ (by omega) hnext (by simp; omega)
        rw [Option.toList_some, List.map_singleton, ← hrest, List.take_succ_cons,
          List.drop_succ_cons]
        refine ⟨after, ?_, fun _ _ => (hstop after hat).1, Or.inr (hstop after hat), ?_,
          fun h => Nat.succ_le_succ (hfull h), hafter⟩
        · rw [hok, List.append_assoc, List.singleton_append]
        · intro a ha
          rcases List.mem_cons.1 ha with rfl | ha
          · change offset + line.length ≤ after
            omega
          · exact hbehind a ha
    · -- the page is full or the snapshot ends here
      rw [if_neg hgo]
      by_cases hlt : offset < endOffset
      · obtain rfl : m = 0 := by
          by_contra hne
          exact hgo ⟨hlt, by omega⟩
        rw [List.take_zero, List.append_nil, List.drop_zero]
        exact ⟨offset, rfl, fun _ h => absurd h (Nat.lt_irrefl 0), Or.inl rfl, nofun,
          fun _ => Nat.zero_le _, hres⟩
      · have hle := hres.le
        obtain rfl : offset = endOffset := by omega
        obtain rfl : rest = [] := hres.rest_eq.symm.trans resumes_end.rest_eq
        rw [List.take_nil, List.append_nil, List.drop_nil]
        exact ⟨offset, rfl, fun h => absurd h (Nat.lt_irrefl _), Or.inl rfl, nofun,
          fun h => absurd h (Nat.lt_irrefl _), resumes_end⟩

/-- Behind each record of a region the later ones follow, at the start of a line. The induction is
on what is left of the snapshot. -/
theorem Resumes.after {file : Bytes} {endOffset : Nat} (he : endOffset ≤ file.length) :
    ∀ {n offset : Nat} {pre post : List HistoryRecordAt} {a : HistoryRecordAt},
      endOffset - offset ≤ n → Resumes J file endOffset offset (pre ++ a :: post) →
      Resumes J file endOffset a.positionAfter.offset post ∧
        a.positionAfter.endOffset = endOffset ∧ offset < a.positionAfter.offset ∧
        AtLineStart file endOffset a.positionAfter.offset := by
  intro n
  induction n with
  | zero =>
    intro offset pre post a hn h
    have hle := h.le
    obtain rfl : offset = endOffset := by omega
    have hnil := h.rest_eq.symm.trans resumes_end.rest_eq
    simp at hnil
  | succ n ih =>
    intro offset pre post a hn h
    have hlt : offset < endOffset := by
      by_contra hge
      have hnil := h.rest_eq
      rw [slice_eq_nil (by omega), recordsAt_nil] at hnil
      simp at hnil
    set line := firstLine nl (slice file offset endOffset) with hline
    have hpos : 0 < line.length := List.length_pos_iff.2 (firstLine_ne_nil (slice_ne_nil he hlt))
    have hnext := resumes_firstLine (J := J) he hlt (congrArg List.length hline)
    have hstart : AtLineStart file endOffset (offset + line.length) := fun h =>
      Or.inr (getElem?_firstLine he hlt (congrArg List.length hline) h)
    have hrest := h.rest_eq
    rw [recordsAt_cons (slice_ne_nil he hlt), drop_slice, ← hline] at hrest
    cases hrec : recordAt J endOffset (offset, line) with
    | none =>
      rw [hrec, Option.toList_none, List.nil_append] at hrest
      rw [hrest] at hnext
      obtain ⟨h1, h2, h3, h4⟩ := ih (by omega) hnext
      exact ⟨h1, h2, by omega, h4⟩
    | some b =>
      rw [hrec, Option.toList_some, List.singleton_append] at hrest
      cases pre with
      | nil =>
        obtain ⟨rfl, htail⟩ := List.cons.inj hrest
        rw [htail] at hnext
        obtain ⟨r, -, rfl⟩ := Option.map_eq_some_iff.1 hrec
        exact ⟨hnext, rfl, by change offset < offset + line.length; omega, hstart⟩
      | cons c pre =>
        obtain ⟨rfl, htail⟩ := List.cons.inj hrest
        rw [htail] at hnext
        obtain ⟨h1, h2, h3, h4⟩ := ih (by omega) hnext
        exact ⟨h1, h2, by omega, h4⟩

/-! ## Pages -/

/-- What a page read at `offset` tells: the next records, and where the others follow. -/
structure HistoryPage.Reads (J : SerdeJson) (log : Bytes) (endOffset offset pageSize : Nat)
    (rest : List HistoryRecordAt) (page : HistoryPage) : Prop where
  records : page.records = rest.take pageSize
  none : page.next = none → rest.drop pageSize = []
  some : ∀ {p}, page.next = some p → p.endOffset = endOffset ∧ offset < p.offset ∧
    p.offset < endOffset ∧ AtLineStart log endOffset p.offset ∧
    Resumes J log endOffset p.offset (rest.drop pageSize)
  behind : ∀ {p}, page.next = Option.some p →
    pageSize ≤ rest.length ∧ ∀ a ∈ page.records, a.positionAfter.offset ≤ p.offset

theorem validatePosition_ok {log : Bytes} {offset endOffset : Nat} (he : endOffset ≤ log.length)
    (ho : offset ≤ endOffset) (hs : offset = 0 ∨ log[offset - 1]? = some nl) :
    validatePosition log ⟨offset, endOffset⟩ = .ok () := by
  unfold validatePosition
  rw [if_neg (by simp only; omega)]
  rcases hs with hs | hs
  · rw [if_pos hs]
  · rw [if_pos hs, ite_self]

/-- A page of a valid position. -/
theorem readSnapshotPage_eq {log : Bytes} (fill : Nat → Nat) {offset endOffset pageSize : Nat}
    (he : endOffset ≤ log.length) (hp : 0 < pageSize) {rest : List HistoryRecordAt}
    (hres : Resumes J log endOffset offset rest) {position : Option HistoryPosition}
    (hv : validateCursor log position = .ok ()) :
    ∃ page, readSnapshotPage J log fill position offset endOffset pageSize = .ok page ∧
      page.Reads J log endOffset offset pageSize rest := by
  unfold readSnapshotPage
  rw [hv]
  simp only [bind, Except.bind]
  by_cases hge : offset ≥ endOffset
  · rw [if_pos hge]
    have hle := hres.le
    obtain rfl : offset = endOffset := by omega
    obtain rfl : rest = [] := hres.rest_eq.symm.trans resumes_end.rest_eq
    exact ⟨.empty, rfl, List.take_nil.symm, fun _ => List.drop_nil, nofun, nofun⟩
  · obtain ⟨after, hok, hlt, hat, hbehind, hfull, hafter⟩ := readRecords_eq fill he
      (Nat.le_refl _) hres (show pageSize = ([] : List HistoryRecordAt).length + pageSize by simp)
    have hgt := hlt (by omega) hp
    rw [if_neg hge, hok]
    refine ⟨_, rfl, rfl, fun hnone => ?_, fun {p} hsome => ?_, fun {p} hsome => ?_⟩
    · have hle := hafter.le
      obtain rfl : after = endOffset := by
        by_contra hne
        simp only at hnone
        rw [if_pos (by omega)] at hnone
        cases hnone
      exact hafter.rest_eq.symm.trans resumes_end.rest_eq
    · simp only at hsome
      split at hsome
      · next hmore =>
        obtain rfl := Option.some.inj hsome
        rcases hat with heq | ⟨-, hstart⟩
        · omega
        · exact ⟨rfl, hgt, hmore, hstart, hafter⟩
      · cases hsome
    · simp only at hsome
      split at hsome
      · next hmore =>
        obtain rfl := Option.some.inj hsome
        exact ⟨hfull hmore, hbehind⟩
      · cases hsome

end Records

end Comenq
