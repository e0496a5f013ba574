import Comenq.Store.History

/-!
# Reverse scanning of the history log

The model of `store/history/recent.rs`. The scan reads the log in chunks of 16 KiB from its end,
byte by byte, and offers the record of each line to its caller until one is accepted. The caller
may keep a state of its own between offers.

`scanReverse_eq`: the scan offers the records of the segments of the scanned region, last one
first, wherever the chunk boundaries fall.
-/

namespace Comenq

open JsonText LineLog

def reverseChunkBytes : Nat := 16 * 1024

/-- The line under construction, last byte first. -/
structure ReverseScan where
  reversedLine : Bytes
  lineStart : Option Nat
  oversized : Bool

namespace ReverseScan

def start : ReverseScan := ⟨[], none, false⟩

def push (st : ReverseScan) (byte : UInt8) (offset : Nat) : ReverseScan :=
  if st.oversized then { st with lineStart := some offset }
  else if st.reversedLine.length = maxHistoryLineBytes then ⟨[], some offset, true⟩
  else ⟨st.reversedLine ++ [byte], some offset, false⟩

end ReverseScan

section Scan

variable (J : SerdeJson) {σ : Type} (accept : σ → Nat → HistoryRecord → σ × Bool)

def finishLine (st : ReverseScan) : Option HistoryRecord :=
  match st.lineStart with
  | none => none
  | some _ =>
    if st.oversized then none
    else if st.reversedLine.reverse.all isAsciiWhitespace then none
    else J.record st.reversedLine.reverse

/-- Offer a record, if there is one; the flag tells whether it was accepted. -/
def offerOne (s : σ) (offset : Nat) : Option HistoryRecord → σ × Option HistoryRecord
  | none => (s, none)
  | some record =>
    match accept s offset record with
    | (s', true) => (s', some record)
    | (s', false) => (s', none)

/-- The bytes of a chunk that starts at `chunkStart`, last one first. -/
def scanBytes (chunkStart : Nat) : Bytes → σ → ReverseScan → σ × (ReverseScan ⊕ HistoryRecord)
  | [], s, st => (s, .inl st)
  | byte :: rest, s, st =>
    let offset := chunkStart + rest.length
    if byte = nl then
      match offerOne accept s (offset + 1) (finishLine J st) with
      | (s', some record) => (s', .inr record)
      | (s', none) => scanBytes chunkStart rest s' .start
    else scanBytes chunkStart rest s (st.push byte offset)

/-- The chunks of `width` bytes down to `minimum`; each round moves `chunkEnd` down. -/
def scanChunks (width : Nat) (log : Bytes) (minimum : Nat) :
    Nat → Nat → σ → ReverseScan → σ × (ReverseScan ⊕ HistoryRecord)
  | 0, _, s, st => (s, .inl st)
  | rounds + 1, chunkEnd, s, st =>
    if chunkEnd > minimum then
      let start := max (chunkEnd - width) minimum
      let chunk := (log.take chunkEnd).drop start
      match scanBytes J accept start chunk.reverse s st with
      | (s', .inr record) => (s', .inr record)
      | (s', .inl st') => scanChunks width log minimum rounds start s' st'
    else (s, .inl st)

/-- Offer the record of the first line, which no delimiter precedes. -/
def scanFinish (minimum : Nat) : σ × (ReverseScan ⊕ HistoryRecord) → σ × Option HistoryRecord
  | (s, .inr record) => (s, some record)
  | (s, .inl st) => offerOne accept s minimum (finishLine J st)

/-- Return the newest matching record at or beyond a caller's history offset. -/
def scanReverse (log : Bytes) (endOffset minimum : Nat) (s : σ) : σ × Option HistoryRecord :=
  scanFinish J accept minimum
    (scanChunks J accept reverseChunkBytes log minimum endOffset endOffset s .start)

/-! ## Independence of the chunk boundaries -/

theorem scanBytes_append (o : Nat) (r₁ r₂ : Bytes) (s : σ) (st : ReverseScan) :
    scanBytes J accept o (r₁ ++ r₂) s st =
      match scanBytes J accept (o + r₂.length) r₁ s st with
      | (s', .inr record) => (s', .inr record)
      | (s', .inl st') => scanBytes J accept o r₂ s' st' := by
  induction r₁ generalizing s st with
  | nil => rfl
  | cons b r ih =>
    have e : o + (r ++ r₂).length = o + r₂.length + r.length := by
      rw [List.length_append]; omega
    simp only [List.cons_append, scanBytes, e]
    split
    · split
      · rfl
      · exact ih _ _
    · exact ih _ _

/-- Scanning chunk by chunk is scanning the whole region. -/
theorem scanChunks_eq {width : Nat} (hw : 0 < width) (log : Bytes) (minimum rounds chunkEnd : Nat)
    (s : σ) (st : ReverseScan) (hr : chunkEnd ≤ rounds) (hl : chunkEnd ≤ log.length) :
    scanChunks J accept width log minimum rounds chunkEnd s st =
      scanBytes J accept minimum ((log.take chunkEnd).drop minimum).reverse s st := by
  induction rounds generalizing chunkEnd s st with
  | zero =>
    obtain rfl : chunkEnd = 0 := by omega
    simp [scanChunks, scanBytes]
  | succ rounds ih =>
    unfold scanChunks
    split
    · next hgt =>
      have hmin : minimum ≤ max (chunkEnd - width) minimum := by omega
      have hlt : max (chunkEnd - width) minimum < chunkEnd := by omega
      generalize max (chunkEnd - width) minimum = start at hmin hlt
      simp only
      have hsplit : (log.take chunkEnd).drop minimum =
          (log.take start).drop minimum ++ (log.take chunkEnd).drop start := by
        have htake : (log.take chunkEnd).take start = log.take start := by
          rw [List.take_take, Nat.min_eq_left (by omega)]
        conv_lhs => rw [← List.take_append_drop start (log.take chunkEnd), htake]
        rw [List.drop_append_of_le_length (by rw [List.length_take]; omega)]
      have hlen : minimum + ((log.take start).drop minimum).reverse.length = start := by
        rw [List.length_reverse, List.length_drop, List.length_take]; omega
      rw [hsplit, List.reverse_append, scanBytes_append, hlen]
      split
      · rfl
      · exact ih start _ _ (by omega) (by omega)
    · have : (log.take chunkEnd).drop minimum = [] := by
        apply List.drop_of_length_le
        rw [List.length_take]
        omega
      rw [this]
      rfl

/-! ## The offered segments -/

/-- What the scan makes of a line without its delimiter. -/
def segmentRecord (seg : Bytes) : Option HistoryRecord :=
  if seg.length > maxHistoryLineBytes then none
  else if seg.all isAsciiWhitespace then none
  else J.record seg

/-- Offer the records of a list of segments until one is accepted. -/
def offerAll : σ → List (Nat × Bytes) → σ × Option HistoryRecord
  | s, [] => (s, none)
  | s, (offset, seg) :: rest =>
    match offerOne accept s offset (segmentRecord J seg) with
    | (s', some record) => (s', some record)
    | (s', none) => offerAll s' rest

/-- The state of the scan stands for the line read so far. -/
structure Reads (st : ReverseScan) (cur : Bytes) : Prop where
  start_iff : st.lineStart = none ↔ cur = []
  within : cur.length ≤ maxHistoryLineBytes → st.oversized = false ∧ st.reversedLine = cur.reverse
  beyond : maxHistoryLineBytes < cur.length → st.oversized = true

theorem Reads.start : Reads .start [] :=
  ⟨by simp [ReverseScan.start], fun _ => ⟨rfl, rfl⟩, fun h => absurd h (by simp)⟩

theorem Reads.push {st : ReverseScan} {cur : Bytes} (h : Reads st cur) (b : UInt8) (offset : Nat) :
    Reads (st.push b offset) (b :: cur) := by
  rcases Nat.lt_trichotomy cur.length maxHistoryLineBytes with hlt | heq | hgt
  · obtain ⟨ho, hr⟩ := h.within (by omega)
    have hne : st.reversedLine.length ≠ maxHistoryLineBytes := by
      rw [hr, List.length_reverse]; omega
    have e : st.push b offset = ⟨st.reversedLine ++ [b], some offset, false⟩ := by
      unfold ReverseScan.push; rw [if_neg (by simp [ho]), if_neg hne]
    rw [e, hr]
    refine ⟨by simp, fun _ => ⟨rfl, by simp⟩, fun hb => ?_⟩
    simp only [List.length_cons] at hb
    omega
  · obtain ⟨ho, hr⟩ := h.within (by omega)
    have hle : st.reversedLine.length = maxHistoryLineBytes := by
      rw [hr, List.length_reverse]; exact heq
    have e : st.push b offset = ⟨[], some offset, true⟩ := by
      unfold ReverseScan.push; rw [if_neg (by simp [ho]), if_pos hle]
    rw [e]
    refine ⟨by simp, fun hw => ?_, fun _ => rfl⟩
    simp only [List.length_cons] at hw
    omega
  · have ho := h.beyond hgt
    have e : st.push b offset = { st with lineStart := some offset } := by
      unfold ReverseScan.push; rw [if_pos ho]
    rw [e]
    refine ⟨by simp, fun hw => ?_, fun _ => ho⟩
    simp only [List.length_cons] at hw
    omega

theorem Reads.finishLine {st : ReverseScan} {cur : Bytes} (h : Reads st cur) :
    finishLine J st = segmentRecord J cur := by
  unfold Comenq.finishLine segmentRecord
  cases hs : st.lineStart with
  | none =>
    have hc : cur = [] := h.start_iff.1 hs
    subst hc
    simp
  | some o =>
    simp only
    by_cases hl : cur.length > maxHistoryLineBytes
    · rw [h.beyond hl, if_pos rfl, if_pos hl]
    · obtain ⟨ho, hr⟩ := h.within (by omega)
      rw [ho, hr, List.reverse_reverse, if_neg (by simp), if_neg hl]

/-- The scan of a region offers its segments, last one first. The induction is on the region's
bytes from the end; `cur` is the part of a line already read. -/
theorem scanBytes_eq (o : Nat) (xs : Bytes) :
    ∀ (cur : Bytes) (st : ReverseScan) (s : σ), nl ∉ cur → Reads st cur →
      scanFinish J accept o (scanBytes J accept o xs.reverse s st) =
        offerAll J accept s (segmentsAt nl o (xs ++ cur)).reverse := by
  induction xs using List.reverseRecOn with
  | nil =>
    intro cur st s hn h
    rw [List.nil_append, segmentsAt_of_not_mem o hn]
    simp only [List.reverse_nil, scanBytes, scanFinish, List.reverse_cons, List.nil_append,
      offerAll, h.finishLine]
    split <;> simp_all
  | append_singleton xs b ih =>
    intro cur st s hn h
    rw [List.reverse_append, List.reverse_singleton, List.singleton_append]
    simp only [scanBytes, List.length_reverse]
    by_cases hb : b = nl
    · subst hb
      rw [if_pos rfl, List.append_assoc, List.singleton_append, segmentsAt_append,
        segmentsAt_of_not_mem _ hn, List.reverse_append, List.reverse_singleton,
        List.singleton_append]
      simp only [offerAll, h.finishLine]
      split
      · rfl
      · rename_i s' _
        have := ih [] .start s' (by simp) .start
        rwa [List.append_nil] at this
    · rw [if_neg hb, List.append_assoc, List.singleton_append]
      refine ih (b :: cur) _ s ?_ (h.push b _)
      simp only [List.mem_cons, not_or]
      exact ⟨fun e => hb e.symm, hn⟩

/-- The reverse scan offers the records of the region's segments, last one first. -/
theorem scanReverse_eq {log : Bytes} {endOffset : Nat} (he : endOffset ≤ log.length)
    (minimum : Nat) (s : σ) :
    scanReverse J accept log endOffset minimum s =
      offerAll J accept s (segmentsAt nl minimum ((log.take endOffset).drop minimum)).reverse := by
  unfold scanReverse
  rw [scanChunks_eq J accept (by decide) log minimum endOffset endOffset s .start
    (Nat.le_refl _) he, scanBytes_eq J accept minimum _ [] .start s (by simp) .start,
    List.append_nil]

end Scan

end Comenq
