import Comenq.Daemon.Tokens
import Comenq.Lib.RoundRobin
import Comenq.Verify.HistoryReaders
import Comenq.Verify.Recovery

/-!
# Token rotation over any run

The newest readable record of the log names the last token used. Every recorded attempt becomes the
newest record, at once or when its journalled completion is carried out (`Rotates`), and nothing
else changes which record is the newest. So the attempts take the tokens in turn (`token_rotation`),
as long as the search for the newest record finds it: a newer record that fills the line cap hides
it (`Hidden`, `token_rotation_stuck`). Once the record of another attempt is written, the lines
before it no longer matter.
-/

namespace Comenq

open JsonText LineLog Traced CrashTrace RoundRobin

section Rotation

variable {J : SerdeJson} {tokenHashes : List String}

/-! ## Selection -/

/-- The position in the pool of the token the newest readable record names. -/
def tokenIndex (J : SerdeJson) (tokenHashes : List String) (log : Bytes) : Option Nat :=
  (historyRecords J log).getLast?.bind fun r => tokenHashes.findIdx? (· == r.tokenHash)

/-- The newest line that holds a record fills the line cap. -/
def Hidden (J : SerdeJson) (log : Bytes) : Prop :=
  ∃ pre line post, lines nl log = pre ++ line :: post ∧ CapLine J line ∧
    ∀ later ∈ post, segmentRecord J (content nl later) = none

theorem getLast?_filterMap_located {offset : Nat} {ls : List Bytes}
    (h : ∀ pre line post, ls = pre ++ line :: post → CapLine J line →
      ∃ later ∈ post, segmentRecord J (content nl later) ≠ none) :
    ((located offset ls).filterMap fun p =>
        (segmentRecord J (content nl p.2)).map (Prod.mk p.1)).getLast? =
      ((located offset ls).filterMap fun p => (lineRecord J p.2).map (Prod.mk p.1)).getLast? := by
  induction ls using List.reverseRecOn with
  | nil => rfl
  | append_singleton ls line ih =>
    have hcap : ¬ CapLine J line := by
      intro hcap
      obtain ⟨later, hlater, -⟩ := h ls line [] rfl hcap
      cases hlater
    rw [located_append, List.filterMap_append, List.filterMap_append, located, located]
    simp only [List.filterMap_cons, List.filterMap_nil, segmentRecord_content hcap]
    cases hrecord : lineRecord J line with
    | some r => simp
    | none =>
      simp only [Option.map_none, List.append_nil]
      apply ih
      rintro pre earlier post rfl hearlier
      obtain ⟨later, hlater, hsome⟩ := h pre earlier (post ++ [line]) (by simp) hearlier
      rcases List.mem_append.1 hlater with hlater | hlater
      · exact ⟨later, hlater, hsome⟩
      · rw [List.mem_singleton.1 hlater, segmentRecord_content hcap] at hsome
        exact absurd hrecord hsome

/-- The newest record that the scan offers is the newest readable one. -/
theorem getLast?_offered {log : Bytes} (h : ¬ Hidden J log) :
    (recordsOffered J 0 log).getLast? = (recordsFrom J 0 log).getLast? := by
  apply getLast?_filterMap_located
  intro pre line post hlines hcap
  by_contra hnone
  push Not at hnone
  exact h ⟨pre, line, post, hlines, hcap, hnone⟩

/-- The search for the newest record finds it, unless it is hidden. -/
theorem resumes_newest {log : Bytes} (h : ¬ Hidden J log) :
    Resumes J log log.length (recentStart J log log.length 1)
      ((recordsAt J log.length 0 log).drop ((recordsAt J log.length 0 log).length - 1)) := by
  have hlast : ∀ l : List (Nat × HistoryRecord),
      ((l.reverse.take 1).map Prod.fst).getLastD log.length =
      ((l.drop (l.length - 1)).map Prod.fst).headD log.length ∧
      ((l.drop (l.length - 1)).map Prod.fst).headD log.length =
        (l.getLast?.map Prod.fst).getD log.length := by
    intro l
    rcases List.eq_nil_or_concat' l with rfl | ⟨front, last, rfl⟩
    · exact ⟨rfl, rfl⟩
    · simp
  have hres := Resumes.headD (Nat.le_refl _) ((recordsAt J log.length 0 log).length - 1)
    (Nat.le_refl _) (resumes_zero J log)
  rw [slice_all, ← length_recordsFrom log.length 0 log, (hlast _).2, ← getLast?_offered h,
    ← (hlast _).2, ← (hlast _).1, ← recentStart_offered log Nat.one_pos,
    length_recordsFrom log.length 0 log] at hres
  exact hres

theorem lastTokenHash_eq {log : Bytes} (h : ¬ Hidden J log) (fill : Nat → Nat) :
    lastTokenHash J (some log) fill =
      .ok ((historyRecords J log).getLast?.map HistoryRecord.tokenHash) := by
  obtain ⟨page, hpage, hreads⟩ := readPage_eq fill (Nat.le_refl _) Nat.one_pos
    (resumes_newest h) (show validateCursor log none = .ok () from rfl)
    (pageOffsets_recent log 0)
  have hlast : page.records.getLast? = (recordsAt J log.length 0 log).getLast? := by
    rw [hreads.records]
    rcases List.eq_nil_or_concat' (recordsAt J log.length 0 log) with hnil | ⟨front, last, hconcat⟩
    · rw [hnil]
      rfl
    · rw [hconcat, List.length_append, List.length_singleton, Nat.add_sub_cancel, List.drop_left,
        List.getLast?_concat]
      rfl
  unfold lastTokenHash
  rw [hpage]
  change Except.ok _ = _
  rw [hlast, ← map_record_recordsAt log.length 0 log, List.getLast?_map, Option.map_map]
  rfl

/-- The token behind the one named by the newest record. -/
theorem chooseToken_eq {history : Option Bytes} (hpool : tokenHashes ≠ [])
    (hseen : ¬ Hidden J (history.getD [])) (fill : Nat → Nat) :
    chooseToken J tokenHashes history fill =
      next tokenHashes.length 0 (tokenIndex J tokenHashes (history.getD [])) := by
  have hhash : lastTokenHash J history fill =
      .ok ((historyRecords J (history.getD [])).getLast?.map HistoryRecord.tokenHash) := by
    cases history with
    | none => rfl
    | some log => exact lastTokenHash_eq hseen fill
  unfold chooseToken nextTokenIndex tokenIndex
  rw [hhash, if_neg (fun h => hpool (List.length_eq_zero_iff.1 h))]
  simp only [Option.bind_map]
  rw [show ((fun hash => tokenHashes.findIdx? (· == hash)) ∘ HistoryRecord.tokenHash) =
    fun r => tokenHashes.findIdx? (· == r.tokenHash) from rfl]
  cases (historyRecords J (history.getD [])).getLast?.bind
      fun r => tokenHashes.findIdx? (· == r.tokenHash) with
  | none => exact (Nat.zero_mod _).symm
  | some index => rfl

/-- A client is where its hash is found, as no other has this hash. -/
theorem findIdx?_hash (hnodup : tokenHashes.Nodup) {index : Nat} {hash : String}
    (h : tokenHashes[index]? = some hash) : tokenHashes.findIdx? (· == hash) = some index := by
  obtain ⟨hlt, rfl⟩ := List.getElem?_eq_some_iff.1 h
  rw [List.findIdx?_eq_some_iff_getElem]
  refine ⟨hlt, by simp, ?_⟩
  intro j hj
  simp only [Bool.not_eq_true, beq_eq_false_iff_ne, ne_eq]
  intro heq
  have := (hnodup.getElem_inj_iff).1 heq
  omega

/-! ## Growing logs -/

/-- No line parses as a record. -/
def Malformed (J : SerdeJson) (bytes : Bytes) : Prop :=
  ∀ line ∈ lines nl bytes, J.record line = none

theorem Malformed.records {bytes : Bytes} (h : Malformed J bytes) :
    historyRecords J bytes = [] := by
  unfold historyRecords collect
  rw [List.filterMap_eq_nil_iff]
  exact fun line hline => lineRecord_of_none (h line hline)

/-- Nor does the scan offer one. -/
theorem segmentRecord_of_none {line : Bytes} (h : J.record line = none) :
    segmentRecord J (content nl line) = none := by
  unfold content
  split
  · next hlast =>
    obtain ⟨t, rfl⟩ : ∃ t, line = t ++ [nl] := List.getLast?_eq_some_iff.1 hlast
    rw [J.record_nl] at h
    rw [List.dropLast_concat]
    exact lineRecord_of_none h
  · exact lineRecord_of_none h

/-- Finishing the last line does not make it parse. -/
theorem Malformed.close {bytes : Bytes} (h : Malformed J bytes) :
    Malformed J (close nl bytes) := by
  by_cases hb : Closed nl bytes
  · rwa [close_of_closed hb]
  · obtain ⟨Y, t, rfl, hY, ht⟩ := exists_tail nl bytes
    have htn : t ≠ [] := by
      rintro rfl
      rw [List.append_nil] at hb
      exact hb hY
    rw [close_of_not_closed hb, List.append_assoc]
    intro line hline
    rw [lines_append hY, lines_append_singleton ht] at hline
    rcases List.mem_append.1 hline with hline | hline
    · exact h line (by rw [lines_append hY]; exact List.mem_append_left _ hline)
    · rw [List.mem_singleton.1 hline, J.record_nl]
      exact h t (by rw [lines_append hY, lines_of_not_mem htn ht]; simp)

/-- The lines come behind a finished line, or finish the last one first. -/
theorem Noise.cases {log bytes : Bytes} (h : Noise J log bytes) :
    (Closed nl log ∧ Malformed J bytes) ∨
      (¬ Closed nl log ∧ ∃ rest, bytes = nl :: rest ∧ Malformed J rest) := by
  by_cases hL : Closed nl log
  · exact Or.inl ⟨hL, h.malformed⟩
  · obtain ⟨rest, rfl⟩ := List.head?_eq_some_iff.1 (h.apart.resolve_left hL)
    refine Or.inr ⟨hL, rest, rfl, ?_⟩
    intro line hline
    have hclosed : Closed nl [nl] := closed_append_singleton []
    apply h.malformed
    rw [← List.singleton_append, lines_append hclosed]
    exact List.mem_append_right _ hline

theorem append_nl_cons (log rest : Bytes) : log ++ nl :: rest = (log ++ [nl]) ++ rest := by
  rw [List.append_assoc, List.singleton_append]

/-- Lines that do not parse leave the records as they are, unless they finish a record at the
cap. -/
theorem Noise.records {log bytes : Bytes} (h : Noise J log bytes) (htail : ¬ CapTail J log) :
    historyRecords J (log ++ bytes) = historyRecords J log := by
  rcases h.cases with ⟨hL, hb⟩ | ⟨hL, rest, rfl, hb⟩
  · rw [historyRecords_append hL, hb.records, List.append_nil]
  · rw [append_nl_cons, ← close_of_not_closed hL, historyRecords_append (closed_close log),
      hb.records, List.append_nil, (historyRecords_close_iff log).2 htail]

/-- Behind lines that do not parse there is no record at the cap. -/
theorem Malformed.not_capTail {log bytes : Bytes} (hb : Malformed J bytes) (hL : Closed nl log) :
    ¬ CapTail J (log ++ bytes) := by
  rintro ⟨L, t, heq, hL', ht, hlen, hsome⟩
  obtain ⟨Y, t', rfl, hY, ht'⟩ := exists_tail nl bytes
  rw [← List.append_assoc] at heq
  obtain rfl : t = t' := tail_unique hL' ht (hL.append hY) ht' heq.symm
  have htn : t ≠ [] := by
    rintro rfl
    exact absurd hlen (by decide)
  have hmem : t ∈ lines nl (Y ++ t) := by
    rw [lines_append hY, lines_of_not_mem htn ht]
    simp
  rw [show segmentRecord J t = none from lineRecord_of_none (hb t hmem)] at hsome
  cases hsome

theorem Noise.not_capTail {log bytes : Bytes} (h : Noise J log bytes) :
    ¬ CapTail J (log ++ bytes) := by
  rcases h.cases with ⟨hL, hb⟩ | ⟨-, rest, rfl, hb⟩
  · exact hb.not_capTail hL
  · rw [append_nl_cons]
    exact hb.not_capTail (closed_append_singleton log)

theorem Hidden.malformed {log bytes : Bytes} (h : Hidden J log) (hL : Closed nl log)
    (hb : Malformed J bytes) : Hidden J (log ++ bytes) := by
  obtain ⟨pre, line, post, hlines, hcap, hpost⟩ := h
  refine ⟨pre, line, post ++ lines nl bytes, ?_, hcap, ?_⟩
  · rw [lines_append hL, hlines, List.append_assoc, List.cons_append]
  · intro later hlater
    rcases List.mem_append.1 hlater with hlater | hlater
    · exact hpost later hlater
    · exact segmentRecord_of_none (hb later hlater)

/-- Finishing the last line does not uncover the newest record. -/
theorem Hidden.finish {log : Bytes} (h : Hidden J log) (hopen : ¬ Closed nl log) :
    Hidden J (log ++ [nl]) := by
  obtain ⟨pre, line, post, hlines, hcap, hpost⟩ := h
  obtain ⟨L, t, rfl, hL, ht⟩ := exists_tail nl log
  have htn : t ≠ [] := by
    rintro rfl
    rw [List.append_nil] at hopen
    exact hopen hL
  rw [lines_append hL, lines_of_not_mem htn ht] at hlines
  have hdone : lines nl (L ++ t ++ [nl]) = lines nl L ++ [t ++ [nl]] := by
    rw [List.append_assoc, lines_append hL, lines_append_singleton ht]
  rcases List.eq_nil_or_concat' post with rfl | ⟨post, last, rfl⟩
  · -- the line at the cap is a finished one
    obtain ⟨-, hline⟩ := List.append_inj' hlines rfl
    obtain ⟨t', rfl, -⟩ := hcap
    obtain rfl : t = t' ++ [nl] := by simpa using hline
    simp at ht
  · rw [← List.cons_append, ← List.append_assoc] at hlines
    obtain ⟨hpre, hlast⟩ := List.append_inj' hlines rfl
    obtain rfl : t = last := by simpa using hlast
    refine ⟨pre, line, post ++ [t ++ [nl]], ?_, hcap, ?_⟩
    · rw [hdone, hpre, List.append_assoc, List.cons_append]
    · intro later hlater
      rcases List.mem_append.1 hlater with hlater | hlater
      · exact hpost later (List.mem_append_left _ hlater)
      · rw [List.mem_singleton.1 hlater, content_append_singleton]
        have hnone := hpost t (List.mem_append_right _ (List.mem_singleton_self t))
        rwa [content_of_not_mem ht] at hnone

/-- A log that ends in a record at the cap hides its newest record once this is finished. -/
theorem hidden_of_capTail {log : Bytes} (h : CapTail J log) : Hidden J (log ++ [nl]) := by
  obtain ⟨L, t, rfl, hL, ht, hlen, hsome⟩ := h
  refine ⟨lines nl L, t ++ [nl], [], ?_, ⟨t, rfl, hlen, hsome⟩, nofun⟩
  rw [List.append_assoc, lines_append hL, lines_append_singleton ht]

theorem Hidden.noise {log bytes : Bytes} (h : Hidden J log) (hn : Noise J log bytes) :
    Hidden J (log ++ bytes) := by
  rcases hn.cases with ⟨hL, hb⟩ | ⟨hL, rest, rfl, hb⟩
  · exact h.malformed hL hb
  · rw [append_nl_cons]
    exact (h.finish hL).malformed (closed_append_singleton log) hb

/-- Lines that do not parse leave the newest record as it is, or hide it. -/
theorem Noise.tokenIndex {log bytes : Bytes} (hn : Noise J log bytes) :
    Hidden J (log ++ bytes) ∨
      tokenIndex J tokenHashes (log ++ bytes) = tokenIndex J tokenHashes log := by
  by_cases htail : CapTail J log
  · left
    rcases hn.cases with ⟨hL, -⟩ | ⟨-, rest, rfl, hb⟩
    · obtain ⟨L, t, rfl, -, ht, hlen, -⟩ := htail
      have htn : t ≠ [] := by
        rintro rfl
        exact absurd hlen (by decide)
      exact absurd hL (not_closed_append L htn ht)
    · rw [append_nl_cons]
      exact (hidden_of_capTail htail).malformed (closed_append_singleton log) hb
  · right
    unfold Comenq.tokenIndex
    rw [hn.records htail]

theorem Pending.malformed {attempt : String} {H log bytes : Bytes} (h : Pending J attempt H log)
    (hL : Closed nl log) (hb : Malformed J bytes) :
    Pending J attempt H (log ++ bytes) := by
  obtain ⟨X, rfl, hX⟩ := h.undelivered
  refine ⟨⟨X ++ bytes, List.append_assoc _ _ _, ?_⟩, ?_⟩
  · intro line hline
    rw [lines_append (closed_of_append hL)] at hline
    rcases List.mem_append.1 hline with hline | hline
    · exact hX line hline
    · exact not_delivers_of_none (hb line hline)
  · have hclose : close nl (H ++ X ++ bytes) = H ++ X ++ close nl bytes := by
      by_cases hbytes : Closed nl bytes
      · rw [close_of_closed (hL.append hbytes), close_of_closed hbytes]
      · have hopen : ¬ Closed nl (H ++ X ++ bytes) := fun hc => hbytes (closed_of_append hc)
        rw [close_of_not_closed hopen, close_of_not_closed hbytes, List.append_assoc]
    rw [hclose, historyRecords_append hL, hb.close.records, List.append_nil, ← h.records,
      close_of_closed hL]

theorem Pending.noise {attempt : String} {H log bytes : Bytes} (h : Pending J attempt H log)
    (hn : Noise J log bytes) (r : HistoryRecord) : Pending J attempt H (log ++ bytes) := by
  rcases hn.cases with ⟨hL, hb⟩ | ⟨hL, rest, rfl, hb⟩
  · exact h.malformed hL hb
  · rw [append_nl_cons]
    exact (h.repair r hL).malformed (closed_append_singleton log) hb

/-- The log has grown by lines of its own. -/
def Grown (H log : Bytes) : Prop :=
  ∃ X, log = H ++ X ∧ (X = [] ∨ Closed nl H ∨ X.head? = some nl)

theorem Grown.append {H log bytes : Bytes} (h : Grown H log)
    (hb : bytes = [] ∨ Closed nl log ∨ bytes.head? = some nl) : Grown H (log ++ bytes) := by
  obtain ⟨X, rfl, hX⟩ := h
  refine ⟨X ++ bytes, List.append_assoc _ _ _, ?_⟩
  by_cases hnil : X = []
  · rw [hnil, List.append_nil] at hb
    rw [hnil]
    exact hb
  · refine Or.inr ((hX.resolve_left hnil).imp id fun hhead => ?_)
    rw [List.head?_append_of_ne_nil X hnil, hhead]

/-- The record is on a line the log has grown by. -/
theorem Logged.line {r : HistoryRecord} {H X : Bytes} (h : Logged J r H (H ++ X))
    (hX : X = [] ∨ Closed nl H ∨ X.head? = some nl) :
    ∃ line ∈ lines nl X, lineRecord J line = some r := by
  have hmem : ∀ ys : Bytes, historyRecords J ys = [r] →
      ∃ line ∈ lines nl ys, lineRecord J line = some r := by
    intro ys hys
    have hr : r ∈ historyRecords J ys := by rw [hys]; exact List.mem_singleton_self r
    exact List.mem_filterMap.1 hr
  have hrecords := h.records
  by_cases hH : Closed nl H
  · rw [close_of_closed hH, historyRecords_append hH] at hrecords
    exact hmem X (List.append_cancel_left hrecords)
  · have hne : X ≠ [] := by
      rintro rfl
      obtain ⟨line, hline, -⟩ := (containsAttempt_append J H [] r.attemptId).1 h.contains
      cases hline
    obtain ⟨rest, rfl⟩ := List.head?_eq_some_iff.1 ((hX.resolve_left hne).resolve_left hH)
    rw [append_nl_cons, ← close_of_not_closed hH, historyRecords_append (closed_close H)]
      at hrecords
    obtain ⟨line, hline, hr⟩ := hmem rest (List.append_cancel_left hrecords)
    have hclosed : Closed nl [nl] := closed_append_singleton []
    refine ⟨line, ?_, hr⟩
    rw [← List.singleton_append, lines_append hclosed]
    exact List.mem_append_right _ hline

theorem delivers_of_lineRecord {r : HistoryRecord} {line : Bytes} (h : lineRecord J line = some r) :
    line.length ≤ maxHistoryLineBytes ∧ J.record line = some r := by
  unfold lineRecord at h
  split at h
  · cases h
  · next hle =>
    split at h
    · cases h
    · exact ⟨Nat.le_of_not_lt hle, h⟩

/-- A log that has grown by a record is not what it was before. -/
theorem Logged.not_capTail {r : HistoryRecord} {H log : Bytes} (h : Logged J r H log)
    (hu : log = H ∨ ¬ CapTail J log) : ¬ CapTail J log := by
  refine hu.resolve_left ?_
  rintro rfl
  have hcontains : containsAttempt J (log ++ []) r.attemptId log.length = true := by
    rw [List.append_nil]
    exact h.contains
  obtain ⟨line, hline, -⟩ := (containsAttempt_append J log [] r.attemptId).1 hcontains
  cases hline

/-- The line of the record still delivers it, unless it fills the cap. -/
theorem Logged.noise {r : HistoryRecord} {H log bytes : Bytes} (h : Logged J r H log)
    (hg : Grown H log) (hn : Noise J log bytes) (htail : ¬ CapTail J log) :
    Logged J r H (log ++ bytes) := by
  refine ⟨?_, by rw [hn.records htail, h.records]⟩
  obtain ⟨X, rfl, hX⟩ := hg
  obtain ⟨line, hline, hr⟩ := h.line hX
  obtain ⟨hlen, hrecord⟩ := delivers_of_lineRecord hr
  rw [List.append_assoc, containsAttempt_append]
  obtain ⟨Y, t, rfl, hY, ht⟩ := exists_tail nl X
  rw [lines_append hY] at hline
  rw [List.append_assoc, lines_append hY]
  rcases List.mem_append.1 hline with hline | hline
  · exact ⟨line, List.mem_append_left _ hline, hlen, r, hrecord, rfl⟩
  · -- the line is the unfinished last one
    have htn : t ≠ [] := by
      rintro rfl
      cases hline
    rw [lines_of_not_mem htn ht, List.mem_singleton] at hline
    subst hline
    have hopen : ¬ Closed nl (H ++ (Y ++ line)) := by
      rw [← List.append_assoc]
      exact not_closed_append _ htn ht
    rcases hn.cases with ⟨hL, -⟩ | ⟨-, rest, rfl, -⟩
    · exact absurd hL hopen
    · have hlt : line.length ≠ maxHistoryLineBytes := by
        intro heq
        refine htail ⟨H ++ Y, line, by rw [List.append_assoc], ?_, ht, heq, ?_⟩
        · rcases List.eq_nil_or_concat' Y with rfl | ⟨Y', b, rfl⟩
          · have hhead : line.head? ≠ some nl := fun hh => ht (List.mem_of_head? hh)
            rw [List.nil_append] at hX
            rw [List.append_nil]
            exact (hX.resolve_left htn).resolve_right hhead
          · have hb : b = nl := hY b (by simp)
            rw [hb, ← List.append_assoc]
            exact closed_append_singleton _
        · rw [show segmentRecord J line = some r from hr]
          rfl
      refine ⟨line ++ [nl], List.mem_append_right _ ?_, ?_, r, by rw [J.record_nl, hrecord], rfl⟩
      · rw [append_nl_cons, lines_append (closed_append_singleton line), lines_append_singleton ht]
        simp
      · rw [List.length_append, List.length_singleton]
        omega

/-! ## Attempts under way -/

/-- A journalled attempt whose record is in the log or will be. -/
structure Underway (J : SerdeJson) (c : CompletionRecord) (r : HistoryRecord) (H : Bytes)
    (fs : QueueFs) : Prop where
  journal : fs.completion = some c.toVec
  valid : isValidId c.id = true
  history : c.history = some r
  offset : c.historyOffset = some H.length
  fits : r.FitsLine
  grown : Grown H fs.historyBytes
  log : Pending J r.attemptId H fs.historyBytes ∨ Logged J r H fs.historyBytes

/-- Only what the log was before may end in a record at the cap. -/
def Untorn (J : SerdeJson) (H log : Bytes) : Prop := log = H ∨ ¬ CapTail J log

/-- The journal names `index` as the token used last, or else the newest record does, unless it is
hidden. -/
def Rotates (J : SerdeJson) (tokenHashes : List String) (index : Option Nat)
    (fs : QueueFs) : Prop :=
  (fs.completion = none ∧
    (Hidden J fs.historyBytes ∨ tokenIndex J tokenHashes fs.historyBytes = index)) ∨
  ∃ c r H, Underway J c r H fs ∧ Untorn J H fs.historyBytes ∧
    tokenHashes.findIdx? (· == r.tokenHash) = index

variable {c : CompletionRecord} {r : HistoryRecord} {H : Bytes} {index : Option Nat}
    {fs fs' : QueueFs}

theorem Rotates.congr (h : Rotates J tokenHashes index fs) (hlog : fs'.history = fs.history)
    (hjournal : fs'.completion = fs.completion) : Rotates J tokenHashes index fs' := by
  have hbytes : fs'.historyBytes = fs.historyBytes := by
    unfold QueueFs.historyBytes
    rw [hlog]
  rcases h with ⟨hnone, hindex⟩ | ⟨c, r, H, hu, huntorn, hindex⟩
  · exact Or.inl ⟨hjournal.trans hnone, hbytes ▸ hindex⟩
  · exact Or.inr ⟨c, r, H, ⟨hjournal.trans hu.journal, hu.valid, hu.history, hu.offset, hu.fits,
      hbytes ▸ hu.grown, hbytes ▸ hu.log⟩, hbytes ▸ huntorn, hindex⟩

theorem Rotates.noise (h : Rotates J tokenHashes index fs) {bytes : Bytes}
    (hn : Noise J fs.historyBytes bytes) :
    Rotates J tokenHashes index { fs with history := some (fs.historyBytes ++ bytes) } := by
  rcases h with ⟨hnone, hindex⟩ | ⟨c, r, H, hu, huntorn, hindex⟩
  · refine Or.inl ⟨hnone, ?_⟩
    change Hidden J (fs.historyBytes ++ bytes) ∨
      tokenIndex J tokenHashes (fs.historyBytes ++ bytes) = index
    rcases hindex with hidden | hindex
    · exact Or.inl (hidden.noise hn)
    · rw [← hindex]
      exact hn.tokenIndex
  · refine Or.inr ⟨c, r, H, ⟨hu.journal, hu.valid, hu.history, hu.offset, hu.fits,
      hu.grown.append (Or.inr hn.apart), ?_⟩, Or.inr hn.not_capTail, hindex⟩
    exact hu.log.imp (fun hp => hp.noise hn r) fun hl =>
      hl.noise hu.grown hn (hl.not_capTail huntorn)

/-- A record that has just become the newest one. -/
theorem tokenIndex_of_getLast? {log : Bytes} (h : (historyRecords J log).getLast? = some r) :
    tokenIndex J tokenHashes log = tokenHashes.findIdx? (· == r.tokenHash) := by
  unfold tokenIndex
  rw [h]
  rfl

theorem Underway.progress (h : Underway J c r H fs) (hclean : Clean J fs) :
    Progress J c r { fs with history := some H } fs :=
  ⟨hclean, h.journal, h.log, rfl, Or.inl ⟨rfl, rfl⟩⟩

/-- Carrying out a journalled attempt keeps it under way until its record is the newest. -/
theorem rotates_of_finishing {g : QueueFs} (h : Progress J c r g fs ∨ Done J c r g fs)
    (hg : Grown g.historyBytes fs.historyBytes) (hu : Untorn J g.historyBytes fs.historyBytes)
    (hv : isValidId c.id = true) (hc : c.history = some r)
    (hoff : c.historyOffset = some g.historyBytes.length) (hr : r.FitsLine) :
    Rotates J tokenHashes (tokenHashes.findIdx? (· == r.tokenHash)) fs := by
  rcases h with hp | hd
  · exact Or.inr ⟨c, r, g.historyBytes, ⟨hp.journal, hv, hc, hoff, hr, hg, hp.log⟩, hu, rfl⟩
  · refine Or.inl ⟨hd.completion, Or.inr (tokenIndex_of_getLast? ?_)⟩
    rw [hd.records, List.getLast?_concat]

/-- The bytes an append writes start on a line of their own. -/
theorem appendedBytes_apart {log bytes : Bytes} (h : bytes <+: appendedBytes r log) :
    bytes = [] ∨ Closed nl log ∨ bytes.head? = some nl := by
  by_cases hL : Closed nl log
  · exact Or.inr (Or.inl hL)
  · unfold appendedBytes at h
    rw [if_neg hL, List.singleton_append] at h
    rcases List.prefix_cons_iff.1 h with rfl | ⟨rest, rfl, -⟩
    · exact Or.inl rfl
    · exact Or.inr (Or.inr rfl)

theorem appended_finishTrace (c : CompletionRecord) (r : HistoryRecord) (fs : QueueFs) :
    (finishTrace J c r fs).flatMap FsEvent.appended <+: appendedBytes r fs.historyBytes := by
  have hlog : (finishTrace J c r fs).flatMap FsEvent.appended =
      (logTrace J c r fs).flatMap FsEvent.appended := by
    unfold finishTrace clearTrace
    simp only [List.flatMap_append]
    split <;> split <;> simp [FsEvent.appended]
  rw [hlog]
  unfold logTrace
  split
  · exact List.nil_prefix
  · rw [appended_appendTrace]

/-- Carrying out a journalled attempt, wherever it is cut off, adds lines to the log. -/
theorem Grown.finishing (h : Grown H fs.historyBytes) {p : List FsEvent}
    (hp : Cut Tears p (finishTrace J c r fs)) :
    Grown H (CrashTrace.run QueueFs.step fs p).historyBytes := by
  have hbytes : (CrashTrace.run QueueFs.step fs p).historyBytes = _ := historyBytes_run fs p
  rw [hbytes]
  exact h.append (appendedBytes_apart ((appended_cut hp).trans (appended_finishTrace c r fs)))

theorem Untorn.finishing (h : Untorn J H fs.historyBytes) (hr : r.FitsLine) {p : List FsEvent}
    (hp : Cut Tears p (finishTrace J c r fs)) :
    Untorn J H (CrashTrace.run QueueFs.step fs p).historyBytes := by
  have hbytes : (CrashTrace.run QueueFs.step fs p).historyBytes = _ := historyBytes_run fs p
  rw [hbytes]
  rcases torn_appendedBytes ((appended_cut hp).trans (appended_finishTrace c r fs)) with
    hsame | ⟨q, hq, hgrown⟩
  · rw [hsame]
    exact h
  · rw [hgrown]
    exact Or.inr (not_capTail_append hr (closed_close _) hq)

/-! ## Calls -/

/-- A call that does not touch the log leaves it alone wherever it is cut off. -/
theorem Op.leaves_history {op : Op} (hs : op.Sound) (hl : op.Leaves J fs fs')
    (hno : ¬ op.Kinds J fs .log) : fs'.history = fs.history := by
  obtain ⟨p, hp, rfl⟩ := hl
  have hkeep : Throughout QueueFs.step Tears (fun g => g.history = fs.history) fs
      (op.exec J fs).trace := by
    refine (performs_exec hs).along.throughout ?_ ?_ rfl
    · rintro g ev hg ⟨k, hk, hch⟩
      cases hch with
      | openLog | log | syncLog => exact absurd hk hno
      | _ => exact hg
    · rintro g ev ev' hg ⟨k, hk, hch⟩ ht
      cases ht
      cases hch
      exact absurd hk hno
  exact hkeep p hp

/-- The calls that carry out a journalled completion before anything else. -/
def Op.isRecovery : Op → Bool
  | .recoverWorkerState _ | .reopen _ => true
  | _ => false

theorem Clean.recoverWorkerState_some (h : Clean J fs) (hj : fs.completion = some c.toVec)
    (hv : isValidId c.id = true) (hc : c.history = some r) (fresh : String → Uuid) :
    recoverWorkerState J fresh fs =
      (recoverWorkerState J fresh (finishedFs J c r fs)).after (finishTrace J c r fs) := by
  have hrec := h.reconcileCompletion_run hj hv hc
  have hnone : reconcileCompletion J (finishedFs J c r fs) = ⟨.ok (), []⟩ :=
    Clean.reconcileCompletion_none rfl
  unfold recoverWorkerState
  rw [run_bind_ok hrec, run_bind_ok hnone, Ran.after_nil, run_finishTrace]
  rfl

/-- Recovery first finishes the journalled completion, then goes on without one. -/
theorem Clean.recovery_trace (h : Clean J fs) (hj : fs.completion = some c.toVec)
    (hv : isValidId c.id = true) (hc : c.history = some r) {op : Op} (hop : op.isRecovery = true) :
    (op.exec J fs).trace = finishTrace J c r fs ++ (op.exec J (finishedFs J c r fs)).trace := by
  cases op with
  | recoverWorkerState fresh =>
    unfold Op.exec
    rw [trace_map, trace_map, h.recoverWorkerState_some hj hv hc fresh]
    rfl
  | reopen fresh =>
    unfold Op.exec
    rw [trace_map, trace_map, h.openStore_some hj hv hc fresh]
    rfl
  | _ => cases hop

/-- Recovery is cut off while it finishes the completion, or after that. -/
theorem Clean.recovery_leaves (h : Clean J fs) (hj : fs.completion = some c.toVec)
    (hv : isValidId c.id = true) (hc : c.history = some r) {op : Op} (hop : op.isRecovery = true)
    (hl : op.Leaves J fs fs') :
    (∃ p, Cut Tears p (finishTrace J c r fs) ∧ fs' = CrashTrace.run QueueFs.step fs p) ∨
      op.Leaves J (finishedFs J c r fs) fs' := by
  obtain ⟨p, hp, rfl⟩ := hl
  rw [h.recovery_trace hj hv hc hop] at hp
  rcases cut_append.1 hp with hcut | ⟨q, rfl, hq⟩
  · exact Or.inl ⟨p, hcut, rfl⟩
  · rw [run_append, run_finishTrace]
    exact Or.inr ⟨q, hq, rfl⟩

/-- What an append leaves of a record, wherever it is cut off. -/
theorem historyBytes_of_append (hl : (Op.appendHistory r).Leaves J fs fs') :
    ∃ p, p <+: appendedBytes r fs.historyBytes ∧ fs'.historyBytes = fs.historyBytes ++ p := by
  obtain ⟨p, hp, rfl⟩ := hl
  unfold Op.exec at hp
  rw [trace_map, append_run] at hp
  have hpart := appended_cut hp
  rw [appended_appendTrace] at hpart
  exact ⟨_, hpart, historyBytes_run fs p⟩

theorem Op.recovery_kinds {op : Op} (hop : op.isRecovery = true) (hnone : fs.completion = none) :
    ¬ op.Kinds J fs .log ∧ op.Quiet J fs := by
  have hpending : pendingCompletion J fs = none := by
    unfold pendingCompletion
    rw [hnone]
    rfl
  cases op with
  | recoverWorkerState fresh => simp [Op.Kinds, Op.Quiet, hpending]
  | reopen fresh => simp [Op.Kinds, Op.Quiet, hpending]
  | _ => cases hop

/-- Recovery keeps the rotation, wherever it is cut off. -/
theorem Rotates.recovery (h : Rotates J tokenHashes index fs) (hclean : Clean J fs) {op : Op}
    (hop : op.isRecovery = true) (hs : op.Sound) (hl : op.Leaves J fs fs') :
    Rotates J tokenHashes index fs' := by
  rcases h with ⟨hnone, hindex⟩ | ⟨c, r, H, hu, huntorn, hindex⟩
  · obtain ⟨hno, hquiet⟩ := Op.recovery_kinds (J := J) hop hnone
    refine Rotates.congr (Or.inl ⟨hnone, hindex⟩) (Op.leaves_history hs hl hno) ?_
    exact hquiet.completion_eq hclean hs hl
  · have hp := hu.progress hclean
    subst hindex
    rcases hclean.recovery_leaves hu.journal hu.valid hu.history hop hl with ⟨p, hcut, rfl⟩ | hl
    · exact rotates_of_finishing (hp.finishes hu.fits hu.offset p hcut) (hu.grown.finishing hcut)
        (huntorn.finishing hu.fits hcut) hu.valid hu.history hu.offset hu.fits
    · have hd := hp.done hu.fits hu.offset
      have hwhole : Cut Tears _ (finishTrace J c r fs) := .refl _
      have hgrown := hu.grown.finishing hwhole
      have huntorn' := huntorn.finishing hu.fits hwhole
      rw [run_finishTrace] at hgrown huntorn'
      have hstart : Rotates J tokenHashes _ (finishedFs J c r fs) :=
        rotates_of_finishing (Or.inr hd) hgrown huntorn' hu.valid hu.history hu.offset hu.fits
      obtain ⟨hno, hquiet⟩ := Op.recovery_kinds (J := J) hop hd.completion
      exact hstart.congr (Op.leaves_history hs hl hno) (hquiet.completion_eq hd.clean hs hl)

/-- Requests, claims and releases keep the rotation. -/
theorem Rotates.quiet (h : Rotates J tokenHashes index fs) (hclean : Clean J fs) {op : Op}
    (hs : op.Sound) (hl : op.Leaves J fs fs') (hno : ¬ op.Kinds J fs .log) (hq : op.Quiet J fs) :
    Rotates J tokenHashes index fs' :=
  h.congr (Op.leaves_history hs hl hno) (hq.completion_eq hclean hs hl)

theorem not_log_of_isRequest {op : Op} (h : op.isRequest = true) : ¬ op.Kinds J fs .log := by
  cases op with
  | put | bump | bust | del => simp [Op.Kinds]
  | _ => cases h

end Rotation

/-! ## Steps -/

section Steps

variable {J : SerdeJson} {tokenHashes : List String} {index : Option Nat} {w w' : World}

/-- The calls that record no attempt keep the rotation, wherever they are cut off. -/
theorem Rotates.leaves (h : Rotates J tokenHashes index w.fs) (howned : w.Owned J) {a : Action}
    (hact : a.isOther = true) {op : Op} (hcall : Calls w.phase a op) {fs' : QueueFs}
    (hl : op.Leaves J w.fs fs') : Rotates J tokenHashes index fs' := by
  have hs := howned.sound hcall
  obtain ⟨fs, phase, used⟩ := w
  cases hcall with
  | listen hr => exact h.quiet howned.clean hs hl (not_log_of_isRequest hr) (quiet_of_isRequest hr)
  | recover fresh => exact h.recovery howned.clean rfl hs hl
  | openQueue fresh => exact h.recovery howned.clean rfl hs hl
  | claim cooldown now token =>
    exact h.quiet howned.clean hs hl (by simp [Op.Kinds]) (by simp [Op.Quiet, Op.Kinds])
  | release now claim =>
    exact h.quiet howned.clean hs hl (by simp [Op.Kinds]) (by simp [Op.Quiet, Op.Kinds])
  | complete | recordFailure => cases hact

theorem Rotates.other (h : Rotates J tokenHashes index w.fs) (howned : w.Owned J) {a : Action}
    (hact : a.isOther = true) (hstep : Step J w a w') : Rotates J tokenHashes index w'.fs := by
  cases hstep with
  | returned hcall _ _ => exact h.leaves howned hact hcall (Op.leaves_final J _ _)
  | failed hcall _ hl => exact h.leaves howned hact hcall hl
  | killed hcall _ hl => exact h.leaves howned hact hcall hl
  | stop _ _ => exact h
  | die _ => exact h
  | tamper act =>
    rw [act] at hact
    cases hact

/-- A step that makes a call leaves what the call may leave. -/
theorem Step.leaves {a : Action} (h : Step J w a w')
    (hact : a ≠ .stop ∧ a ≠ .die ∧ ∀ log, a ≠ .tamper log) :
    ∃ op, Calls w.phase a op ∧ op.Leaves J w.fs w'.fs := by
  cases h with
  | returned hcall _ _ => exact ⟨_, hcall, Op.leaves_final J _ _⟩
  | failed hcall _ hl => exact ⟨_, hcall, hl⟩
  | killed hcall _ hl => exact ⟨_, hcall, hl⟩
  | stop act _ => exact absurd act hact.1
  | die act => exact absurd act hact.2.1
  | tamper act => exact absurd act (hact.2.2 _)

/-- What a completion leaves: nothing, or its attempt under way or recorded. -/
theorem World.Owned.rotates_complete (howned : w.Owned J) {e : StoredEntry}
    (hheld : w.phase = .up (.holding e)) {hash : String} {now : UInt64} {commentUrl : Option String}
    {attempt : Uuid} (hfits : (HistoryRecord.succeeded attempt e hash now commentUrl).FitsLine)
    {fs' : QueueFs} (hl : (Op.completeClaim e hash now commentUrl attempt).Leaves J w.fs fs') :
    fs' = w.fs ∨ Rotates J tokenHashes (tokenHashes.findIdx? (· == hash)) fs' := by
  obtain ⟨hv, token, htoken, -⟩ := howned.held hheld
  set c := completionRecord e hash now commentUrl attempt w.fs.historyBytes.length with hc
  set r := HistoryRecord.succeeded attempt e hash now commentUrl with hr
  have hv' : isValidId c.id = true := hv
  have hrun := howned.clean.completeClaim_run hv (Or.inl (by rw [htoken]; rfl)) hash now commentUrl
    attempt hc hr
  have hstart : Progress J c r w.fs { w.fs with completion := some c.toVec } :=
    ⟨howned.clean.step (k := .journal c) (.journal hv' rfl), rfl, Or.inl (.start J _ _), rfl,
      Or.inl ⟨rfl, rfl⟩⟩
  have hgrown : Grown w.fs.historyBytes
      ({ w.fs with completion := some c.toVec } : QueueFs).historyBytes :=
    ⟨[], (List.append_nil _).symm, Or.inl rfl⟩
  obtain ⟨p, hp, rfl⟩ := hl
  unfold Op.exec at hp
  rw [trace_map, hrun] at hp
  cases hp with
  | torn ht => cases ht
  | stop => exact Or.inl rfl
  | @step _ q _ hq =>
    refine Or.inr ?_
    have huntorn : Untorn J w.fs.historyBytes
        ({ w.fs with completion := some c.toVec } : QueueFs).historyBytes := Or.inl rfl
    exact rotates_of_finishing (hstart.finishes hfits rfl q hq) (hgrown.finishing hq)
      (huntorn.finishing hfits hq) hv' rfl rfl hfits

/-- A recorded post names its token. -/
theorem World.Owned.rotates_posted (howned : w.Owned J) {e : StoredEntry}
    (hheld : w.phase = .up (.holding e)) {hash : String} {now : UInt64} {commentUrl : Option String}
    {attempt : Uuid} (hfits : (HistoryRecord.succeeded attempt e hash now commentUrl).FitsLine)
    (hstep : Step J w (.complete hash now commentUrl attempt) w')
    (hwritten : Written J (.succeeded attempt e hash now commentUrl) w'.fs) :
    Rotates J tokenHashes (tokenHashes.findIdx? (· == hash)) w'.fs := by
  have hnone : w.fs.completion = none := by
    apply howned.settled
    · rw [hheld]; simp
    · rw [hheld]; simp
  have hleaves : (Op.completeClaim e hash now commentUrl attempt).Leaves J w.fs w'.fs := by
    obtain ⟨op, hcall, hl⟩ := hstep.leaves (by simp)
    rw [hheld] at hcall
    cases hcall
    exact hl
  have hcases : w'.fs = w.fs ∨ Rotates J tokenHashes (tokenHashes.findIdx? (· == hash)) w'.fs :=
    howned.rotates_complete hheld hfits hleaves
  rcases hcases with hsame | h
  · -- nothing was journalled, so the record was in the log before
    rw [hsame] at hwritten ⊢
    rcases hwritten with ⟨c, hc, -⟩ | hlast
    · unfold pendingCompletion at hc
      rw [hnone] at hc
      cases hc
    · exact Or.inl ⟨hnone, Or.inr (tokenIndex_of_getLast? hlast)⟩
  · exact h

/-- A recorded failure names its token. -/
theorem World.Owned.rotates_failed (howned : w.Owned J) {e : StoredEntry}
    (hheld : w.phase = .up (.holding e)) {hash : String} {now : UInt64} {error : String}
    {attempt : Uuid} (hstep : Step J w (.recordFailure hash now error attempt) w')
    (hwritten : Written J (.failed attempt e hash now error) w'.fs) :
    Rotates J tokenHashes (tokenHashes.findIdx? (· == hash)) w'.fs := by
  obtain ⟨op, hcall, hl⟩ := hstep.leaves (by simp)
  have hs := howned.sound hcall
  have hnone : w'.fs.completion = none := by
    have hsettled : w.fs.completion = none := by
      apply howned.settled
      · rw [hheld]; simp
      · rw [hheld]; simp
    rw [hheld] at hcall
    cases hcall
    rw [Op.Quiet.completion_eq (by simp [Op.Quiet, Op.Kinds]) howned.clean hs hl, hsettled]
  rcases hwritten with ⟨c, hc, -⟩ | hlast
  · unfold pendingCompletion at hc
    rw [hnone] at hc
    cases hc
  · exact Or.inl ⟨hnone, Or.inr (tokenIndex_of_getLast? hlast)⟩

end Steps

/-! ## Runs -/

section Runs

variable {J : SerdeJson} {tokenHashes : List String} {p p' : Poster} {a : PosterAction}

theorem Poster.record_posted {e : StoredEntry} (held : p.world.phase = .up (.holding e))
    {index : Nat} {hash : String} (chosen : p.chosen = some index)
    (client : tokenHashes[index]? = some hash) (now : UInt64) (commentUrl : Option String)
    (attempt : Uuid) :
    p.record tokenHashes (.posted now commentUrl attempt) =
      some (.succeeded attempt e hash now commentUrl) := by
  unfold Poster.record
  rw [held, chosen, Option.bind_some, client]

theorem Poster.record_failed {e : StoredEntry} (held : p.world.phase = .up (.holding e))
    {index : Nat} {hash : String} (chosen : p.chosen = some index)
    (client : tokenHashes[index]? = some hash) (now : UInt64) (error : String) (attempt : Uuid) :
    p.record tokenHashes (.failed now error attempt) = some (.failed attempt e hash now error) := by
  unfold Poster.record
  rw [held, chosen, Option.bind_some, client]

/-- Choosing records nothing. -/
theorem Poster.record_choose (tokenHashes : List String) (p : Poster) (fill : Nat → Nat) :
    p.record tokenHashes (.choose fill) = none := by
  unfold Poster.record
  split
  · next h => cases h
  · next h => cases h
  · rfl

theorem Poster.record_other (tokenHashes : List String) (p : Poster) (a : Action) :
    p.record tokenHashes (.other a) = none := by
  unfold Poster.record
  split
  · next h => cases h
  · next h => cases h
  · rfl

/-- The record of every attempt has been written. -/
def Poster.Records (J : SerdeJson) (tokenHashes : List String) (p : Poster) (a : PosterAction)
    (p' : Poster) : Prop :=
  ∀ r ∈ p.record tokenHashes a, Written J r p'.world.fs

/-- The newest record is not hidden when a token is chosen, and the record of a post can be read. -/
def Poster.Readable (J : SerdeJson) (tokenHashes : List String) (p : Poster)
    (a : PosterAction) : Prop :=
  (∀ fill, a = .choose fill → ¬ Hidden J p.world.fs.historyBytes) ∧
    ∀ r ∈ p.record tokenHashes a, r.FitsLine

/-- The token used last, from the attempts made since the log was as it was at the start. -/
def lastToken (start : Option Nat) (attempts : List Nat) : Option Nat := attempts.getLast?.or start

/-- The rotation is where the attempts have taken it, and a chosen token is the next one. -/
structure Poster.Turns (J : SerdeJson) (tokenHashes : List String) (start : Option Nat)
    (attempts : List Nat) (p : Poster) : Prop where
  owned : p.world.Owned J
  rotates : Rotates J tokenHashes (lastToken start attempts) p.world.fs
  held : p.chosen ≠ none → ∃ e, p.world.phase = .up (.holding e)
  chosen : ∀ {index}, p.chosen = some index →
    index = next tokenHashes.length 0 (lastToken start attempts)

theorem lastToken_concat (start : Option Nat) (attempts : List Nat) (index : Nat) :
    lastToken start (attempts ++ [index]) = some index := by
  unfold lastToken
  rw [List.getLast?_concat]
  rfl

theorem Phase.keeps_of_ne {phase : Phase} {chosen : Option Nat} (h : phase.keeps chosen ≠ none) :
    (∃ e, phase = .up (.holding e)) ∧ phase.keeps chosen = chosen := by
  unfold Phase.keeps at h ⊢
  split at h
  · exact ⟨⟨_, rfl⟩, rfl⟩
  · exact absurd rfl h

/-- An attempt that ends: its token was the next one, and is now the newest that is named. -/
theorem Poster.Turns.ended {start : Option Nat} {attempts : List Nat}
    (h : p.Turns J tokenHashes start attempts) {index : Nat} (chosen : p.chosen = some index)
    {w : World} (howned : w.Owned J) (hrotates : Rotates J tokenHashes (some index) w.fs) :
    Poster.Turns J tokenHashes start (attempts ++ [index]) ⟨w, none⟩ ∧
      ∀ i ∈ [index], i = next tokenHashes.length 0 (lastToken start attempts) := by
  refine ⟨⟨howned, ?_, fun hn => absurd rfl hn, nofun⟩, fun i hi => ?_⟩
  · rwa [lastToken_concat]
  · rw [List.mem_singleton.1 hi]
    exact h.chosen chosen

/-- A step of the daemon: the rotation moves on by the attempts it ends. -/
theorem Poster.Turns.step {start : Option Nat} {attempts : List Nat}
    (h : p.Turns J tokenHashes start attempts) (hpool : tokenHashes ≠ [])
    (hnodup : tokenHashes.Nodup) (hrecords : p.Records J tokenHashes a p')
    (hreadable : p.Readable J tokenHashes a) (hstep : Poster.Step J tokenHashes p a p') :
    p'.Turns J tokenHashes start (attempts ++ p.attempted a) ∧
      ∀ index ∈ p.attempted a, index = next tokenHashes.length 0 (lastToken start attempts) := by
  cases hstep with
  | @choose e fill held =>
    rw [show p.attempted (.choose fill) = [] from rfl, List.append_nil]
    refine ⟨⟨h.owned, h.rotates, fun _ => ⟨e, held⟩, ?_⟩, nofun⟩
    have hseen := hreadable.1 fill rfl
    intro index hindex
    have hnone : p.world.fs.completion = none := by
      apply h.owned.settled
      · rw [held]; simp
      · rw [held]; simp
    have htoken : tokenIndex J tokenHashes p.world.fs.historyBytes = lastToken start attempts := by
      rcases h.rotates with ⟨-, hidden | ht⟩ | ⟨c, r, H, hu, -⟩
      · exact absurd hidden hseen
      · exact ht
      · have hj := hu.journal
        rw [hnone] at hj
        cases hj
    rw [← htoken, ← Option.some.inj hindex]
    exact chooseToken_eq hpool hseen fill
  | @posted index hash now commentUrl attempt w chosen client step =>
    obtain ⟨e, held⟩ := h.held (by rw [chosen]; simp)
    have hr := p.record_posted held chosen client now commentUrl attempt
    rw [show p.attempted (.posted now commentUrl attempt) = [index] from
      congrArg Option.toList chosen]
    refine h.ended chosen (h.owned.step step) ?_
    rw [← findIdx?_hash hnodup client]
    exact h.owned.rotates_posted held (hreadable.2 _ hr) step (hrecords _ hr)
  | @failed index hash now error attempt w chosen client step =>
    obtain ⟨e, held⟩ := h.held (by rw [chosen]; simp)
    have hr := p.record_failed held chosen client now error attempt
    rw [show p.attempted (.failed now error attempt) = [index] from
      congrArg Option.toList chosen]
    refine h.ended chosen (h.owned.step step) ?_
    rw [← findIdx?_hash hnodup client]
    exact h.owned.rotates_failed held step (hrecords _ hr)
  | @noise bytes hnoise =>
    rw [show p.attempted (.noise bytes) = [] from rfl, List.append_nil]
    refine ⟨⟨?_, h.rotates.noise hnoise, h.held, h.chosen⟩, nofun⟩
    exact h.owned.step (.tamper rfl)
  | @other a w act step =>
    rw [show p.attempted (.other a) = [] from rfl, List.append_nil]
    refine ⟨⟨h.owned.step step, h.rotates.other h.owned act step, ?_, ?_⟩, nofun⟩
    · intro hn
      exact (Phase.keeps_of_ne hn).1
    · intro index hindex
      obtain ⟨-, hkeeps⟩ := Phase.keeps_of_ne (hindex ▸ Option.some_ne_none index)
      exact h.chosen (hkeeps ▸ hindex)

theorem Poster.Step.reachable (h : Poster.Step J tokenHashes p a p') (hp : p.world.Reachable J) :
    p'.world.Reachable J := by
  cases h with
  | choose => exact hp
  | posted _ _ step => exact hp.step step
  | failed _ _ step => exact hp.step step
  | noise => exact hp.step (.tamper rfl)
  | other _ step => exact hp.step step

theorem Poster.Run.reachable {P : Poster → PosterAction → Poster → Prop} {attempts : List Nat}
    (h : Poster.Run J tokenHashes P p attempts p') (hp : p.world.Reachable J) :
    p'.world.Reachable J := by
  induction h with
  | refl => exact hp
  | step _ _ hstep ih => exact hstep.reachable ih

/-- Where the rotation starts: behind the token used last. -/
def firstTurn : Option Nat → Nat
  | some last => last + 1
  | none => 0

theorem next_lastToken (n : Nat) (start : Option Nat) (attempts : List Nat) :
    next n 0 (lastToken start attempts) = next n (firstTurn start) attempts.getLast? := by
  unfold lastToken
  cases attempts.getLast? with
  | some last => rfl
  | none =>
    cases start with
    | some k => rfl
    | none => rfl

/-- A run: the attempts take the tokens in turn. -/
theorem Poster.Run.turns {attempts : List Nat} {start : Option Nat} (hpool : tokenHashes ≠ [])
    (hnodup : tokenHashes.Nodup) (h0 : p.Turns J tokenHashes start [])
    (hrun : Poster.Run J tokenHashes
      (fun p a p' => p.Records J tokenHashes a p' ∧ p.Readable J tokenHashes a) p attempts p') :
    p'.Turns J tokenHashes start attempts ∧
      attempts = turns tokenHashes.length (firstTurn start) attempts.length := by
  induction hrun with
  | refl => exact ⟨h0, rfl⟩
  | @step p₁ p₂ a attempts _ hP hstep ih =>
    obtain ⟨hturns, hseq⟩ := ih
    obtain ⟨hturns', hindex⟩ := hturns.step hpool hnodup hP.1 hP.2 hstep
    refine ⟨hturns', ?_⟩
    have hone : p₁.attempted a = [] ∨ ∃ index, p₁.attempted a = [index] := by
      cases a with
      | posted | failed =>
        unfold Poster.attempted
        cases p₁.chosen with
        | none => exact Or.inl rfl
        | some index => exact Or.inr ⟨index, rfl⟩
      | choose | noise | other => exact Or.inl rfl
    rcases hone with hnil | ⟨index, hsingle⟩
    · rw [hnil, List.append_nil]
      exact hseq
    · have heq := hindex index (by rw [hsingle]; exact List.mem_singleton_self index)
      rw [hsingle, heq, next_lastToken, turns_concat hseq, length_turns]

end Runs

/-- The attempts of a run take the tokens of the pool in turn, from the one behind the token that
the newest readable record of the log names, and any `n` in a row use every token once; if no newer
record fills the line cap when a token is chosen and the records of the attempts are within the
cap. -/
theorem token_rotation {J : SerdeJson} {clients : List TokenClient} (hpool : clients ≠ [])
    (hdistinct : (clients.map TokenClient.hash).Nodup) {p p' : Poster}
    (hreach : p.world.Reachable J) (hidle : p.chosen = none)
    (hsettled : p.world.fs.completion = none) {attempts : List Nat}
    (hrun : Poster.Run J (clients.map TokenClient.hash)
      (fun p a p' => p.Records J (clients.map TokenClient.hash) a p' ∧
        p.Readable J (clients.map TokenClient.hash) a) p attempts p') :
    attempts = turns clients.length
        (firstTurn (tokenIndex J (clients.map TokenClient.hash) p.world.fs.historyBytes))
        attempts.length ∧
      ∀ j, j + clients.length ≤ attempts.length →
        ((attempts.drop j).take clients.length).Perm (List.range clients.length) := by
  have hne : clients.map TokenClient.hash ≠ [] := by
    rw [ne_eq, List.map_eq_nil_iff]
    exact hpool
  have hstart : p.Turns J (clients.map TokenClient.hash)
      (tokenIndex J (clients.map TokenClient.hash) p.world.fs.historyBytes) [] := by
    refine ⟨hreach.owned, Or.inl ⟨hsettled, Or.inr rfl⟩, fun hn => absurd hidle hn, ?_⟩
    intro index hindex
    rw [hidle] at hindex
    cases hindex
  obtain ⟨-, hturns⟩ := hrun.turns hne hdistinct hstart
  rw [List.length_map] at hturns
  refine ⟨hturns, ?_⟩
  intro j hj
  have hwindow := turns_window clients.length
    (firstTurn (tokenIndex J (clients.map TokenClient.hash) p.world.fs.historyBytes))
    attempts.length j hj
  rwa [← hturns] at hwindow

/-! ## Posts that are carried out -/

section Posts

variable {J : SerdeJson} {tokenHashes : List String} {p : Poster} {e : StoredEntry} {index : Nat}
  {hash : String}

/-- A post with the chosen token can be completed, and its record is then the newest. -/
theorem Poster.posts (howned : p.world.Owned J) (held : p.world.phase = .up (.holding e))
    (chosen : p.chosen = some index) (client : tokenHashes[index]? = some hash) {now : UInt64}
    {commentUrl : Option String} {attempt : Uuid} (fresh : attempt.text ∉ p.world.used)
    (hfits : (HistoryRecord.succeeded attempt e hash now commentUrl).FitsLine) :
    ∃ p', Poster.Step J tokenHashes p (.posted now commentUrl attempt) p' ∧
      p.Records J tokenHashes (.posted now commentUrl attempt) p' := by
  obtain ⟨hv, token, htoken, -⟩ := howned.held held
  obtain ⟨u, hok, hfinal⟩ := (howned.clean.succeeds_completeClaim hv (Or.inl (by rw [htoken]; rfl))
    hash now commentUrl attempt).final
  have hcall : Calls p.world.phase (.complete hash now commentUrl attempt)
      (.completeClaim e hash now commentUrl attempt) := by
    rw [held]
    exact .complete e hash now commentUrl attempt
  have hok : ((Op.completeClaim e hash now commentUrl attempt).exec J p.world.fs).outcome =
      .ok .done := by
    unfold Op.exec
    rw [outcome_map, hok]
    rfl
  refine ⟨⟨_, none⟩, .posted chosen client (.returned hcall ?_ hok), ?_⟩
  · intro u hu
    rw [List.mem_singleton.1 hu]
    exact fresh
  · intro r hr
    rw [p.record_posted held chosen client] at hr
    obtain rfl := Option.some.inj hr
    refine Or.inr ?_
    change (historyRecords J (final (_ <$> completeClaimWithToken J e hash now commentUrl attempt)
      p.world.fs).historyBytes).getLast? = _
    rw [final_map, hfinal]
    change (historyRecords J (p.world.fs.historyBytes ++ _)).getLast? = _
    rw [historyRecords_appendedBytes hfits, List.getLast?_concat]

/-- A failed post with the chosen token can be recorded, and its record is then the newest. -/
theorem Poster.fails (held : p.world.phase = .up (.holding e)) (chosen : p.chosen = some index)
    (client : tokenHashes[index]? = some hash) {now : UInt64} {error : String} {attempt : Uuid}
    (fresh : attempt.text ∉ p.world.used)
    (hfits : (HistoryRecord.failed attempt e hash now error).FitsLine) {p' : Poster}
    (hp' : p' = ⟨⟨final (append (.failed attempt e hash now error)) p.world.fs, p.world.phase,
      attempt.text :: p.world.used⟩, none⟩) :
    Poster.Step J tokenHashes p (.failed now error attempt) p' ∧
      p.Records J tokenHashes (.failed now error attempt) p' := by
  have hcall : Calls p.world.phase (.recordFailure hash now error attempt)
      (.appendHistory (.failed attempt e hash now error)) := by
    rw [held]
    exact .recordFailure e hash now error attempt
  have hfinal : final ((Op.appendHistory (.failed attempt e hash now error)).exec J) p.world.fs =
      final (append (.failed attempt e hash now error)) p.world.fs := final_map _ _ _
  have hok : ((Op.appendHistory (.failed attempt e hash now error)).exec J p.world.fs).outcome =
      .ok .done := by
    unfold Op.exec
    rw [outcome_map, append_run]
    rfl
  constructor
  · have hstep := Step.returned hcall (fun u hu => by rw [List.mem_singleton.1 hu]; exact fresh) hok
    rw [hfinal] at hstep
    rw [hp']
    exact .failed chosen client hstep
  · intro r hr
    rw [p.record_failed held chosen client] at hr
    obtain rfl := Option.some.inj hr
    refine Or.inr ?_
    rw [hp', final_append]
    change (historyRecords J (p.world.fs.historyBytes ++ _)).getLast? = _
    rw [historyRecords_appendedBytes hfits, List.getLast?_concat]

end Posts

theorem Phase.keeps_none (phase : Phase) : phase.keeps none = none := by
  unfold Phase.keeps
  split <;> rfl

/-- A run in which all attempts are recorded and readable. -/
abbrev Poster.FairRun (J : SerdeJson) (tokenHashes : List String) :
    Poster → List Nat → Poster → Prop :=
  Poster.Run J tokenHashes fun p a p' => p.Records J tokenHashes a p' ∧ p.Readable J tokenHashes a

section FairRuns

variable {J : SerdeJson} {tokenHashes : List String} {p : Poster} {w w' : World}
    {attempts : List Nat}

theorem Poster.FairRun.choose (h : Poster.FairRun J tokenHashes p attempts ⟨w, none⟩)
    (hpool : tokenHashes ≠ []) {e : StoredEntry} (held : w.phase = .up (.holding e))
    (hseen : ¬ Hidden J w.fs.historyBytes) {index : Nat}
    (hindex : next tokenHashes.length 0 (tokenIndex J tokenHashes w.fs.historyBytes) = index) :
    Poster.FairRun J tokenHashes p attempts ⟨w, some index⟩ := by
  have hstep := @Poster.Step.choose J tokenHashes ⟨w, none⟩ e (fun _ => 0) held
  rw [show chooseToken J tokenHashes w.fs.history (fun _ => 0) = index from
    (chooseToken_eq hpool hseen _).trans hindex] at hstep
  have hrun := Poster.Run.step h ⟨?_, ?_, ?_⟩ hstep
  · rwa [show (⟨w, none⟩ : Poster).attempted (.choose fun _ => 0) = [] from rfl,
      List.append_nil] at hrun
  · intro r hr
    rw [Poster.record_choose] at hr
    cases hr
  · intro _ _
    exact hseen
  · intro r hr
    rw [Poster.record_choose] at hr
    cases hr

theorem Poster.FairRun.other (h : Poster.FairRun J tokenHashes p attempts ⟨w, none⟩) {a : Action}
    (act : a.isOther = true) (step : Comenq.Step J w a w') :
    Poster.FairRun J tokenHashes p attempts ⟨w', none⟩ := by
  have hstep := @Poster.Step.other J tokenHashes ⟨w, none⟩ a w' act step
  rw [Phase.keeps_none] at hstep
  have hrun := Poster.Run.step h ⟨?_, ?_, ?_⟩ hstep
  · rwa [show (⟨w, none⟩ : Poster).attempted (.other a) = [] from rfl, List.append_nil] at hrun
  · intro r hr
    rw [Poster.record_other] at hr
    cases hr
  · intro fill hfill
    cases hfill
  · intro r hr
    rw [Poster.record_other] at hr
    cases hr

theorem Poster.FairRun.failed {index : Nat}
    (h : Poster.FairRun J tokenHashes p attempts ⟨w, some index⟩)
    {e : StoredEntry} (held : w.phase = .up (.holding e)) {hash : String}
    (client : tokenHashes[index]? = some hash) {now : UInt64} {error : String} {attempt : Uuid}
    (fresh : attempt.text ∉ w.used) {r : HistoryRecord} (hr : r = .failed attempt e hash now error)
    (hfits : r.FitsLine) :
    Poster.FairRun J tokenHashes p (attempts ++ [index])
      ⟨⟨final (append r) w.fs, w.phase, attempt.text :: w.used⟩, none⟩ := by
  subst hr
  obtain ⟨hstep, hrecords⟩ :=
    @Poster.fails J tokenHashes ⟨w, some index⟩ e index hash held rfl client now
    error attempt fresh hfits _ rfl
  refine Poster.Run.step h ⟨hrecords, ?_, ?_⟩ hstep
  · intro fill hfill
    cases hfill
  · intro r hr
    rw [Poster.record_failed held rfl client] at hr
    exact Option.some.inj hr ▸ hfits

theorem Poster.FairRun.posted {index : Nat}
    (h : Poster.FairRun J tokenHashes p attempts ⟨w, some index⟩)
    (hreach : p.world.Reachable J) {e : StoredEntry} (held : w.phase = .up (.holding e))
    {hash : String} (client : tokenHashes[index]? = some hash) {now : UInt64}
    {commentUrl : Option String} {attempt : Uuid} (fresh : attempt.text ∉ w.used)
    (hfits : (HistoryRecord.succeeded attempt e hash now commentUrl).FitsLine) :
    ∃ p', Poster.FairRun J tokenHashes p (attempts ++ [index]) p' := by
  have howned : w.Owned J := (h.reachable hreach).owned
  obtain ⟨p', hstep, hrecords⟩ :=
    @Poster.posts J tokenHashes ⟨w, some index⟩ e index hash howned held rfl
    client now commentUrl attempt fresh hfits
  refine ⟨p', Poster.Run.step h ⟨hrecords, ?_, ?_⟩ hstep⟩
  · intro fill hfill
    cases hfill
  · intro r hr
    rw [Poster.record_posted held rfl client] at hr
    exact Option.some.inj hr ▸ hfits

end FairRuns

/-! ### A log that hides its newest record -/

/-- The search for the newest record stops at a line that the reader skips. -/
theorem lastTokenHash_twoLines {J : SerdeJson} {r c : HistoryRecord} (hr : r.FitsLine)
    (hc : c.toVec.length = maxHistoryLineBytes) (fill : Nat → Nat) :
    lastTokenHash J (some (twoLines r c)) fill = .ok none := by
  have hoffsets := pageOffsets_recent (J := J) (twoLines r c) 0
  rw [Nat.zero_add, recentStart_twoLines hr hc] at hoffsets
  obtain ⟨page, hpage, hreads⟩ := readPage_eq fill (Nat.le_refl _) Nat.one_pos
    (resumes_twoLines (J := J) r hc)
    (show validateCursor (twoLines r c) none = .ok () from rfl) hoffsets
  unfold lastTokenHash
  rw [hpage]
  change Except.ok (page.records.getLast?.map _) = _
  rw [hreads.records]
  rfl

/-- A worker that holds a claim while the last line of the log is at the cap posts with the first
token of its pool, whichever token the records name. -/
theorem run_twoLines {J : SerdeJson} {tokenHashes : List String} {w : World} (howned : w.Owned J)
    {e : StoredEntry} (held : w.phase = .up (.holding e)) {r c : HistoryRecord}
    (hlog : w.fs.history = some (twoLines r c)) (hr : r.FitsLine)
    (hc : c.toVec.length = maxHistoryLineBytes) {hash : String}
    (client : tokenHashes[0]? = some hash) {now : UInt64} {commentUrl : Option String}
    {attempt : Uuid} (fresh : attempt.text ∉ w.used)
    (hfits : (HistoryRecord.succeeded attempt e hash now commentUrl).FitsLine) :
    ∃ p', Poster.Run J tokenHashes (fun p a p' => p.Records J tokenHashes a p')
      ⟨w, none⟩ [0] p' := by
  have hchosen : chooseToken J tokenHashes w.fs.history (fun _ => 0) = 0 := by
    unfold chooseToken nextTokenIndex
    rw [hlog, lastTokenHash_twoLines hr hc]
    simp
  have hchoose : Poster.Step J tokenHashes ⟨w, none⟩ (.choose fun _ => 0) ⟨w, some 0⟩ := by
    have hstep := @Poster.Step.choose J tokenHashes ⟨w, none⟩ e (fun _ => 0) held
    rwa [hchosen] at hstep
  have hnothing : (⟨w, none⟩ : Poster).Records J tokenHashes (.choose fun _ => 0) ⟨w, some 0⟩ := by
    intro r hr
    rw [Poster.record_choose] at hr
    cases hr
  obtain ⟨p', hstep, hwritten⟩ :=
    @Poster.posts J tokenHashes ⟨w, some 0⟩ e 0 hash howned held rfl client now commentUrl
      attempt fresh hfits
  exact ⟨p', .step (.step .refl hnothing hchoose) hwritten hstep⟩

def samplePool : List TokenClient := [⟨"first", "9f86d081"⟩, ⟨"second", "60303ae2"⟩]

/-- The state with another log. -/
def World.withLog (w : World) (log : Bytes) : World :=
  { w with fs := { w.fs with history := some log } }

theorem World.phase_withLog (w : World) (log : Bytes) : (w.withLog log).phase = w.phase := rfl

theorem World.used_withLog (w : World) (log : Bytes) : (w.withLog log).used = w.used := rfl

theorem World.history_withLog (w : World) (log : Bytes) : (w.withLog log).fs.history = some log :=
  rfl

theorem World.historyBytes_withLog (w : World) (log : Bytes) :
    (w.withLog log).fs.historyBytes = log := rfl

theorem World.Reachable.withLog {J : SerdeJson} {w : World} (h : w.Reachable J) (log : Bytes) :
    (w.withLog log).Reachable J :=
  h.step (.tamper rfl)

/-- The sample worker holds its claim when the log is replaced. -/
def sampleHidden : World := sampleHolding.withLog (twoLines shortRecord capRecord)

/-- The pool has two tokens and both records of the log name the first; the next attempt uses the
first again. -/
theorem token_rotation_stuck :
    sampleHidden.Reachable serdeJson ∧ sampleHidden.fs.completion = none ∧
      historyRecords serdeJson sampleHidden.fs.historyBytes = [shortRecord] ∧
      tokenIndex serdeJson (samplePool.map TokenClient.hash) sampleHidden.fs.historyBytes = some 0 ∧
      (∃ p', Poster.Run serdeJson (samplePool.map TokenClient.hash)
        (fun p a p' => p.Records serdeJson (samplePool.map TokenClient.hash) a p')
        ⟨sampleHidden, none⟩ [0] p') ∧
      [0] ≠ turns samplePool.length (firstTurn (some 0)) 1 := by
  obtain ⟨hheld, hfresh, -, -⟩ := sampleHolding_eq
  have hreach : sampleHidden.Reachable serdeJson := sampleHolding_reachable.withLog _
  have hheld' : sampleHidden.phase = .up (.holding sampleClaim) :=
    (World.phase_withLog _ _).trans hheld
  have hfresh' : (sampleUuid 3).text ∉ sampleHidden.used := by
    unfold sampleHidden
    rwa [World.used_withLog]
  have hfits :
      (HistoryRecord.succeeded (sampleUuid 3) sampleClaim "9f86d081" 1010 none).FitsLine := by
    decide +kernel
  have hsettled : sampleHidden.fs.completion = none := by
    apply hreach.owned.settled
    · rw [hheld']; simp
    · rw [hheld']; simp
  have hrecords : historyRecords serdeJson sampleHidden.fs.historyBytes = [shortRecord] := by
    unfold sampleHidden
    rw [World.historyBytes_withLog]
    exact historyRecords_twoLines fitsLine_shortRecord length_capRecord
  refine ⟨hreach, hsettled, hrecords, ?_, ?_, by decide⟩
  · unfold tokenIndex
    rw [hrecords]
    decide +kernel
  · exact run_twoLines hreach.owned hheld' (World.history_withLog _ _) fitsLine_shortRecord
      length_capRecord rfl hfresh' hfits

/-! ### A retried comment -/

def sampleFailure : HistoryRecord := .failed (sampleUuid 3) sampleClaim "9f86d081" 1010 "timeout"

/-- The sample worker after recording a failed post. -/
def sampleFailed : World :=
  ⟨final (append sampleFailure) sampleHolding.fs, sampleHolding.phase,
    (sampleUuid 3).text :: sampleHolding.used⟩

def sampleReleased : World := sampleFailed.performed serdeJson (.release 1010)

/-- The worker has claimed the comment again. -/
def sampleReclaimed : World := sampleReleased.performed serdeJson (.claim 900 3000 (sampleUuid 4))

def sampleReclaim : StoredEntry := { sampleClaim with claimToken := some (sampleUuid 4).text }

/-- A log that ends in a finished record hides nothing, whatever is further back. -/
theorem not_hidden_line {J : SerdeJson} {L : Bytes} (hL : Closed nl L) {r : HistoryRecord}
    (hr : r.FitsLine) : ¬ Hidden J (L ++ (r.toVec ++ [nl])) := by
  have hcap : ¬ CapLine J (r.toVec ++ [nl]) := not_capLine_of_fitsLine hr
  rintro ⟨pre, line, post, hlines, hline, hpost⟩
  rw [lines_append hL, lines_append_singleton r.nl_not_mem_toVec] at hlines
  rcases List.eq_nil_or_concat' post with rfl | ⟨post, last, rfl⟩
  · obtain ⟨-, hlast⟩ := List.append_inj' hlines rfl
    obtain rfl : r.toVec ++ [nl] = line := by simpa using hlast
    exact hcap hline
  · rw [← List.cons_append, ← List.append_assoc] at hlines
    obtain ⟨-, hlast⟩ := List.append_inj' hlines rfl
    obtain rfl : r.toVec ++ [nl] = last := by simpa using hlast
    have hnone := hpost _ (List.mem_append_right _ (List.mem_singleton_self _))
    rw [segmentRecord_content hcap, HistoryRecord.lineRecord_line hr] at hnone
    cases hnone

theorem not_hidden_nil (J : SerdeJson) : ¬ Hidden J [] := by
  rintro ⟨pre, line, post, hlines, -⟩
  have hmem : line ∈ lines nl ([] : Bytes) := by
    rw [hlines]
    simp
  cases hmem

/-- A run of two attempts from an empty log. -/
theorem sampleHolding_attempts :
    ∃ p', Poster.FairRun serdeJson (samplePool.map TokenClient.hash)
      ⟨sampleHolding, none⟩ [0, 1] p' := by
  obtain ⟨hheld, hfresh, hempty, hsettled⟩ := sampleHolding_eq
  have hfits : sampleFailure.FitsLine := by decide +kernel
  obtain ⟨hreleased, hreclaimed, hheld', hfresh', hlog⟩ :
      (sampleFailed.perform serdeJson (.release 1010)).isSome = true ∧
      (sampleReleased.perform serdeJson (.claim 900 3000 (sampleUuid 4))).isSome = true ∧
      sampleReclaimed.phase = .up (.holding sampleReclaim) ∧
      (sampleUuid 5).text ∉ sampleReclaimed.used ∧
      sampleReclaimed.fs.historyBytes = sampleFailure.toVec ++ [nl] := by decide +kernel
  have hpool : samplePool.map TokenClient.hash ≠ [] := by decide
  -- the first attempt
  have hchoose : Poster.FairRun serdeJson (samplePool.map TokenClient.hash) ⟨sampleHolding, none⟩ []
      ⟨sampleHolding, some 0⟩ := by
    apply Poster.FairRun.choose .refl hpool hheld
    · rw [hempty]
      exact not_hidden_nil serdeJson
    · rw [hempty]
      rfl
  have hfailed : Poster.FairRun serdeJson (samplePool.map TokenClient.hash)
      ⟨sampleHolding, none⟩ [0] ⟨sampleFailed, none⟩ := hchoose.failed hheld rfl hfresh rfl hfits
  have hclaimed : Poster.FairRun serdeJson (samplePool.map TokenClient.hash)
      ⟨sampleHolding, none⟩ [0] ⟨sampleReclaimed, none⟩ :=
    (hfailed.other rfl (World.step_performed hreleased)).other rfl (World.step_performed hreclaimed)
  -- the second attempt
  have hchoose' : Poster.FairRun serdeJson (samplePool.map TokenClient.hash)
      ⟨sampleHolding, none⟩ [0] ⟨sampleReclaimed, some 1⟩ := by
    apply Poster.FairRun.choose hclaimed hpool hheld'
    · rw [hlog]
      exact not_hidden_line closed_nil hfits
    · unfold tokenIndex
      rw [hlog, historyRecords_line hfits]
      decide +kernel
  have hfits' :
      (HistoryRecord.succeeded (sampleUuid 5) sampleReclaim "60303ae2" 3010 none).FitsLine := by
    decide +kernel
  -- the projections are reduced first, so that the sample state is not unfolded
  have hstart : (⟨sampleHolding, none⟩ : Poster).world.Reachable serdeJson := by
    dsimp only
    exact sampleHolding_reachable
  exact hchoose'.posted hstart hheld' rfl hfresh' hfits'

/-- The sample worker with a log whose line at the cap is not the newest. -/
def sampleSeen : World := sampleHolding.withLog (twoLines capRecord shortRecord)

/-- A run of one attempt from there. -/
theorem sampleSeen_attempts : sampleSeen.Reachable serdeJson ∧ sampleSeen.fs.completion = none ∧
    tokenIndex serdeJson (samplePool.map TokenClient.hash) sampleSeen.fs.historyBytes = some 0 ∧
    ∃ p', Poster.FairRun serdeJson (samplePool.map TokenClient.hash) ⟨sampleSeen, none⟩ [1] p' := by
  obtain ⟨hheld, hfresh, -, -⟩ := sampleHolding_eq
  have hreach : sampleSeen.Reachable serdeJson := sampleHolding_reachable.withLog _
  have hheld' : sampleSeen.phase = .up (.holding sampleClaim) :=
    (World.phase_withLog _ _).trans hheld
  have hfresh' : (sampleUuid 3).text ∉ sampleSeen.used := by
    unfold sampleSeen
    rwa [World.used_withLog]
  have hsettled : sampleSeen.fs.completion = none := by
    apply hreach.owned.settled
    · rw [hheld']; simp
    · rw [hheld']; simp
  have hlog : sampleSeen.fs.historyBytes = (capRecord.toVec ++ [nl]) ++
      (shortRecord.toVec ++ [nl]) :=
    World.historyBytes_withLog _ _
  have hclosed : Closed nl (capRecord.toVec ++ [nl]) := closed_append_singleton _
  have hindex : tokenIndex serdeJson (samplePool.map TokenClient.hash) sampleSeen.fs.historyBytes =
      some 0 := by
    have hlast : (historyRecords serdeJson sampleSeen.fs.historyBytes).getLast? =
        some shortRecord := by
      rw [hlog, historyRecords_append hclosed, historyRecords_line fitsLine_shortRecord,
        List.getLast?_concat]
    rw [tokenIndex_of_getLast? hlast]
    decide +kernel
  have hfits :
      (HistoryRecord.succeeded (sampleUuid 3) sampleClaim "60303ae2" 1010 none).FitsLine := by
    decide +kernel
  have hchoose : Poster.FairRun serdeJson (samplePool.map TokenClient.hash) ⟨sampleSeen, none⟩ []
      ⟨sampleSeen, some 1⟩ := by
    apply Poster.FairRun.choose .refl (by decide) hheld'
    · rw [hlog]
      exact not_hidden_line hclosed fitsLine_shortRecord
    · rw [hindex]
      rfl
  refine ⟨hreach, hsettled, hindex, ?_⟩
  have hstart : (⟨sampleSeen, none⟩ : Poster).world.Reachable serdeJson := by
    dsimp only
    exact hreach
  exact hchoose.posted hstart hheld' rfl hfresh' hfits

/-- The attempts of the sample runs use every token in turn, and a line at the cap further back in
the log does not matter. -/
theorem token_rotation_sample :
    (∃ p', Poster.FairRun serdeJson (samplePool.map TokenClient.hash)
        ⟨sampleHolding, none⟩ [0, 1] p' ∧
      [0, 1].Perm (List.range samplePool.length)) ∧
    ∃ p', Poster.FairRun serdeJson (samplePool.map TokenClient.hash) ⟨sampleSeen, none⟩ [1] p' ∧
      [1] = turns samplePool.length (firstTurn (some 0)) 1 := by
  constructor
  · obtain ⟨p', hrun⟩ := sampleHolding_attempts
    have hreach : (⟨sampleHolding, none⟩ : Poster).world.Reachable serdeJson := by
      dsimp only
      exact sampleHolding_reachable
    have hnone : (⟨sampleHolding, none⟩ : Poster).world.fs.completion = none := by
      dsimp only
      exact sampleHolding_eq.2.2.2
    have h := @token_rotation serdeJson samplePool (by decide) (by decide)
      ⟨sampleHolding, none⟩ p' hreach rfl hnone [0, 1] hrun
    exact ⟨p', hrun, h.2 0 (by decide)⟩
  · obtain ⟨hreach, hnone, hindex, p', hrun⟩ := sampleSeen_attempts
    have h := @token_rotation serdeJson samplePool (by decide) (by decide)
      ⟨sampleSeen, none⟩ p' hreach rfl hnone [1] hrun
    refine ⟨p', hrun, ?_⟩
    have hturns := h.1
    dsimp only at hturns
    rwa [hindex] at hturns

end Comenq
