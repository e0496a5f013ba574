import Comenq.Store.History

/-!
# The history log under interrupted appends

A completion appends its record to whatever bytes the log holds. While the append is cut off and
retried the log is in one of two states relative to the log `H` it started from: `Pending`, when
nothing readable has been added, and `Logged`, when exactly the record has. A cut-off append never
leaves anything else behind (`Pending.torn`), because no proper prefix of a record decodes.
-/

namespace Comenq

open JsonText LineLog

section Log

variable (J : SerdeJson)

/-! ## Lines -/

/-- The de-duplication takes this line for a record of the attempt. -/
def Delivers (attempt : String) (line : Bytes) : Prop :=
  line.length ≤ maxHistoryLineBytes ∧ ∃ r, J.record line = some r ∧ r.attemptId = attempt

theorem containsAttempt_append (H X : Bytes) (attempt : String) :
    containsAttempt J (H ++ X) attempt H.length = true ↔
      ∃ line ∈ lines nl X, Delivers J attempt line := by
  have hdrop : (H ++ X).drop (min H.length (H ++ X).length) = X := by
    rw [List.length_append, Nat.min_eq_left (Nat.le_add_right _ _), List.drop_left]
  unfold containsAttempt Delivers
  rw [hdrop, List.any_eq_true]
  refine exists_congr fun line => and_congr_right fun _ => ?_
  cases J.record line with
  | none => simp
  | some r => simp

variable {J}

theorem not_delivers_of_none {attempt : String} {line : Bytes} (h : J.record line = none) :
    ¬ Delivers J attempt line := by
  rintro ⟨-, r, hr, -⟩
  rw [h] at hr
  cases hr

/-- Finishing a line does not make it deliver. -/
theorem delivers_of_nl {attempt : String} {line : Bytes} (h : Delivers J attempt (line ++ [nl])) :
    Delivers J attempt line := by
  obtain ⟨hlen, r, hr, ha⟩ := h
  rw [J.record_nl] at hr
  rw [List.length_append] at hlen
  exact ⟨Nat.le_of_add_right_le hlen, r, hr, ha⟩

theorem lineRecord_of_none {line : Bytes} (h : J.record line = none) :
    lineRecord J line = none := by
  unfold lineRecord
  split
  · rfl
  · split
    · rfl
    · exact h

namespace HistoryRecord

theorem not_all_whitespace (r : HistoryRecord) (s : Bytes) :
    (r.toVec ++ s).all isAsciiWhitespace = false := by
  unfold toVec object
  simp [isAsciiWhitespace]

theorem lineRecord_toVec {r : HistoryRecord} (h : r.FitsLine) : lineRecord J r.toVec = some r := by
  have hw := r.not_all_whitespace []
  rw [List.append_nil] at hw
  unfold FitsLine at h
  unfold lineRecord
  rw [if_neg (by omega), hw, J.record_toVec]
  rfl

theorem lineRecord_line {r : HistoryRecord} (h : r.FitsLine) :
    lineRecord J (r.toVec ++ [nl]) = some r := by
  have hlen : (r.toVec ++ [nl]).length = r.toVec.length + 1 := List.length_append
  unfold FitsLine at h
  unfold lineRecord
  rw [if_neg (by omega), r.not_all_whitespace, J.record_nl, J.record_toVec]
  rfl

theorem delivers_toVec {r : HistoryRecord} (h : r.FitsLine) : Delivers J r.attemptId r.toVec := by
  unfold FitsLine at h
  exact ⟨by omega, r, J.record_toVec r, rfl⟩

theorem delivers_line {r : HistoryRecord} (h : r.FitsLine) :
    Delivers J r.attemptId (r.toVec ++ [nl]) := by
  have hlen : (r.toVec ++ [nl]).length = r.toVec.length + 1 := List.length_append
  unfold FitsLine at h
  exact ⟨by omega, r, by rw [J.record_nl, J.record_toVec], rfl⟩

end HistoryRecord

/-! ## Appending to a closed log -/

theorem historyRecords_append {L : Bytes} (hL : Closed nl L) (X : Bytes) :
    historyRecords J (L ++ X) = historyRecords J L ++ historyRecords J X :=
  collect_append hL X

/-- A finished append adds its record. -/
theorem historyRecords_line {r : HistoryRecord} (h : r.FitsLine) :
    historyRecords J (r.toVec ++ [nl]) = [r] := by
  unfold historyRecords
  rw [collect_line r.nl_not_mem_toVec, HistoryRecord.lineRecord_line h]
  rfl

theorem historyRecords_toVec {r : HistoryRecord} (h : r.FitsLine) :
    historyRecords J r.toVec = [r] := by
  unfold historyRecords
  rw [collect_tail (lineRecord_of_none (J.record_nil r)) r.nl_not_mem_toVec,
    HistoryRecord.lineRecord_toVec h]
  rfl

theorem append_appendedBytes (r : HistoryRecord) (L : Bytes) :
    L ++ appendedBytes r L = close nl L ++ (r.toVec ++ [nl]) := by
  unfold appendedBytes close
  split
  · rw [List.nil_append]
  · rw [List.append_assoc]

theorem historyRecords_appendedBytes {r : HistoryRecord} (h : r.FitsLine) (L : Bytes) :
    historyRecords J (L ++ appendedBytes r L) = historyRecords J (close nl L) ++ [r] := by
  rw [append_appendedBytes, historyRecords_append (closed_close L), historyRecords_line h]

/-! ## The two states -/

/-- The log has grown from `H`, but not by a readable record. -/
structure Pending (J : SerdeJson) (attempt : String) (H L : Bytes) : Prop where
  undelivered : ∃ X, L = H ++ X ∧ ∀ line ∈ lines nl X, ¬ Delivers J attempt line
  records : historyRecords J (close nl L) = historyRecords J (close nl H)

/-- The log has grown from `H` by the record `r`. -/
structure Logged (J : SerdeJson) (r : HistoryRecord) (H L : Bytes) : Prop where
  contains : containsAttempt J L r.attemptId H.length = true
  records : historyRecords J L = historyRecords J (close nl H) ++ [r]

theorem closed_of_append {H X : Bytes} (h : Closed nl (H ++ X)) : Closed nl X := by
  rcases List.eq_nil_or_concat' X with rfl | ⟨ys, b, rfl⟩
  · exact closed_nil
  · have hb : b = nl := h b (by simp)
    rw [hb]
    exact closed_append_singleton ys

namespace Pending

variable {attempt : String} {H L : Bytes}

theorem start (J : SerdeJson) (attempt : String) (H : Bytes) : Pending J attempt H H := by
  refine ⟨⟨[], (List.append_nil H).symm, ?_⟩, rfl⟩
  intro line hl
  cases hl

theorem contains (h : Pending J attempt H L) : containsAttempt J L attempt H.length = false := by
  obtain ⟨X, rfl, hX⟩ := h.undelivered
  rw [← Bool.not_eq_true, containsAttempt_append]
  rintro ⟨line, hl, hd⟩
  exact hX line hl hd

/-- The repair of a missing delimiter adds nothing readable. -/
theorem repair (h : Pending J attempt H L) (r : HistoryRecord) (hL : ¬ Closed nl L) :
    Pending J attempt H (L ++ [nl]) := by
  obtain ⟨X, hLX, hX⟩ := h.undelivered
  refine ⟨⟨X ++ [nl], by rw [hLX, List.append_assoc], ?_⟩, ?_⟩
  · obtain ⟨Y, t, rfl, hY, ht⟩ := exists_tail nl X
    intro line hl
    rw [List.append_assoc, lines_append hY, lines_append_singleton ht] at hl
    rcases List.mem_append.1 hl with hl | hl
    · exact hX line (by rw [lines_append hY]; exact List.mem_append_left _ hl)
    · obtain rfl := List.mem_singleton.1 hl
      intro hd
      by_cases htn : t = []
      · rw [htn] at hd
        exact not_delivers_of_none (J.record_nil r) (delivers_of_nl hd)
      · refine hX t ?_ (delivers_of_nl hd)
        rw [lines_append hY, lines_of_not_mem htn ht]
        simp
  · rw [close_of_closed (closed_append_singleton L), ← close_of_not_closed hL]
    exact h.records

/-- The finished line on a closed log is the record. -/
theorem logged {r : HistoryRecord} (h : Pending J r.attemptId H L) (hr : r.FitsLine)
    (hL : Closed nl L) : Logged J r H (L ++ (r.toVec ++ [nl])) := by
  obtain ⟨X, rfl, -⟩ := h.undelivered
  refine ⟨?_, ?_⟩
  · rw [List.append_assoc, containsAttempt_append, lines_append (closed_of_append hL),
      lines_append_singleton r.nl_not_mem_toVec]
    exact ⟨r.toVec ++ [nl], by simp, HistoryRecord.delivers_line hr⟩
  · have hrec := h.records
    rw [close_of_closed hL] at hrec
    rw [historyRecords_append hL, historyRecords_line hr, hrec]

/-- The whole object without its delimiter counts as the record. -/
theorem logged_tail {r : HistoryRecord} (h : Pending J r.attemptId H L) (hr : r.FitsLine)
    (hL : Closed nl L) : Logged J r H (L ++ r.toVec) := by
  obtain ⟨X, rfl, -⟩ := h.undelivered
  refine ⟨?_, ?_⟩
  · rw [List.append_assoc, containsAttempt_append, lines_append (closed_of_append hL),
      lines_of_not_mem r.toVec_ne_nil r.nl_not_mem_toVec]
    exact ⟨r.toVec, by simp, HistoryRecord.delivers_toVec hr⟩
  · have hrec := h.records
    rw [close_of_closed hL] at hrec
    rw [historyRecords_append hL, historyRecords_toVec hr, hrec]

/-- A proper prefix of the object is not readable, whether or not its line is finished later. -/
theorem torn_object {r : HistoryRecord} (h : Pending J attempt H L) (hL : Closed nl L)
    {p q : Bytes} (hp : r.toVec = p ++ q) (hq : q ≠ []) : Pending J attempt H (L ++ p) := by
  have hnone : J.record p = none := J.record_cut r p q hp hq
  have hnl : nl ∉ p := fun hm => r.nl_not_mem_toVec (by rw [hp]; exact List.mem_append_left _ hm)
  by_cases hpn : p = []
  · rw [hpn, List.append_nil]
    exact h
  · obtain ⟨X, hLX, hX⟩ := h.undelivered
    refine ⟨⟨X ++ p, by rw [hLX, List.append_assoc], ?_⟩, ?_⟩
    · intro line hl
      rw [lines_append (closed_of_append (hLX ▸ hL)), lines_of_not_mem hpn hnl] at hl
      rcases List.mem_append.1 hl with hl | hl
      · exact hX line hl
      · obtain rfl := List.mem_singleton.1 hl
        exact not_delivers_of_none hnone
    · rw [close_of_not_closed (not_closed_append L hpn hnl), List.append_assoc,
        historyRecords_append hL, ← h.records, close_of_closed hL]
      have hline : lineRecord J (p ++ [nl]) = none := by
        refine lineRecord_of_none ?_
        rw [J.record_nl, hnone]
      unfold historyRecords
      rw [collect_line hnl, hline, Option.toList_none, List.append_nil]

/-- Whatever part of the line a cut-off append wrote to a closed log, the log holds the whole record
or nothing readable of it. -/
theorem torn {r : HistoryRecord} (h : Pending J r.attemptId H L) (hr : r.FitsLine)
    (hL : Closed nl L) {p : Bytes} (hp : p <+: r.toVec ++ [nl]) :
    Pending J r.attemptId H (L ++ p) ∨ Logged J r H (L ++ p) := by
  rcases List.prefix_concat_iff.1 hp with rfl | ⟨q, hq⟩
  · exact Or.inr (h.logged hr hL)
  · by_cases hqn : q = []
    · rw [hqn, List.append_nil] at hq
      rw [hq]
      exact Or.inr (h.logged_tail hr hL)
    · exact Or.inl (h.torn_object hL hq.symm hqn)

end Pending

end Log

end Comenq
