import Comenq.Store.AwaitLookup
import Comenq.Verify.HistoryReaders

/-!
# What a wait finds in the history log

The reverse scan of a wait returns the newest matching record of the segments behind its offset
(`latestCompletion_eq`). A log that grows at its end keeps those records and adds those of the new
part (`recordsIn_append`, `recordsIn_split`); an append, finished or cut off anywhere, adds its own
record or nothing (`recordsIn_appended`), because it finishes the line it found before its own.
-/

namespace Comenq

open JsonText LineLog

/-! ## Records of segments -/

section Segments

variable {J : SerdeJson}

/-- The records the reverse scan offers from a region, in the order of the log. -/
def recordsIn (J : SerdeJson) (xs : Bytes) : List HistoryRecord :=
  (segmentsAt nl 0 xs).filterMap fun p => segmentRecord J p.2

theorem filterMap_segmentsAt (o : Nat) (xs : Bytes) :
    ((segmentsAt nl o xs).filterMap fun p => segmentRecord J p.2) = recordsIn J xs := by
  have hcomp : ∀ l : List (Nat × Bytes), (l.filterMap fun p => segmentRecord J p.2) =
      (l.map Prod.snd).filterMap (segmentRecord J) := by
    intro l
    rw [List.filterMap_map]
    rfl
  rw [hcomp, map_snd_segmentsAt o 0, ← hcomp]
  rfl

/-- A delimiter splits the records. -/
theorem recordsIn_split (xs ys : Bytes) :
    recordsIn J (xs ++ nl :: ys) = recordsIn J xs ++ recordsIn J ys := by
  unfold recordsIn
  rw [segmentsAt_append, List.filterMap_append, filterMap_segmentsAt (_ + 1) ys]
  rfl

theorem recordsIn_of_not_mem {t : Bytes} (hn : nl ∉ t) :
    recordsIn J t = (segmentRecord J t).toList := by
  unfold recordsIn
  rw [segmentsAt_of_not_mem 0 hn, List.filterMap_cons, List.filterMap_nil]
  cases segmentRecord J t <;> rfl

theorem recordsIn_nil : recordsIn J [] = [] := recordsIn_of_not_mem (List.not_mem_nil)

theorem recordsIn_concat (xs : Bytes) : recordsIn J (xs ++ [nl]) = recordsIn J xs := by
  rw [recordsIn_split, recordsIn_nil, List.append_nil]

/-- Behind a finished line the records are those of the two parts. -/
theorem recordsIn_append {xs : Bytes} (h : Closed nl xs) (ys : Bytes) :
    recordsIn J (xs ++ ys) = recordsIn J xs ++ recordsIn J ys := by
  rcases List.eq_nil_or_concat' xs with rfl | ⟨zs, b, rfl⟩
  · rw [recordsIn_nil]
    rfl
  · obtain rfl : b = nl := h b (by simp)
    rw [List.append_assoc, List.singleton_append, recordsIn_split, recordsIn_concat]

end Segments

/-! ## Appends -/

section Appends

variable {J : SerdeJson} {r : HistoryRecord}

/-- A whole line within the cap is readable. -/
theorem recordsIn_line (h : r.FitsLine) : recordsIn J (r.toVec ++ [nl]) = [r] := by
  rw [recordsIn_concat, recordsIn_of_not_mem r.nl_not_mem_toVec]
  exact congrArg Option.toList (HistoryRecord.lineRecord_toVec h)

/-- A part of a record's line is readable only when it is the whole record. -/
theorem recordsIn_torn {p : Bytes} (hp : p <+: r.toVec ++ [nl]) :
    recordsIn J p = [] ∨ recordsIn J p = [r] := by
  have hwhole : recordsIn J r.toVec = [] ∨ recordsIn J r.toVec = [r] := by
    rw [recordsIn_of_not_mem r.nl_not_mem_toVec]
    unfold segmentRecord
    rw [J.record_toVec]
    split
    · exact Or.inl rfl
    · split
      · exact Or.inl rfl
      · exact Or.inr rfl
  rcases List.prefix_concat_iff.1 hp with rfl | ⟨q, hq⟩
  · rw [recordsIn_concat]
    exact hwhole
  · by_cases hqn : q = []
    · rw [hqn, List.append_nil] at hq
      rw [hq]
      exact hwhole
    · refine Or.inl ?_
      have hnl : nl ∉ p := fun hm =>
        r.nl_not_mem_toVec (by rw [← hq]; exact List.mem_append_left _ hm)
      rw [recordsIn_of_not_mem hnl]
      unfold segmentRecord
      rw [J.record_cut r p q hq.symm hqn]
      split
      · rfl
      · split <;> rfl

/-- The region behind an offset is closed when the log is, unless it is empty. -/
theorem closed_drop {H : Bytes} (h : Closed nl H) (m : Nat) : Closed nl (H.drop m) := by
  rw [← List.take_append_drop m H] at h
  exact closed_of_append h

/-- An append, finished or cut off, adds its record behind every offset of the log, or nothing. -/
theorem recordsIn_appended {H p : Bytes} {m : Nat} (hm : m ≤ H.length)
    (hp : p <+: appendedBytes r H) :
    ∃ added, (added = [] ∨ added = [r]) ∧
      recordsIn J ((H ++ p).drop m) = recordsIn J (H.drop m) ++ added := by
  rw [List.drop_append_of_le_length hm]
  unfold appendedBytes at hp
  by_cases hc : Closed nl H
  · rw [if_pos hc, List.nil_append] at hp
    exact ⟨recordsIn J p, recordsIn_torn hp, recordsIn_append (closed_drop hc m) p⟩
  · rw [if_neg hc, List.singleton_append] at hp
    cases p with
    | nil => exact ⟨[], Or.inl rfl, by rw [List.append_nil, List.append_nil]⟩
    | cons b p =>
      obtain ⟨rfl, htail⟩ := List.cons_prefix_cons.1 hp
      exact ⟨recordsIn J p, recordsIn_torn htail, recordsIn_split _ p⟩

end Appends

/-! ## The newest completion -/

section Latest

variable {J : SerdeJson} {fs fs' : QueueFs} {id : String} {cursor : Option AwaitCursor}

/-- Where a wait starts to read. -/
def cursorOffset (cursor : Option AwaitCursor) : Nat :=
  match cursor with
  | none => 0
  | some cursor => cursor.offset

/-- The successes a wait may return, in the order of the log. -/
def completionsIn (J : SerdeJson) (id : String) (cursor : Option AwaitCursor) (log : Bytes) :
    List HistoryRecord :=
  (recordsIn J (log.drop (cursorOffset cursor))).filter (isCompletionOf id cursor)

/-- A caller that accepts by a test of the record gets the first record that passes. -/
theorem offerRecords_find (accepts : HistoryRecord → Bool) (l : List (Nat × HistoryRecord)) :
    (offerRecords (fun (s : Unit) _ record => (s, accepts record)) () l).2 =
      (l.map Prod.snd).find? accepts := by
  induction l with
  | nil => rfl
  | cons p l ih =>
    rw [offerRecords, List.map_cons, List.find?_cons]
    cases accepts p.2 with
    | true => rfl
    | false => exact ih

theorem latestCompletion_eq (fs : QueueFs) (id : String) (cursor : Option AwaitCursor) :
    latestCompletion J fs id cursor = (completionsIn J id cursor fs.historyBytes).getLast? := by
  unfold latestCompletion completionsIn QueueFs.historyBytes
  cases hh : fs.history with
  | none => rw [Option.getD_none, List.drop_nil, recordsIn_nil]; rfl
  | some log =>
    have hscan := scanReverse_eq J
      (fun (s : Unit) _ record => (s, isCompletionOf id cursor record)) (Nat.le_refl log.length)
      (cursorOffset cursor) ()
    change (scanReverse J _ log log.length (cursorOffset cursor) ()).2 = _
    rw [hscan, List.take_length, offerAll_eq, offerRecords_find, Option.getD_some]
    have hrecords :
        (((segmentsAt nl (cursorOffset cursor) (log.drop (cursorOffset cursor))).reverse.filterMap
        fun p => (segmentRecord J p.2).map (Prod.mk p.1)).map Prod.snd) =
        (recordsIn J (log.drop (cursorOffset cursor))).reverse := by
      rw [List.filterMap_reverse, List.map_reverse, List.map_filterMap,
        ← filterMap_segmentsAt (cursorOffset cursor)]
      congr 1
      refine List.filterMap_congr fun p _ => ?_
      cases segmentRecord J p.2 <;> rfl
    rw [hrecords, ← List.head?_filter, List.filter_reverse, List.head?_reverse]

/-- The record of a failed attempt, finished or cut off, is no completion. -/
theorem completionsIn_failure {r : HistoryRecord} (hr : r.success = false) {H p : Bytes}
    (hm : cursorOffset cursor ≤ H.length) (hp : p <+: appendedBytes r H) :
    completionsIn J id cursor (H ++ p) = completionsIn J id cursor H := by
  obtain ⟨added, hadded, hrecords⟩ := recordsIn_appended (J := J) hm hp
  have hnone : isCompletionOf id cursor r = false := by
    unfold isCompletionOf
    rw [hr, Bool.and_false, Bool.false_and]
  unfold completionsIn
  rw [hrecords, List.filter_append]
  rcases hadded with rfl | rfl
  · rw [List.filter_nil, List.append_nil]
  · rw [List.filter_cons_of_neg (by rw [hnone]; exact Bool.false_ne_true), List.filter_nil,
      List.append_nil]

end Latest

end Comenq
