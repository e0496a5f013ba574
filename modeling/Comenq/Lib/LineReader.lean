import Comenq.Lib.LineLog

/-!
# Reading lines from a stream that arrives in chunks

`readUntil` reads up to a delimiter, to the end of the stream or to a limit, whichever comes first.
What it reads and what it leaves depend on the bytes of the stream only, not on how they are cut
into chunks (`readUntil_line`, `readUntil_append`).
-/

namespace LineReader

open LineLog

variable {α : Type} [DecidableEq α]

/-- Read up to and including the delimiter, but no more than `limit` items. The first chunk is what
the reader holds in its buffer; an empty buffer is filled again. -/
def readUntil (nl : α) : Nat → List (List α) → List α × List (List α)
  | _, [] => ([], [])
  | limit, chunk :: rest =>
    match (chunk.take limit).idxOf? nl with
    | some i => ((chunk.take limit).take (i + 1), chunk.drop (i + 1) :: rest)
    | none =>
      if limit < chunk.length then (chunk.take limit, chunk.drop limit :: rest)
      else (chunk ++ (readUntil nl (limit - chunk.length) rest).1,
        (readUntil nl (limit - chunk.length) rest).2)

variable {nl : α}

/-- The line is the first one of the stream, cut at the limit. -/
theorem readUntil_line (limit : Nat) (chunks : List (List α)) :
    (readUntil nl limit chunks).1 = firstLine nl (chunks.flatten.take limit) := by
  induction chunks generalizing limit with
  | nil => simp [readUntil, firstLine]
  | cons chunk rest ih =>
    rw [List.flatten_cons, List.take_append]
    unfold readUntil
    cases hi : (chunk.take limit).idxOf? nl with
    | some i =>
      have hmem : nl ∈ chunk.take limit := by
        by_contra hno
        rw [List.idxOf?_eq_none_iff.2 hno] at hi
        cases hi
      rw [firstLine_append_of_mem hmem]
      exact take_idxOf?_succ hi
    | none =>
      have hno : nl ∉ chunk.take limit := List.idxOf?_eq_none_iff.1 hi
      rw [firstLine_append_of_not_mem hno]
      by_cases hlimit : limit < chunk.length
      · have hrest : limit - chunk.length = 0 := by omega
        simp [hlimit, hrest, firstLine]
      · have hwhole : chunk.take limit = chunk := List.take_of_length_le (by omega)
        simp only [hlimit, if_false, hwhole, ih]

/-- Nothing is lost: what was read and what is left make up the stream. -/
theorem readUntil_append (limit : Nat) (chunks : List (List α)) :
    (readUntil nl limit chunks).1 ++ (readUntil nl limit chunks).2.flatten = chunks.flatten := by
  induction chunks generalizing limit with
  | nil => rfl
  | cons chunk rest ih =>
    unfold readUntil
    cases hi : (chunk.take limit).idxOf? nl with
    | some i =>
      have hbound : i < (chunk.take limit).length := by
        obtain ⟨h, -⟩ := List.idxOf?_eq_some_iff.1 hi
        exact h
      rw [List.length_take] at hbound
      have htake : (chunk.take limit).take (i + 1) = chunk.take (i + 1) := by
        rw [List.take_take, Nat.min_eq_left (by omega)]
      rw [List.flatten_cons, List.flatten_cons, ← List.append_assoc]
      simp only [htake, List.take_append_drop]
    | none =>
      by_cases hlimit : limit < chunk.length
      · simp only [hlimit, if_true, List.flatten_cons]
        rw [← List.append_assoc, List.take_append_drop]
      · simp only [hlimit, if_false, List.flatten_cons]
        rw [List.append_assoc, ih]

/-- A line that fits within the limit is read whole, and the rest of the stream is left. -/
theorem readUntil_frame {limit : Nat} {chunks : List (List α)} {t rest : List α} (hn : nl ∉ t)
    (hlimit : t.length < limit) (hc : chunks.flatten = t ++ nl :: rest) :
    (readUntil nl limit chunks).1 = t ++ [nl] ∧ (readUntil nl limit chunks).2.flatten = rest := by
  have hline : (readUntil nl limit chunks).1 = t ++ [nl] := by
    have htake : (t ++ nl :: rest).take limit = t ++ nl :: rest.take (limit - t.length - 1) := by
      obtain ⟨k, hk⟩ : ∃ k, limit - t.length = k + 1 := ⟨limit - t.length - 1, by omega⟩
      rw [List.take_append, List.take_of_length_le hlimit.le, hk, List.take_succ_cons,
        Nat.add_sub_cancel]
    rw [readUntil_line, hc, htake, firstLine_append_of_not_mem hn]
    simp [firstLine]
  refine ⟨hline, ?_⟩
  have happend := @readUntil_append α _ nl limit chunks
  rw [hline, hc, List.append_assoc, List.singleton_append] at happend
  exact (List.cons.inj (List.append_cancel_left happend)).2

/-- Without a delimiter within the limit the stream is read up to the limit. -/
theorem readUntil_undelimited {limit : Nat} {chunks : List (List α)}
    (hn : nl ∉ chunks.flatten.take limit) :
    (readUntil nl limit chunks).1 = chunks.flatten.take limit := by
  rw [readUntil_line]
  have h := firstLine_append_of_not_mem hn []
  rw [List.append_nil] at h
  rw [h]
  exact List.append_nil _

end LineReader
