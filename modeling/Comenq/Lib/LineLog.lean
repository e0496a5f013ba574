import Mathlib.Tactic
import Mathlib.Data.List.Infix

/-!
# Delimited logs

A log is a list of symbols cut into lines by a delimiter. `lines` cuts after every delimiter, so a
line carries its own delimiter and only the last one may lack it. A log is `Closed` when nothing
is pending: it is empty or ends with the delimiter. Cutting commutes with appending to a closed
log (`lines_append`), and `close` adds the missing delimiter.

`collect` reads a log line by line through a partial decoder. `segmentsAt` is the same cut without
the delimiters, each segment with the offset at which it starts: it splits at any delimiter, closed
log or not (`segmentsAt_append`). `located` pairs lines with their offsets, and `segmentsAt_eq` says
how the two cuts are related. `firstLine` is what a reader that stops at a delimiter consumes.
-/

namespace LineLog

variable {α β : Type*}

/-! ## Closed logs -/

section Closed

variable (nl : α)

/-- No unfinished line: the log is empty or ends with the delimiter. -/
def Closed (xs : List α) : Prop := ∀ b ∈ xs.getLast?, b = nl

variable {nl}

theorem closed_nil : Closed nl ([] : List α) := by
  intro b hb; cases hb

theorem closed_append_singleton (xs : List α) : Closed nl (xs ++ [nl]) := by
  intro b hb
  simp only [List.getLast?_append, List.getLast?_singleton, Option.or, Option.mem_def,
    Option.some.injEq] at hb
  exact hb.symm

theorem Closed.append {xs ys : List α} (hx : Closed nl xs) (hy : Closed nl ys) :
    Closed nl (xs ++ ys) := by
  intro b hb
  rw [List.getLast?_append] at hb
  cases hl : ys.getLast? with
  | none => rw [hl] at hb; exact hx b (by simpa using hb)
  | some c => rw [hl] at hb; exact hy b (by rw [hl]; simpa using hb)

/-- A log that is not closed ends with something other than the delimiter. -/
theorem not_closed_iff {xs : List α} : ¬ Closed nl xs ↔ ∃ ys b, xs = ys ++ [b] ∧ b ≠ nl := by
  constructor
  · intro h
    rcases List.eq_nil_or_concat' xs with rfl | ⟨ys, b, rfl⟩
    · exact absurd closed_nil h
    · refine ⟨ys, b, rfl, fun hb => h ?_⟩
      rw [hb]
      exact closed_append_singleton ys
  · rintro ⟨ys, b, rfl, hb⟩ h
    exact hb (h b (by simp))

theorem not_closed_append {t : List α} (xs : List α) (ht : t ≠ []) (hn : nl ∉ t) :
    ¬ Closed nl (xs ++ t) := by
  rw [not_closed_iff]
  rcases List.eq_nil_or_concat' t with rfl | ⟨ts, b, rfl⟩
  · exact absurd rfl ht
  · refine ⟨xs ++ ts, b, by simp, ?_⟩
    rintro rfl
    exact hn (by simp)

/-- Every log is a closed part followed by an unfinished line, possibly empty. -/
theorem exists_tail (nl : α) (xs : List α) : ∃ ys t, xs = ys ++ t ∧ Closed nl ys ∧ nl ∉ t := by
  induction xs using List.reverseRecOn with
  | nil => exact ⟨[], [], rfl, closed_nil, by simp⟩
  | append_singleton xs b ih =>
    by_cases hb : b = nl
    · subst hb
      exact ⟨xs ++ [b], [], by simp, closed_append_singleton xs, by simp⟩
    · obtain ⟨ys, t, rfl, hy, ht⟩ := ih
      refine ⟨ys, t ++ [b], by simp, hy, ?_⟩
      simp only [List.mem_append, List.mem_singleton, not_or]
      exact ⟨ht, fun h => hb h.symm⟩

/-- The unfinished line of a log is determined by the log. -/
theorem tail_unique {ys t ys' t' : List α} (hy : Closed nl ys) (ht : nl ∉ t) (hy' : Closed nl ys')
    (ht' : nl ∉ t') (h : ys ++ t = ys' ++ t') : t = t' := by
  have hlast : ∀ {zs u v : List α}, Closed nl (zs ++ u) → nl ∉ u ++ v → u = [] := by
    intro zs u v hc hn
    by_contra hu
    exact not_closed_append zs hu (fun hm => hn (List.mem_append_left _ hm)) hc
  rcases List.append_eq_append_iff.1 h with ⟨u, rfl, rfl⟩ | ⟨u, rfl, rfl⟩
  · rw [hlast hy' ht, List.nil_append]
  · rw [hlast hy ht', List.nil_append]

end Closed

/-! ## Comparing decoders -/

section Compare

variable {γ : Type*} {f g : α → Option γ} {l : List α}

/-- A decoder that refuses more than another one reads no more values. -/
theorem length_filterMap_le (h : ∀ a ∈ l, f a = none ∨ f a = g a) :
    (l.filterMap f).length ≤ (l.filterMap g).length := by
  induction l with
  | nil => exact Nat.le_refl _
  | cons a l ih =>
    have hl := ih fun b hb => h b (List.mem_cons_of_mem a hb)
    rw [List.filterMap_cons, List.filterMap_cons]
    rcases h a List.mem_cons_self with ha | ha
    · rw [ha]
      cases g a with
      | none => exact hl
      | some c => exact Nat.le_succ_of_le hl
    · rw [ha]
      cases g a with
      | none => exact hl
      | some c => exact Nat.succ_le_succ hl

/-- It reads the same values exactly when the two agree on every item. -/
theorem filterMap_eq_iff (h : ∀ a ∈ l, f a = none ∨ f a = g a) :
    l.filterMap g = l.filterMap f ↔ ∀ a ∈ l, g a = f a := by
  constructor
  · intro heq
    induction l with
    | nil => simp
    | cons a l ih =>
      have hl : ∀ b ∈ l, f b = none ∨ f b = g b := fun b hb => h b (List.mem_cons_of_mem a hb)
      have hle := length_filterMap_le hl
      rw [List.filterMap_cons, List.filterMap_cons] at heq
      cases hg : g a with
      | none =>
        have ha : f a = none := by
          rcases h a List.mem_cons_self with ha | ha
          · exact ha
          · exact ha.trans hg
        rw [ha, hg] at heq
        exact List.forall_mem_cons.2 ⟨hg.trans ha.symm, ih hl heq⟩
      | some c =>
        rcases h a List.mem_cons_self with ha | ha
        · -- the first decoder falls behind here and cannot catch up
          rw [ha, hg] at heq
          have hlen := congrArg List.length heq
          simp only [List.length_cons] at hlen
          omega
        · rw [ha, hg] at heq
          exact List.forall_mem_cons.2 ⟨ha.symm, ih hl (List.cons.inj heq).2⟩
  · intro hall
    exact List.filterMap_congr hall

end Compare

variable [DecidableEq α]

instance (nl : α) (xs : List α) : Decidable (Closed nl xs) :=
  inferInstanceAs (Decidable (∀ b ∈ xs.getLast?, b = nl))

/-! ## Lines -/

section Lines

variable (nl : α)

/-- The lines of a log, each with its delimiter; the last one may lack it. -/
def lines : List α → List (List α)
  | [] => []
  | b :: bs =>
    if b = nl then [b] :: lines bs
    else
      match lines bs with
      | [] => [[b]]
      | l :: ls => (b :: l) :: ls

/-- Close a log by adding the missing delimiter. -/
def close (xs : List α) : List α := if Closed nl xs then xs else xs ++ [nl]

variable {nl}

@[simp] theorem lines_nil : lines nl [] = [] := rfl

theorem closed_close (xs : List α) : Closed nl (close nl xs) := by
  unfold close
  split
  · assumption
  · exact closed_append_singleton xs

theorem close_of_closed {xs : List α} (h : Closed nl xs) : close nl xs = xs := by
  unfold close; rw [if_pos h]

theorem close_of_not_closed {xs : List α} (h : ¬ Closed nl xs) : close nl xs = xs ++ [nl] := by
  unfold close; rw [if_neg h]

/-- A line without delimiter is the only line of its log. -/
theorem lines_of_not_mem {t : List α} (ht : t ≠ []) (hn : nl ∉ t) : lines nl t = [t] := by
  induction t with
  | nil => exact absurd rfl ht
  | cons b bs ih =>
    have hb : b ≠ nl := fun h => hn (by simp [h])
    have hbs : nl ∉ bs := fun h => hn (List.mem_cons_of_mem b h)
    unfold lines
    rw [if_neg hb]
    cases bs with
    | nil => rfl
    | cons c cs => rw [ih (by simp) hbs]

theorem lines_cons_ne_nil (b : α) (bs : List α) : lines nl (b :: bs) ≠ [] := by
  unfold lines
  split
  · simp
  · split <;> simp

/-- Cutting commutes with appending to a closed log. -/
theorem lines_append {xs : List α} (h : Closed nl xs) (ys : List α) :
    lines nl (xs ++ ys) = lines nl xs ++ lines nl ys := by
  induction xs with
  | nil => rfl
  | cons b bs ih =>
    have hbs : Closed nl bs := by
      cases bs with
      | nil => exact closed_nil
      | cons c cs => intro d hd; exact h d (by simpa [List.getLast?_cons_cons] using hd)
    simp only [List.cons_append, lines]
    by_cases hb : b = nl
    · rw [if_pos hb, if_pos hb, ih hbs, List.cons_append]
    · rw [if_neg hb, if_neg hb, ih hbs]
      cases hl : lines nl bs with
      | cons l ls => rfl
      | nil =>
        -- an empty rest would leave `b` as an unfinished line
        cases bs with
        | nil => exact absurd (h b (by simp)) hb
        | cons c cs => exact absurd hl (lines_cons_ne_nil c cs)

theorem lines_append_singleton {t : List α} (hn : nl ∉ t) : lines nl (t ++ [nl]) = [t ++ [nl]] := by
  induction t with
  | nil => simp [lines]
  | cons b bs ih =>
    have hb : b ≠ nl := fun h => hn (by simp [h])
    have hbs : nl ∉ bs := fun h => hn (List.mem_cons_of_mem b h)
    rw [List.cons_append]
    unfold lines
    rw [if_neg hb, ih hbs]

end Lines

/-! ## Reading through a decoder -/

section Collect

variable (nl : α) (f : List α → Option β)

/-- The values a partial decoder reads from a log, line by line. -/
def collect (xs : List α) : List β := (lines nl xs).filterMap f

variable {nl f}

@[simp] theorem collect_nil : collect nl f [] = [] := rfl

theorem collect_append {xs : List α} (h : Closed nl xs) (ys : List α) :
    collect nl f (xs ++ ys) = collect nl f xs ++ collect nl f ys := by
  unfold collect
  rw [lines_append h, List.filterMap_append]

/-- One finished line contributes what its decoder returns. -/
theorem collect_line {t : List α} (hn : nl ∉ t) :
    collect nl f (t ++ [nl]) = (f (t ++ [nl])).toList := by
  unfold collect
  rw [lines_append_singleton hn]
  cases h : f (t ++ [nl]) <;> simp [h]

/-- One unfinished line contributes what its decoder returns. -/
theorem collect_tail {t : List α} (hf : f [] = none) (hn : nl ∉ t) :
    collect nl f t = (f t).toList := by
  cases t with
  | nil => simp [hf]
  | cons b bs =>
    unfold collect
    rw [lines_of_not_mem (by simp) hn]
    cases h : f (b :: bs) <;> simp [h]

end Collect

/-! ## Segments -/

section Segments

variable (nl : α)

/-- The maximal parts without delimiter, with their offsets, for a log that starts at `o`. -/
def segmentsAt (o : Nat) : List α → List (Nat × List α)
  | [] => [(o, [])]
  | b :: bs =>
    if b = nl then (o, []) :: segmentsAt (o + 1) bs
    else
      match segmentsAt (o + 1) bs with
      | [] => [(o, [b])]
      | (_, seg) :: rest => (o, b :: seg) :: rest

variable {nl}

theorem segmentsAt_ne_nil (o : Nat) (xs : List α) : segmentsAt nl o xs ≠ [] := by
  cases xs with
  | nil => simp [segmentsAt]
  | cons b bs =>
    unfold segmentsAt
    split
    · simp
    · split <;> simp

theorem segmentsAt_of_not_mem {t : List α} (o : Nat) (hn : nl ∉ t) :
    segmentsAt nl o t = [(o, t)] := by
  induction t generalizing o with
  | nil => rfl
  | cons b bs ih =>
    have hb : b ≠ nl := fun h => hn (by simp [h])
    have hbs : nl ∉ bs := fun h => hn (List.mem_cons_of_mem b h)
    unfold segmentsAt
    rw [if_neg hb, ih (o + 1) hbs]

/-- A delimiter splits the segments. -/
theorem segmentsAt_append (o : Nat) (xs ys : List α) :
    segmentsAt nl o (xs ++ nl :: ys) =
      segmentsAt nl o xs ++ segmentsAt nl (o + xs.length + 1) ys := by
  induction xs generalizing o with
  | nil => simp [segmentsAt]
  | cons b bs ih =>
    have e : o + 1 + bs.length + 1 = o + (b :: bs).length + 1 := by
      simp only [List.length_cons]; omega
    simp only [List.cons_append, segmentsAt]
    rw [ih (o + 1), e]
    split
    · rw [List.cons_append]
    · cases h : segmentsAt nl (o + 1) bs with
      | nil => exact absurd h (segmentsAt_ne_nil (o + 1) bs)
      | cons p ps => rfl

/-- The segments do not depend on where the log starts. -/
theorem map_snd_segmentsAt (o o' : Nat) (xs : List α) :
    (segmentsAt nl o xs).map Prod.snd = (segmentsAt nl o' xs).map Prod.snd := by
  induction xs generalizing o o' with
  | nil => rfl
  | cons b bs ih =>
    have hrest := ih (o + 1) (o' + 1)
    unfold segmentsAt
    split
    · rw [List.map_cons, List.map_cons, hrest]
    · cases h : segmentsAt nl (o + 1) bs with
      | nil => exact absurd h (segmentsAt_ne_nil (o + 1) bs)
      | cons p ps =>
        cases h' : segmentsAt nl (o' + 1) bs with
        | nil => exact absurd h' (segmentsAt_ne_nil (o' + 1) bs)
        | cons q qs =>
          rw [h, h', List.map_cons, List.map_cons, List.cons.injEq] at hrest
          simp only [List.map_cons]
          rw [hrest.1, hrest.2]

end Segments

/-! ## Reading one line at a time -/

section FirstLine

variable (nl : α)

/-- The first line of a log, with its delimiter if it has one. -/
def firstLine : List α → List α
  | [] => []
  | b :: bs => if b = nl then [b] else b :: firstLine bs

variable {nl}

theorem firstLine_ne_nil {xs : List α} (h : xs ≠ []) : firstLine nl xs ≠ [] := by
  cases xs with
  | nil => exact absurd rfl h
  | cons b bs =>
    unfold firstLine
    split <;> simp

theorem firstLine_append_of_not_mem {c : List α} (hc : nl ∉ c) (ys : List α) :
    firstLine nl (c ++ ys) = c ++ firstLine nl ys := by
  induction c with
  | nil => rfl
  | cons b bs ih =>
    have hb : b ≠ nl := fun h => hc (by simp [h])
    have hbs : nl ∉ bs := fun h => hc (List.mem_cons_of_mem b h)
    rw [List.cons_append, firstLine, if_neg hb, ih hbs, List.cons_append]

theorem firstLine_append_of_mem {c : List α} (hc : nl ∈ c) (ys : List α) :
    firstLine nl (c ++ ys) = firstLine nl c := by
  induction c with
  | nil => cases hc
  | cons b bs ih =>
    rw [List.cons_append]
    unfold firstLine
    split
    · rfl
    · next hb =>
      rcases List.mem_cons.1 hc with h | h
      · exact absurd h.symm hb
      · rw [ih h]

/-- The position of the delimiter cuts off the first line. -/
theorem take_idxOf?_succ {c : List α} {i : Nat} (h : c.idxOf? nl = some i) :
    c.take (i + 1) = firstLine nl c := by
  induction c generalizing i with
  | nil => cases h
  | cons b bs ih =>
    rw [List.idxOf?_cons] at h
    unfold firstLine
    by_cases hb : b = nl
    · rw [if_pos (by simpa using hb)] at h
      obtain rfl := Option.some.inj h
      rw [if_pos hb]
      rfl
    · rw [if_neg (by simpa using hb)] at h
      obtain ⟨j, hj, rfl⟩ := Option.map_eq_some_iff.1 h
      rw [if_neg hb, List.take_succ_cons, ih hj]

theorem lines_eq_cons {xs : List α} (h : xs ≠ []) :
    lines nl xs = firstLine nl xs :: lines nl (xs.drop (firstLine nl xs).length) := by
  induction xs with
  | nil => exact absurd rfl h
  | cons b bs ih =>
    unfold firstLine
    conv_lhs => unfold lines
    by_cases hb : b = nl
    · rw [if_pos hb, if_pos hb]
      rfl
    · rw [if_neg hb, if_neg hb, List.length_cons, List.drop_succ_cons]
      cases bs with
      | nil => rfl
      | cons c cs => rw [ih (by simp)]

theorem firstLine_isPrefix (nl : α) (xs : List α) : firstLine nl xs <+: xs := by
  induction xs with
  | nil => exact List.prefix_rfl
  | cons b bs ih =>
    unfold firstLine
    split
    · exact ⟨bs, rfl⟩
    · exact List.prefix_cons_iff.2 (Or.inr ⟨_, rfl, ih⟩)

/-- A line that something follows ends with its delimiter. -/
theorem firstLine_closed {xs : List α} (h : (firstLine nl xs).length < xs.length) :
    (firstLine nl xs).getLast? = some nl := by
  induction xs with
  | nil => simp at h
  | cons b bs ih =>
    unfold firstLine at h ⊢
    by_cases hb : b = nl
    · rw [if_pos hb, hb]
      rfl
    · rw [if_neg hb] at h ⊢
      rw [List.length_cons, List.length_cons] at h
      have hbs : bs ≠ [] := by
        intro hn
        rw [hn] at h
        simp at h
      obtain ⟨c, cs, hcs⟩ := List.exists_cons_of_ne_nil (@firstLine_ne_nil _ _ nl _ hbs)
      have hlast := ih (by omega)
      rw [hcs] at hlast ⊢
      rw [List.getLast?_cons_cons]
      exact hlast

end FirstLine

/-! ## Lines with their offsets -/

section Located

/-- Lines with the offsets at which they start. -/
def located (o : Nat) : List (List α) → List (Nat × List α)
  | [] => []
  | l :: ls => (o, l) :: located (o + l.length) ls

omit [DecidableEq α] in
theorem located_append (o : Nat) (xs ys : List (List α)) :
    located o (xs ++ ys) = located o xs ++ located (o + xs.flatten.length) ys := by
  induction xs generalizing o with
  | nil => rfl
  | cons x xs ih =>
    rw [List.cons_append, located, located, ih, List.flatten_cons, List.length_append,
      Nat.add_assoc, List.cons_append]

/-- A line without its delimiter. -/
def content (nl : α) (l : List α) : List α := if l.getLast? = some nl then l.dropLast else l

variable {nl : α}

omit [DecidableEq α] in
theorem map_snd_located (o : Nat) (ls : List (List α)) : (located o ls).map Prod.snd = ls := by
  induction ls generalizing o with
  | nil => rfl
  | cons l ls ih => rw [located, List.map_cons, ih]

theorem content_append_singleton (t : List α) : content nl (t ++ [nl]) = t := by
  unfold content
  rw [if_pos (by simp), List.dropLast_concat]

theorem content_of_not_mem {t : List α} (hn : nl ∉ t) : content nl t = t := by
  unfold content
  refine if_neg fun hl => hn ?_
  exact List.mem_of_getLast? hl

theorem content_cons {b : α} {l : List α} (hl : l ≠ []) :
    content nl (b :: l) = b :: content nl l := by
  obtain ⟨c, cs, rfl⟩ := List.exists_cons_of_ne_nil hl
  unfold content
  rw [List.getLast?_cons_cons]
  split
  · rfl
  · rfl

theorem ne_nil_of_mem_lines {l xs : List α} (h : l ∈ lines nl xs) : l ≠ [] := by
  induction xs generalizing l with
  | nil => cases h
  | cons b bs ih =>
    unfold lines at h
    split at h
    · rcases List.mem_cons.1 h with rfl | h
      · simp
      · exact ih h
    · split at h
      · obtain rfl := List.mem_singleton.1 h
        simp
      · next l' ls hls =>
        rcases List.mem_cons.1 h with rfl | h
        · simp
        · exact ih (hls ▸ List.mem_cons_of_mem l' h)

/-- The segments of a log are the contents of its lines, and an empty one behind a last
delimiter. -/
theorem segmentsAt_eq (o : Nat) (xs : List α) :
    segmentsAt nl o xs = (located o (lines nl xs)).map (fun p => (p.1, content nl p.2)) ++
      if Closed nl xs then [(o + xs.length, [])] else [] := by
  induction xs generalizing o with
  | nil => rw [if_pos closed_nil]; rfl
  | cons b bs ih =>
    have hlen : o + 1 + bs.length = o + (b :: bs).length := by
      rw [List.length_cons]
      omega
    unfold segmentsAt lines
    by_cases hb : b = nl
    · have hclosed : Closed nl (b :: bs) ↔ Closed nl bs := by
        cases bs with
        | nil => simp [Closed, hb]
        | cons c cs => unfold Closed; rw [List.getLast?_cons_cons]
      have hcontent : content nl [b] = [] := by
        rw [hb]
        exact content_append_singleton []
      simp only [if_pos hb, located, List.map_cons, List.cons_append, hcontent,
        List.length_singleton, ih (o + 1), hlen, hclosed]
    · rw [if_neg hb, if_neg hb, ih (o + 1), hlen]
      cases hls : lines nl bs with
      | nil =>
        obtain rfl : bs = [] := by
          by_contra hne
          obtain ⟨c, cs, rfl⟩ := List.exists_cons_of_ne_nil hne
          exact lines_cons_ne_nil c cs hls
        have hopen : ¬ Closed nl [b] := fun hc => hb (hc b (by simp))
        rw [if_pos closed_nil, if_neg hopen]
        simp [located, content_of_not_mem (t := [b]) (by simpa using fun h => hb h.symm)]
      | cons l ls =>
        have hl : l ≠ [] := ne_nil_of_mem_lines (by rw [hls]; simp)
        have hne : bs ≠ [] := by
          rintro rfl
          cases hls
        have hclosed : Closed nl (b :: bs) ↔ Closed nl bs := by
          obtain ⟨c, cs, rfl⟩ := List.exists_cons_of_ne_nil hne
          unfold Closed
          rw [List.getLast?_cons_cons]
        have hloc : o + 1 + l.length = o + (b :: l).length := by
          rw [List.length_cons]
          omega
        simp only [located, List.map_cons, List.cons_append, hclosed, content_cons hl, hloc]

end Located

end LineLog
