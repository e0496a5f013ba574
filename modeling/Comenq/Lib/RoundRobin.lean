import Mathlib.Order.Interval.Finset.Nat

/-!
# Round robin

`turns n first m` are the first `m` turns of `n` parties when the party after the last one is the
first again. A sequence in which every turn goes to the successor of the one before is of this form
(`turns_concat`), and in any `n` consecutive turns every party has exactly one (`turns_window`).
-/

namespace RoundRobin

/-- The first `m` turns of `n` parties, from `first` on. -/
def turns (n first m : Nat) : List Nat := (List.range m).map fun j => (first + j) % n

theorem length_turns (n first m : Nat) : (turns n first m).length = m := by
  unfold turns
  rw [List.length_map, List.length_range]

theorem turns_succ (n first m : Nat) :
    turns n first (m + 1) = turns n first m ++ [(first + m) % n] := by
  unfold turns
  rw [List.range_succ, List.map_append, List.map_singleton]

/-- The party whose turn it is, from the one before and the one that starts. -/
def next (n first : Nat) : Option Nat → Nat
  | some last => (last + 1) % n
  | none => first % n

/-- The next turn continues the sequence. -/
theorem turns_concat {n first : Nat} {seq : List Nat} (h : seq = turns n first seq.length) :
    seq ++ [next n first seq.getLast?] = turns n first (seq.length + 1) := by
  rw [turns_succ, ← h, List.append_cancel_left_eq]
  rcases List.eq_nil_or_concat' seq with rfl | ⟨front, last, rfl⟩
  · rfl
  · rw [List.length_append, List.length_singleton, turns_succ] at h
    have hlast := (List.append_inj' h rfl).2
    rw [List.getLast?_concat, next, List.length_append, List.length_singleton,
      List.singleton_inj.1 hlast, Nat.mod_add_mod, Nat.add_assoc]

/-- Any `n` consecutive turns give every party one. -/
theorem turns_window (n first m j : Nat) (h : j + n ≤ m) :
    (((turns n first m).drop j).take n).Perm (List.range n) := by
  have hwindow : ((turns n first m).drop j).take n =
      (List.range' (first + j) n).map fun i => i % n := by
    apply List.ext_getElem
    · simp only [List.length_take, List.length_drop, length_turns, List.length_map,
        List.length_range']
      omega
    · intro i _ _
      simp only [turns, List.getElem_take, List.getElem_drop, List.getElem_map, List.getElem_range,
        List.getElem_range', Nat.one_mul, Nat.add_assoc]
  have hmod := Nat.multiset_Ico_map_mod (first + j) n
  have hinterval : Multiset.Ico (first + j) (first + j + n) =
      (List.range' (first + j) n : Multiset Nat) := by
    change (List.range' (first + j) (first + j + n - (first + j)) : Multiset Nat) = _
    rw [Nat.add_sub_cancel_left]
  rw [hinterval, Multiset.map_coe] at hmod
  rw [hwindow]
  exact Multiset.coe_eq_coe.1 hmod

end RoundRobin
