import Mathlib.Tactic

/-!
# Lists kept in order by integer keys

A list is `Ranked` when its keys increase strictly and lie within a bound. Such a list is determined
by its members (`Ranked.perm_of_mem`), an element with a key beyond the last one goes to its end
(`Ranked.snoc`), one with a key before the first one to its front (`Ranked.cons`), and each such
step widens the bound by one.
-/

namespace KeyOrder

variable {α : Type*} {key : α → ℤ} {n : Nat} {l l' : List α}

/-- Strictly increasing keys between `-n` and `n`. -/
structure Ranked (key : α → ℤ) (n : Nat) (l : List α) : Prop where
  sorted : l.Pairwise fun a b => key a < key b
  bound : ∀ a ∈ l, -(n : ℤ) ≤ key a ∧ key a ≤ n

namespace Ranked

theorem nil (key : α → ℤ) (n : Nat) : Ranked key n [] :=
  ⟨List.Pairwise.nil, fun a ha => by cases ha⟩

theorem mono {m : Nat} (h : Ranked key n l) (hm : n ≤ m) : Ranked key m l := by
  refine ⟨h.sorted, fun a ha => ?_⟩
  have := h.bound a ha
  omega

theorem sublist (h : Ranked key n l) (hs : l'.Sublist l) : Ranked key n l' :=
  ⟨h.sorted.sublist hs, fun a ha => h.bound a (hs.subset ha)⟩

/-- Elements may be replaced by others with the same keys. -/
theorem map (h : Ranked key n l) {f : α → α} (hf : ∀ a ∈ l, key (f a) = key a) :
    Ranked key n (l.map f) := by
  constructor
  · rw [List.pairwise_map]
    refine h.sorted.imp_of_mem ?_
    intro a b ha hb hab
    rw [hf a ha, hf b hb]
    exact hab
  · intro b hb
    obtain ⟨a, ha, rfl⟩ := List.mem_map.1 hb
    rw [hf a ha]
    exact h.bound a ha

theorem snoc (h : Ranked key n l) {a : α} (hlast : ∀ b ∈ l, key b < key a)
    (ha : -(n : ℤ) ≤ key a ∧ key a ≤ n) : Ranked key n (l ++ [a]) := by
  refine ⟨List.pairwise_append.2 ⟨h.sorted, List.pairwise_singleton _ _, ?_⟩, ?_⟩
  · intro b hb c hc
    rw [List.mem_singleton.1 hc]
    exact hlast b hb
  · intro b hb
    rcases List.mem_append.1 hb with hb | hb
    · exact h.bound b hb
    · rw [List.mem_singleton.1 hb]
      exact ha

theorem cons (h : Ranked key n l) {a : α} (hfirst : ∀ b ∈ l, key a < key b)
    (ha : -(n : ℤ) ≤ key a ∧ key a ≤ n) : Ranked key n (a :: l) := by
  refine ⟨List.pairwise_cons.2 ⟨hfirst, h.sorted⟩, ?_⟩
  intro b hb
  rcases List.mem_cons.1 hb with rfl | hb
  · exact ha
  · exact h.bound b hb

theorem le_last (h : Ranked key n l) {z : α} (hz : l.getLast? = some z) {a : α} (ha : a ∈ l) :
    a = z ∨ key a < key z := by
  obtain ⟨pre, rfl⟩ := List.getLast?_eq_some_iff.1 hz
  rcases List.mem_append.1 ha with ha | ha
  · exact Or.inr ((List.pairwise_append.1 h.sorted).2.2 a ha z (List.mem_singleton.2 rfl))
  · exact Or.inl (List.mem_singleton.1 ha)

theorem first_le (h : Ranked key n l) {z : α} (hz : l.head? = some z) {a : α} (ha : a ∈ l) :
    a = z ∨ key z < key a := by
  cases l with
  | nil => cases hz
  | cons b l =>
    obtain rfl := Option.some.inj hz
    rcases List.mem_cons.1 ha with rfl | ha
    · exact Or.inl rfl
    · exact Or.inr ((List.pairwise_cons.1 h.sorted).1 a ha)

theorem nodup (h : Ranked key n l) : l.Nodup :=
  h.sorted.imp fun hab heq => absurd (heq ▸ hab) (lt_irrefl _)

/-- The members determine the list up to order, and the keys the order. -/
theorem perm_of_mem (h : Ranked key n l) (hn : l'.Nodup) (hm : ∀ a, a ∈ l ↔ a ∈ l') : l.Perm l' :=
  (List.perm_ext_iff_of_nodup h.nodup hn).2 hm

end Ranked

end KeyOrder
