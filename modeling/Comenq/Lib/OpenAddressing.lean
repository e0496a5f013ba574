import Mathlib.Order.Basic

/-!
# Open addressing

A search goes along a path of slots and stops at the first one that is free or holds a wanted item.
The slot where it stops is determined by the table (`Passes.index_eq`), so at most one wanted item
is found, and none if the search ends at a free slot. An item is found as long as the slots before
it stay occupied (`Passes.mono`).
-/

namespace OpenAddressing

variable {σ α : Type*}

/-- The slots before the `i`-th hold items that are not wanted, so the search goes past them. -/
def Passes (table : σ → Option α) (wanted : α → Prop) (path : ℕ → σ) (i : ℕ) : Prop :=
  ∀ j < i, ∃ a, table (path j) = some a ∧ ¬ wanted a

/-- The search comes to the slot of `a`. -/
def Reaches (table : σ → Option α) (wanted : α → Prop) (path : ℕ → σ) (a : α) : Prop :=
  ∃ i, Passes table wanted path i ∧ table (path i) = some a

section Search

variable {table table' : σ → Option α} {wanted : α → Prop} {path : ℕ → σ} {i k : ℕ} {a b : α}

theorem passes_zero : Passes table wanted path 0 := fun _ hj => absurd hj (Nat.not_lt_zero _)

theorem Passes.succ (h : Passes table wanted path i) (ha : table (path i) = some a)
    (hn : ¬ wanted a) : Passes table wanted path (i + 1) := by
  intro j hj
  rcases Nat.lt_succ_iff_lt_or_eq.1 hj with hj | rfl
  · exact h j hj
  · exact ⟨a, ha, hn⟩

/-- The search stops at one slot only. -/
theorem Passes.index_eq (hi : Passes table wanted path i) (hk : Passes table wanted path k)
    (hstop : ∀ a, table (path i) = some a → wanted a)
    (hstop' : ∀ a, table (path k) = some a → wanted a) : i = k := by
  rcases Nat.lt_trichotomy i k with hlt | rfl | hlt
  · obtain ⟨a, ha, hn⟩ := hk i hlt
    exact absurd (hstop a ha) hn
  · rfl
  · obtain ⟨a, ha, hn⟩ := hi k hlt
    exact absurd (hstop' a ha) hn

/-- A wanted item that is reached is the one at which the search stops. -/
theorem Reaches.stop (h : Reaches table wanted path a) (ha : wanted a)
    (hi : Passes table wanted path i) (hstop : ∀ b, table (path i) = some b → wanted b) :
    table (path i) = some a := by
  obtain ⟨k, hk, hslot⟩ := h
  have hwanted : ∀ b, table (path k) = some b → wanted b := by
    intro b hb
    rw [hslot] at hb
    exact Option.some.inj hb ▸ ha
  rw [hi.index_eq hk hstop hwanted]
  exact hslot

/-- At most one wanted item is reached. -/
theorem Reaches.unique (h : Reaches table wanted path a) (ha : wanted a)
    (h' : Reaches table wanted path b) (hb : wanted b) : a = b := by
  obtain ⟨i, hi, hslot⟩ := h'
  have hstop : ∀ c, table (path i) = some c → wanted c := by
    intro c hc
    rw [hslot] at hc
    exact Option.some.inj hc ▸ hb
  exact Option.some.inj ((h.stop ha hi hstop).symm.trans hslot)

/-- A search that ends at a free slot reaches no wanted item. -/
theorem Reaches.ne_none (h : Reaches table wanted path a) (ha : wanted a)
    (hi : Passes table wanted path i) : table (path i) ≠ none := by
  intro hfree
  have hslot := h.stop ha hi (by simp [hfree])
  rw [hfree] at hslot
  cases hslot

/-- The search still goes as far when the slots before keep items that are not wanted. -/
theorem Passes.mono (h : Passes table wanted path i)
    (hkeep : ∀ j < i, ∀ a, table (path j) = some a → ¬ wanted a →
      ∃ b, table' (path j) = some b ∧ ¬ wanted b) : Passes table' wanted path i := by
  intro j hj
  obtain ⟨a, ha, hn⟩ := h j hj
  exact hkeep j hj a ha hn

end Search

end OpenAddressing
