import Mathlib.Data.List.Forall2

/-!
# Values chained through a list

`chain step as prev` computes one value for each element of a list, each from the element and the
value before it; `prev` stands before the first. The laws compare two chains: over the same list
with different steps or starts (`chain_rel`), and before and after an element is left out
(`chain_remove`).
-/

namespace Chain

variable {α β : Type*}

/-- The value of every element, each computed from the value before it. -/
def chain (step : Option β → α → β) : List α → Option β → List β
  | [], _ => []
  | a :: as, prev => step prev a :: chain step as (some (step prev a))

/-- The value an element put behind the list is computed from. -/
def before (step : Option β → α → β) : List α → Option β → Option β
  | [], prev => prev
  | a :: as, prev => before step as (some (step prev a))

variable {step : Option β → α → β}

@[simp] theorem length_chain (as : List α) (prev : Option β) :
    (chain step as prev).length = as.length := by
  induction as generalizing prev with
  | nil => rfl
  | cons a as ih => simp [chain, ih]

theorem chain_append (as bs : List α) (prev : Option β) :
    chain step (as ++ bs) prev = chain step as prev ++ chain step bs (before step as prev) := by
  induction as generalizing prev with
  | nil => rfl
  | cons a as ih => simp [chain, before, ih]

theorem before_append (as bs : List α) (prev : Option β) :
    before step (as ++ bs) prev = before step bs (before step as prev) := by
  induction as generalizing prev with
  | nil => rfl
  | cons a as ih => simp [before, ih]

/-- The value before position `i + 1` is the value at position `i`. -/
theorem getElem?_chain_succ {as : List α} {prev : Option β} {i : Nat} {a : α} {b : β}
    (ha : as[i + 1]? = some a) (hb : (chain step as prev)[i]? = some b) :
    (chain step as prev)[i + 1]? = some (step (some b) a) := by
  induction as generalizing prev i with
  | nil => simp at ha
  | cons c cs ih =>
    cases i with
    | zero =>
      simp only [chain, List.getElem?_cons_zero, Option.some.injEq] at hb
      subst hb
      cases cs with
      | nil => simp at ha
      | cons d ds =>
        simp only [Nat.zero_add, List.getElem?_cons_succ, List.getElem?_cons_zero,
          Option.some.injEq] at ha
        simp [chain, ha]
    | succ i =>
      simp only [chain, List.getElem?_cons_succ] at ha hb ⊢
      exact ih ha hb

/-! ## Two chains over one list -/

section Rel

variable {step' : Option β → α → β} {R : Option β → Option β → Prop}

/-- A relation that one step carries over holds between the values of two chains. -/
theorem chain_rel (hstep : ∀ p q a, R p q → R (some (step p a)) (some (step' q a)))
    (as : List α) {p q : Option β} (h : R p q) :
    List.Forall₂ (fun x y => R (some x) (some y)) (chain step as p) (chain step' as q) := by
  induction as generalizing p q with
  | nil => exact .nil
  | cons a as ih =>
    have hhead := hstep p q a h
    exact .cons hhead (ih hhead)

end Rel

/-! ## Steps that follow an order -/

/-- A step that never goes back and that a later start never makes earlier. -/
structure Advances (step : Option β → α → β) (R : Option β → Option β → Prop) : Prop where
  refl : ∀ p, R p p
  trans : ∀ p q r, R p q → R q r → R p r
  mono : ∀ p q a, R p q → R (some (step p a)) (some (step q a))
  forward : ∀ p a, R p (some (step p a))

variable {R : Option β → Option β → Prop}

/-- What stands behind a list is not before what stands in front of it. -/
theorem Advances.le_before (h : Advances step R) (as : List α) (prev : Option β) :
    R prev (before step as prev) := by
  induction as generalizing prev with
  | nil => exact h.refl prev
  | cons a as ih => exact h.trans _ _ _ (h.forward prev a) (ih _)

theorem Advances.chain_ge (h : Advances step R) (as : List α) (prev : Option β) :
    ∀ b ∈ chain step as prev, R prev (some b) := by
  induction as generalizing prev with
  | nil => simp [chain]
  | cons a as ih =>
    intro b hb
    simp only [chain, List.mem_cons] at hb
    obtain rfl | hb := hb
    · exact h.forward prev a
    · exact h.trans _ _ _ (h.forward prev a) (ih _ b hb)

theorem Advances.pairwise (h : Advances step R) (as : List α) (prev : Option β) :
    (chain step as prev).Pairwise fun x y => R (some x) (some y) := by
  induction as generalizing prev with
  | nil => exact .nil
  | cons a as ih => exact List.Pairwise.cons (h.chain_ge as _) (ih _)

/-- Leaving out an element makes no other value later. -/
theorem Advances.chain_remove (h : Advances step R) (as : List α) (a : α) (bs : List α)
    (prev : Option β) :
    List.Forall₂ (fun x y => R (some x) (some y)) (chain step (as ++ bs) prev)
      ((chain step (as ++ a :: bs) prev).eraseIdx as.length) := by
  have herase : (chain step (as ++ a :: bs) prev).eraseIdx as.length =
      chain step as prev ++ chain step bs (some (step (before step as prev) a)) := by
    rw [chain_append, List.eraseIdx_append_of_length_le (by simp)]
    simp [chain]
  rw [herase, chain_append]
  apply List.rel_append
  · exact chain_rel h.mono as (h.refl prev)
  · exact chain_rel h.mono bs (h.forward _ a)

end Chain
