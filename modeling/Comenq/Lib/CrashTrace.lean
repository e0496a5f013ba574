import Mathlib.Tactic

/-!
# Traces that may be cut

An operation performs a trace of events on a state. A process that dies in the middle has
performed a `Cut` of the trace: some of its events in order, then possibly a torn remainder of the
next one (`tears`, for example a write of which only a prefix arrived).

`Throughout I s t` says that `I` holds in the state left by every cut of `t` started in `s`. It is
proved event by event (`throughout_cons`) and composes along appended traces
(`throughout_append`). `Along R s t` says that every event of `t` is of a kind `R` permits in the
state it happens in; an invariant kept by all permitted events then holds throughout
(`Along.throughout`).
-/

namespace CrashTrace

variable {ε σ : Type*}

/-- The state after a trace. -/
def run (upd : σ → ε → σ) (s : σ) (t : List ε) : σ := t.foldl upd s

/-- `Cut tears p t`: a process that set out to perform `t` may have performed exactly `p`. -/
inductive Cut (tears : ε → ε → Prop) : List ε → List ε → Prop
  | stop (t : List ε) : Cut tears [] t
  | torn {e e' : ε} (h : tears e e') (t : List ε) : Cut tears [e'] (e :: t)
  | step (e : ε) {p t : List ε} (h : Cut tears p t) : Cut tears (e :: p) (e :: t)

/-- `I` holds wherever the trace is cut. -/
def Throughout (upd : σ → ε → σ) (tears : ε → ε → Prop) (I : σ → Prop) (s : σ)
    (t : List ε) : Prop :=
  ∀ p, Cut tears p t → I (run upd s p)

variable {upd : σ → ε → σ} {tears : ε → ε → Prop}

@[simp] theorem run_nil (s : σ) : run upd s [] = s := rfl

@[simp] theorem run_cons (s : σ) (e : ε) (t : List ε) :
    run upd s (e :: t) = run upd (upd s e) t := rfl

@[simp] theorem run_append (s : σ) (t u : List ε) :
    run upd s (t ++ u) = run upd (run upd s t) u := by
  unfold run
  rw [List.foldl_append]

theorem Cut.refl (t : List ε) : Cut tears t t := by
  induction t with
  | nil => exact .stop []
  | cons e t ih => exact .step e ih

theorem Cut.take (t : List ε) (n : Nat) : Cut tears (t.take n) t := by
  induction t generalizing n with
  | nil => rw [List.take_nil]; exact .stop []
  | cons e t ih =>
    cases n with
    | zero => exact .stop (e :: t)
    | succ n => exact .step e (ih n)

theorem cut_nil {p : List ε} : Cut tears p [] ↔ p = [] := by
  constructor
  · intro h; cases h; rfl
  · rintro rfl; exact .stop []

/-- A cut of two traces in a row falls in the first one, or comes after all of it. -/
theorem cut_append {p t u : List ε} :
    Cut tears p (t ++ u) ↔ Cut tears p t ∨ ∃ q, p = t ++ q ∧ Cut tears q u := by
  induction t generalizing p with
  | nil =>
    constructor
    · intro h; exact Or.inr ⟨p, rfl, h⟩
    · rintro (h | ⟨q, rfl, h⟩)
      · rw [cut_nil.1 h]; exact .stop _
      · exact h
  | cons e t ih =>
    constructor
    · intro h
      rw [List.cons_append] at h
      cases h with
      | stop => exact Or.inl (.stop _)
      | torn h => exact Or.inl (.torn h _)
      | step _ h =>
        rcases ih.1 h with h | ⟨q, rfl, hq⟩
        · exact Or.inl (.step e h)
        · exact Or.inr ⟨q, rfl, hq⟩
    · rintro (h | ⟨q, rfl, h⟩)
      · cases h with
        | stop => exact .stop _
        | torn h => exact .torn h _
        | step _ h => exact .step e (ih.2 (Or.inl h))
      · exact .step e (ih.2 (Or.inr ⟨q, rfl, h⟩))

section Throughout

variable {I : σ → Prop} {s : σ}

theorem throughout_nil : Throughout upd tears I s [] ↔ I s := by
  constructor
  · intro h; exact h [] (.stop [])
  · intro h p hp; rw [cut_nil.1 hp]; exact h

theorem throughout_cons {e : ε} {t : List ε} :
    Throughout upd tears I s (e :: t) ↔
      I s ∧ (∀ e', tears e e' → I (upd s e')) ∧ Throughout upd tears I (upd s e) t := by
  constructor
  · intro h
    exact ⟨h [] (.stop _), fun e' he => h [e'] (.torn he t), fun p hp => h (e :: p) (.step e hp)⟩
  · rintro ⟨h0, h1, h2⟩ p hp
    cases hp with
    | stop => exact h0
    | torn he => exact h1 _ he
    | step _ hp => exact h2 _ hp

theorem throughout_append {t u : List ε} :
    Throughout upd tears I s (t ++ u) ↔
      Throughout upd tears I s t ∧ Throughout upd tears I (run upd s t) u := by
  constructor
  · intro h
    refine ⟨fun p hp => h p (cut_append.2 (Or.inl hp)), fun q hq => ?_⟩
    have := h (t ++ q) (cut_append.2 (Or.inr ⟨q, rfl, hq⟩))
    rwa [run_append] at this
  · rintro ⟨ht, hu⟩ p hp
    rcases cut_append.1 hp with hp | ⟨q, rfl, hq⟩
    · exact ht p hp
    · rw [run_append]; exact hu q hq

theorem Throughout.finish {t : List ε} (h : Throughout upd tears I s t) : I (run upd s t) :=
  h t (.refl t)

theorem Throughout.mono {I' : σ → Prop} {t : List ε} (h : Throughout upd tears I s t)
    (hI : ∀ s, I s → I' s) : Throughout upd tears I' s t :=
  fun p hp => hI _ (h p hp)

end Throughout

/-! ## Traces of permitted events -/

section Along

variable (upd)

/-- Each event of the trace is permitted by `R` in the state it happens in. -/
def Along (R : σ → ε → Prop) : σ → List ε → Prop
  | _, [] => True
  | s, e :: t => R s e ∧ Along R (upd s e) t

variable {upd}

variable {R : σ → ε → Prop} {s : σ}

theorem along_append {t u : List ε} :
    Along upd R s (t ++ u) ↔ Along upd R s t ∧ Along upd R (run upd s t) u := by
  induction t generalizing s with
  | nil => exact ⟨fun h => ⟨trivial, h⟩, fun h => h.2⟩
  | cons e t ih =>
    constructor
    · rintro ⟨he, h⟩
      obtain ⟨ht, hu⟩ := ih.1 h
      exact ⟨⟨he, ht⟩, hu⟩
    · rintro ⟨⟨he, ht⟩, hu⟩
      exact ⟨he, ih.2 ⟨ht, hu⟩⟩

/-- An invariant that permitted events keep, torn or not, holds wherever the trace is cut. -/
theorem Along.throughout {I : σ → Prop} {t : List ε} (hstep : ∀ s e, I s → R s e → I (upd s e))
    (htorn : ∀ s e e', I s → R s e → tears e e' → I (upd s e')) (h0 : I s)
    (h : Along upd R s t) : Throughout upd tears I s t := by
  induction t generalizing s with
  | nil => exact throughout_nil.2 h0
  | cons e t ih =>
    obtain ⟨he, ht⟩ := h
    exact throughout_cons.2 ⟨h0, fun e' hee => htorn s e e' h0 he hee, ih (hstep s e h0 he) ht⟩

end Along

end CrashTrace
