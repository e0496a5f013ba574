import Comenq.Lib.CrashTrace

/-!
# State behind a write-back cache

`Cached σ ε` is a state of which only a part is durable: the durable state and the changes made
since, in order. A sync makes the changes durable. A power failure keeps any of the changes that
are not durable yet and drops the others (`Survives`).

A property of every surviving state is kept by a sync (`survives_of_sync`) and has to be checked for
the surviving states and their images under a new change (`survives_perform`).
-/

namespace WriteBack

open CrashTrace

/-- A durable state and the changes that are not durable yet, oldest first. -/
structure Cached (σ ε : Type) where
  durable : σ
  pending : List ε

namespace Cached

variable {σ ε : Type} (upd : σ → ε → σ)

/-- A state with nothing outstanding. -/
def settled (s : σ) : Cached σ ε := ⟨s, []⟩

/-- The state programs see. -/
def current (c : Cached σ ε) : σ := run upd c.durable c.pending

def perform (c : Cached σ ε) (e : ε) : Cached σ ε := { c with pending := c.pending ++ [e] }

def sync (c : Cached σ ε) : Cached σ ε := settled (c.current upd)

/-- The states a power failure may leave. -/
def Survives (c : Cached σ ε) (s : σ) : Prop :=
  ∃ p, p.Sublist c.pending ∧ s = run upd c.durable p

variable {upd} {c : Cached σ ε} {s : σ}

@[simp] theorem current_perform (e : ε) : (c.perform e).current upd = upd (c.current upd) e := by
  unfold current perform
  rw [run_append]
  rfl

theorem survives_current : c.Survives upd (c.current upd) :=
  ⟨c.pending, List.Sublist.refl _, rfl⟩

theorem survives_settled {s' : σ} : (settled s : Cached σ ε).Survives upd s' ↔ s' = s := by
  constructor
  · rintro ⟨p, hp, rfl⟩
    rw [List.sublist_nil.1 hp]
    rfl
  · rintro rfl
    exact survives_current

theorem survives_of_sync (h : (c.sync upd).Survives upd s) : s = c.current upd :=
  survives_settled.1 h

theorem survives_perform {e : ε} : (c.perform e).Survives upd s ↔
    c.Survives upd s ∨ ∃ s₀, c.Survives upd s₀ ∧ s = upd s₀ e := by
  constructor
  · rintro ⟨p, hp, rfl⟩
    obtain ⟨p₁, p₂, rfl, h₁, h₂⟩ := List.sublist_append_iff.1 hp
    rcases List.sublist_singleton.1 h₂ with rfl | rfl
    · rw [List.append_nil]
      exact Or.inl ⟨p₁, h₁, rfl⟩
    · rw [run_append]
      exact Or.inr ⟨_, ⟨p₁, h₁, rfl⟩, rfl⟩
  · rintro (⟨p, hp, rfl⟩ | ⟨_, ⟨p, hp, rfl⟩, rfl⟩)
    · exact ⟨p, hp.trans (List.sublist_append_left _ _), rfl⟩
    · exact ⟨p ++ [e], hp.append (List.Sublist.refl _), by rw [run_append]; rfl⟩

end Cached

end WriteBack
