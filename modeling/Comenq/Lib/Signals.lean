import Mathlib.Tactic

/-!
# Signals between tasks

`Notify` is a wake-up signal with one waiter: a notification wakes the registered waiter, or is kept
as a single permit that the next waiter consumes. A waiter is only registered when there is no
permit to consume, so the signal is in one of three states.

`Watch` is a version that receivers observe: a receiver is ready when the version was modified after
it last marked it seen.
-/

namespace Signals

/-! ## Notifications -/

inductive Notify
  | empty
  | permit
  | waiting
deriving DecidableEq, Repr

namespace Notify

/-- Wake the registered waiter, or keep a permit. -/
def notifyOne : Notify → Notify
  | empty => permit
  | permit => permit
  | waiting => empty

/-- A waiter consumes the permit, or registers. -/
def poll : Notify → Notify
  | empty => waiting
  | permit => empty
  | waiting => waiting

/-- A registered waiter goes away. -/
def cancel : Notify → Notify
  | waiting => empty
  | n => n

@[simp] theorem cancel_ne_waiting (n : Notify) : n.cancel ≠ .waiting := by
  cases n <;> decide

@[simp] theorem notifyOne_ne_waiting (n : Notify) : n.notifyOne ≠ .waiting := by
  cases n <;> decide

theorem poll_eq_waiting_iff {n : Notify} : n.poll = .waiting ↔ n ≠ .permit := by
  cases n <;> decide

/-- A notification that wakes nobody is kept. -/
theorem notifyOne_of_ne {n : Notify} (h : n ≠ .waiting) : n.notifyOne = .permit := by
  cases n with
  | empty => rfl
  | permit => rfl
  | waiting => exact absurd rfl h

end Notify

/-! ## Watched values -/

/-- A shared value and how often it was modified. -/
structure Watch (α : Type) where
  value : α
  sends : Nat

namespace Watch

variable {α : Type}

/-- Modify the value and notify the receivers. -/
def sendModify (w : Watch α) (f : α → α) : Watch α := ⟨f w.value, w.sends + 1⟩

/-- A receiver that last marked version `seen` has a change to take notice of. -/
def Ready (w : Watch α) (seen : Nat) : Prop := seen ≠ w.sends

end Watch

end Signals
