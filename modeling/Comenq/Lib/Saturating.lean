import Mathlib.Tactic

/-!
# Saturating machine arithmetic

Addition and subtraction that stop at the bounds of the type, for `UInt64`, for `Int64`, and for
natural numbers that stand for 64-bit unsigned counters. Each operation has one lemma that reads
it back as arithmetic on `Nat` or `Int`, after which `omega` does the rest.
-/

namespace Saturating

/-- The largest 64-bit unsigned value. -/
def maxU64 : Nat := 2 ^ 64 - 1

/-- Saturating addition on natural numbers that stand for 64-bit counters. -/
def addNat (a b : Nat) : Nat := min (a + b) maxU64

/-- Saturating addition on `UInt64`. -/
def add (a b : UInt64) : UInt64 := UInt64.ofNat (addNat a.toNat b.toNat)

/-- Saturating subtraction on `UInt64`. -/
def sub (a b : UInt64) : UInt64 := UInt64.ofNat (a.toNat - b.toNat)

theorem toNat_le_max (a : UInt64) : a.toNat ≤ maxU64 := by
  have := a.toNat_lt
  unfold maxU64
  omega

@[simp] theorem toNat_add (a b : UInt64) :
    (add a b).toNat = min (a.toNat + b.toNat) maxU64 := by
  unfold add addNat
  rw [UInt64.toNat_ofNat']
  apply Nat.mod_eq_of_lt
  have : maxU64 < 2 ^ 64 := by decide
  omega

@[simp] theorem toNat_sub (a b : UInt64) : (sub a b).toNat = a.toNat - b.toNat := by
  unfold sub
  rw [UInt64.toNat_ofNat']
  apply Nat.mod_eq_of_lt
  have := a.toNat_lt
  omega

/-- The larger of two `UInt64` values. -/
def maxU (a b : UInt64) : UInt64 := if a.toNat ≤ b.toNat then b else a

@[simp] theorem toNat_maxU (a b : UInt64) : (maxU a b).toNat = max a.toNat b.toNat := by
  unfold maxU
  split <;> omega

/-- Saturating addition on `Int64`. -/
def addI (a b : Int64) : Int64 :=
  Int64.ofInt (max (-2 ^ 63) (min (a.toInt + b.toInt) (2 ^ 63 - 1)))

/-- Saturating subtraction on `Int64`. -/
def subI (a b : Int64) : Int64 :=
  Int64.ofInt (max (-2 ^ 63) (min (a.toInt - b.toInt) (2 ^ 63 - 1)))

private theorem toInt_ofInt_clamp (i : Int) :
    (Int64.ofInt (max (-2 ^ 63) (min i (2 ^ 63 - 1)))).toInt =
      max (-2 ^ 63) (min i (2 ^ 63 - 1)) := by
  apply Int64.toInt_ofInt_of_le <;> omega

@[simp] theorem toInt_addI (a b : Int64) :
    (addI a b).toInt = max (-2 ^ 63) (min (a.toInt + b.toInt) (2 ^ 63 - 1)) :=
  toInt_ofInt_clamp _

@[simp] theorem toInt_subI (a b : Int64) :
    (subI a b).toInt = max (-2 ^ 63) (min (a.toInt - b.toInt) (2 ^ 63 - 1)) :=
  toInt_ofInt_clamp _

end Saturating
