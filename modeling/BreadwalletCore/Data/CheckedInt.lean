import Mathlib.Tactic

/-!
# Signed integers that trap

An operation on integers of `w` bits is computed without bounds, and then has to
fit; where it does not, the program stops with a fault.
-/

universe u v

namespace CheckedInt

/-- A signed integer of `w` bits. -/
def Fits (w : ℕ) (x : ℤ) : Prop :=
  -2 ^ (w - 1) ≤ x ∧ x < 2 ^ (w - 1)

instance (w : ℕ) (x : ℤ) : Decidable (Fits w x) :=
  inferInstanceAs (Decidable (-2 ^ (w - 1) ≤ x ∧ x < 2 ^ (w - 1)))

theorem fits_64_iff
    {x : ℤ} :
    Fits 64 x ↔ -9223372036854775808 ≤ x ∧ x < 9223372036854775808 := by
  rw [Fits]
  norm_num

section Checked

variable {ε : Type u} {α : Type u} {e : ε} {w : ℕ} {x : ℤ}

/-- The result of an operation, or the fault `e`. -/
def checked (e : ε) (w : ℕ) (x : ℤ) : Except ε ℤ :=
  if Fits w x then .ok x else .error e

theorem checked_eq
    (h : Fits w x) :
    checked e w x = .ok x :=
  if_pos h

theorem checked_eq_error
    (h : ¬ Fits w x) :
    checked e w x = .error e :=
  if_neg h

end Checked

end CheckedInt
