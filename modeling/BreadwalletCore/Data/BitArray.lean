import Mathlib.Data.UInt
import Mathlib.Tactic

/-!
# Bit arrays in bytes

A byte list as an array of bits: bit `i` is bit `i % 8` of byte `i / 8`.
Setting bits never clears one, so a structure that only sets bits keeps every
positive answer it has given.
-/

namespace BitArray

/-- The bit `i` inside its byte. -/
def mask (i : ℕ) : UInt8 :=
  1 <<< UInt8.ofNat (i % 8)

/-- Is bit `i` set?  Bits behind the end are not. -/
def test (l : List UInt8) (i : ℕ) : Bool :=
  l.getD (i / 8) 0 &&& mask i ≠ 0

/-- Set bit `i`. -/
def set (l : List UInt8) (i : ℕ) : List UInt8 :=
  l.modify (i / 8) (· ||| mask i)

/-- Set several bits. -/
def setAll (l : List UInt8) (is : List ℕ) : List UInt8 :=
  is.foldl set l

@[simp] theorem length_set
    (l : List UInt8) (i : ℕ) :
    (set l i).length = l.length := by
  simp [set]

@[simp] theorem length_setAll
    (l : List UInt8) (is : List ℕ) :
    (setAll l is).length = l.length := by
  induction is generalizing l with
  | nil =>
      rfl
  | cons i is ih =>
      rw [setAll, List.foldl_cons]
      exact (ih (set l i)).trans (length_set l i)

theorem or_and_ne_zero
    {b m k : UInt8} :
    (b ||| m) &&& k ≠ 0 ↔ b &&& k ≠ 0 ∨ m &&& k ≠ 0 := by
  have h : (b ||| m) &&& k = (b &&& k) ||| (m &&& k) := by
    rw [← UInt8.toBitVec_inj]
    ext j hj
    simp [Bool.and_or_distrib_right]
  rw [h, ne_eq, UInt8.or_eq_zero_iff, not_and_or]

/-- The bits after one has been set. -/
theorem test_set
    {l : List UInt8} {i j : ℕ} :
    test (set l i) j = true ↔
      test l j = true ∨ (i / 8 = j / 8 ∧ j / 8 < l.length ∧ mask i &&& mask j ≠ 0) := by
  simp only [test, set, List.getD_eq_getElem?_getD, List.getElem?_modify,
    decide_eq_true_eq]
  by_cases hj : j / 8 < l.length
  · rw [List.getElem?_eq_getElem hj]
    by_cases hij : i / 8 = j / 8
    · simp [hij, hj, or_and_ne_zero]
    · simp [hij]
  · rw [List.getElem?_eq_none (by omega)]
    simp [hj]

theorem test_set_of_test
    {l : List UInt8} {j : ℕ}
    (h : test l j = true) (i : ℕ) :
    test (set l i) j = true :=
  test_set.mpr (Or.inl h)

theorem test_setAll_of_test
    {l : List UInt8} {j : ℕ}
    (h : test l j = true) (is : List ℕ) :
    test (setAll l is) j = true := by
  induction is generalizing l with
  | nil =>
      exact h
  | cons i is ih =>
      exact ih (test_set_of_test h i)

end BitArray
