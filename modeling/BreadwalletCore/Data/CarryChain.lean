import Mathlib.Data.Nat.Digits.Lemmas
import Mathlib.Tactic

/-!
# Arithmetic with a carry

A number is worked on digit by digit, the least significant one first, and
what exceeds the base is carried on.  `chain` does this for any digitwise
terms: a sum, or a product with a single digit.  Whatever the terms are, the
digits it leaves are those of the weighted sum of the terms (`ofDigits_chain`).
-/

namespace CarryChain

/-- The digits left at the positions `i`, .., `i + n - 1`. -/
def chain (b : ℕ) (term : ℕ → ℕ) : ℕ → ℕ → ℕ → List ℕ
  | 0, _, _ => []
  | n + 1, i, carry =>
      (term i + carry) % b :: chain b term n (i + 1) ((term i + carry) / b)

/-- The terms at `i`, .., `i + n - 1`, weighted from `1` on. -/
def weighted (b : ℕ) (term : ℕ → ℕ) : ℕ → ℕ → ℕ
  | 0, _ => 0
  | n + 1, i => term i + b * weighted b term n (i + 1)

variable {b : ℕ} {term term' : ℕ → ℕ}

/-- The chain computes the weighted sum, modulo what its digits can hold. -/
theorem ofDigits_chain
    (hb : 0 < b)
    (term : ℕ → ℕ) (n i carry : ℕ) :
    Nat.ofDigits b (chain b term n i carry) = (weighted b term n i + carry) % b ^ n := by
  induction n generalizing i carry with
  | zero =>
      simp [chain, Nat.mod_one]
  | succ n ih =>
      have hsplit : weighted b term (n + 1) i + carry =
          (term i + carry) % b +
            b * (weighted b term n (i + 1) + (term i + carry) / b) := by
        rw [weighted, Nat.mul_add]
        have h := Nat.mod_add_div (term i + carry) b
        omega
      rw [chain, Nat.ofDigits_cons, ih, hsplit, pow_succ', Nat.mod_mul,
        Nat.add_mul_mod_self_left, Nat.mod_mod, Nat.add_mul_div_left _ _ hb,
        Nat.div_eq_of_lt (Nat.mod_lt _ hb), Nat.zero_add]

theorem weighted_add
    (b : ℕ) (term term' : ℕ → ℕ) (n i : ℕ) :
    weighted b (fun k => term k + term' k) n i = weighted b term n i + weighted b term' n i := by
  induction n generalizing i with
  | zero =>
      rfl
  | succ n ih =>
      rw [weighted, weighted, weighted, ih]
      ring

/-- The digits of a number, weighted, are the number. -/
theorem weighted_digits
    (b x n i : ℕ) :
    weighted b (fun k => x / b ^ k % b) n i = x / b ^ i % b ^ n := by
  induction n generalizing i with
  | zero =>
      simp [weighted, Nat.mod_one]
  | succ n ih =>
      rw [weighted, ih, pow_succ' b n, Nat.mod_mul, pow_succ b i, Nat.div_div_eq_div_mul]

end CarryChain
