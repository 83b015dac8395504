import Mathlib.Analysis.SpecialFunctions.Pow.Real
import Mathlib.NumberTheory.PrimeCounting

/-!
# Constants from the roots of primes

`rootBits k p w` is the `k`-th root of `p` with `w` bits behind the point.  A value is found
from an inequality between natural numbers (`rootBits_eq`), and the first primes from a
search up to a bound (`nth_prime_eq`).
-/

namespace RootConstants

/-- The `k`-th root of `p`, cut off behind `w` binary digits. -/
noncomputable def rootBits (k p w : ℕ) : ℕ :=
  ⌊(p : ℝ) ^ ((k : ℝ)⁻¹) * 2 ^ w⌋₊

theorem rootBits_eq
    {k p w n : ℕ}
    (hk : k ≠ 0)
    (hle : n ^ k ≤ p * (2 ^ w) ^ k)
    (hlt : p * (2 ^ w) ^ k < (n + 1) ^ k) :
    rootBits k p w = n := by
  have hroot : (0 : ℝ) ≤ (p : ℝ) ^ ((k : ℝ)⁻¹) := Real.rpow_nonneg p.cast_nonneg _
  have hnonneg : (0 : ℝ) ≤ (p : ℝ) ^ ((k : ℝ)⁻¹) * 2 ^ w := mul_nonneg hroot (by positivity)
  have hpow : ((p : ℝ) ^ ((k : ℝ)⁻¹) * 2 ^ w) ^ k = (p : ℝ) * (2 ^ w) ^ k := by
    rw [mul_pow, Real.rpow_inv_natCast_pow p.cast_nonneg hk]
  rw [rootBits, Nat.floor_eq_iff hnonneg]
  constructor
  · refine le_of_pow_le_pow_left₀ hk hnonneg ?_
    rw [hpow]
    exact_mod_cast hle
  · refine lt_of_pow_lt_pow_left₀ k (by positivity) ?_
    rw [hpow]
    exact_mod_cast hlt

/-- Whether `c` is what `w` bits behind the point of a root say, its integer part below 32. -/
def IsFraction (k p w c : ℕ) : Prop :=
  c < 2 ^ w ∧ ∃ m < 32, (m * 2 ^ w + c) ^ k ≤ p * (2 ^ w) ^ k ∧
    p * (2 ^ w) ^ k < (m * 2 ^ w + c + 1) ^ k

instance (k p w c : ℕ) : Decidable (IsFraction k p w c) :=
  inferInstanceAs (Decidable (_ ∧ _))

theorem rootBits_mod
    {k p w c : ℕ}
    (hk : k ≠ 0)
    (h : IsFraction k p w c) :
    rootBits k p w % 2 ^ w = c := by
  obtain ⟨hc, m, -, hle, hlt⟩ := h
  rw [rootBits_eq hk hle hlt, Nat.mul_comm, Nat.mul_add_mod, Nat.mod_eq_of_lt hc]

/-! ## Primes -/

/-- The members of a predicate below a bound, counted. -/
theorem nth_eq_getElem
    {p : ℕ → Prop} [DecidablePred p] {n t : ℕ} {l : List ℕ}
    (hl : (List.range n).filter (fun m => decide (p m)) = l)
    (ht : t < l.length) :
    Nat.nth p t = l[t] := by
  subst hl
  induction n with
  | zero =>
      exact absurd ht (Nat.not_lt_zero t)
  | succ n ih =>
      have hsucc : (List.range (n + 1)).filter (fun m => decide (p m)) =
          (List.range n).filter (fun m => decide (p m)) ++
            [n].filter (fun m => decide (p m)) := by
        rw [List.range_succ, List.filter_append]
      have hcount : ((List.range n).filter (fun m => decide (p m))).length = Nat.count p n := by
        rw [Nat.count_eq_card_filter_range]
        rfl
      by_cases hold : t < ((List.range n).filter (fun m => decide (p m))).length
      · rw [ih hold]
        simp only [hsucc]
        rw [List.getElem_append_left hold]
      · by_cases hn : p n
        · have hlast : [n].filter (fun m => decide (p m)) = [n] := by simp [hn]
          rw [hsucc, hlast, List.length_append, List.length_singleton] at ht
          have heq : t = Nat.count p n := by omega
          simp only [hsucc, hlast]
          rw [List.getElem_append_right (Nat.not_lt.mp hold), List.getElem_singleton, heq,
            Nat.nth_count hn]
        · have hnone : [n].filter (fun m => decide (p m)) = [] := by simp [hn]
          rw [hsucc, hnone, List.append_nil] at ht
          exact absurd ht hold

/-- A number below 441 is prime if no number below 21 divides it. -/
theorem prime_iff
    {n : ℕ}
    (hn : n < 441) :
    n.Prime ↔ 2 ≤ n ∧ ∀ m < 21, 2 ≤ m → m < n → n % m ≠ 0 := by
  constructor
  · intro hp
    refine ⟨hp.two_le, fun m _ h2m hmn hmod => ?_⟩
    rcases (Nat.dvd_prime hp).mp (Nat.dvd_of_mod_eq_zero hmod) with hone | hself
    · omega
    · omega
  · rintro ⟨h2, hall⟩
    rw [Nat.prime_def_le_sqrt]
    refine ⟨h2, fun m h2m hm hdvd => ?_⟩
    have h21 : m < 21 := by
      have hsqrt : n.sqrt < 21 := Nat.sqrt_lt'.mpr hn
      omega
    have hmn : m < n := lt_of_le_of_lt hm (Nat.sqrt_lt_self (by omega))
    exact hall m h21 h2m hmn (Nat.mod_eq_zero_of_dvd hdvd)

/-- The primes below 410. -/
def primes : List ℕ :=
  [2, 3, 5, 7, 11, 13, 17, 19, 23, 29, 31, 37, 41, 43, 47, 53, 59, 61, 67, 71, 73, 79, 83, 89, 97,
    101, 103, 107, 109, 113, 127, 131, 137, 139, 149, 151, 157, 163, 167, 173, 179, 181, 191, 193,
    197, 199, 211, 223, 227, 229, 233, 239, 241, 251, 257, 263, 269, 271, 277, 281, 283, 293, 307,
    311, 313, 317, 331, 337, 347, 349, 353, 359, 367, 373, 379, 383, 389, 397, 401, 409]

theorem filter_prime :
    (List.range 410).filter (fun m => decide m.Prime) = primes := by
  have hcongr : (List.range 410).filter (fun m => decide m.Prime) = (List.range 410).filter
      (fun n => decide (2 ≤ n ∧ ∀ m < 21, 2 ≤ m → m < n → n % m ≠ 0)) := by
    refine List.filter_congr fun n hn => decide_eq_decide.mpr (prime_iff ?_)
    exact (List.mem_range.mp hn).trans (by norm_num)
  rw [hcongr]
  decide +kernel

/-- The prime with an index. -/
theorem nth_prime
    {t : ℕ}
    (ht : t < primes.length) :
    Nat.nth Nat.Prime t = primes[t] :=
  nth_eq_getElem filter_prime ht

end RootConstants
