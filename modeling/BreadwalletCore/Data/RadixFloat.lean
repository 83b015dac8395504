import Mathlib.Data.Nat.Digits.Lemmas
import Mathlib.Tactic

/-!
# Floating point numbers without a sign

A number is stored as a `p` digit mantissa to some radix and the number of
digits it has.  The mantissa stays below a limit that is a multiple of the
radix, so a mantissa that starts above the limit loses its last digit and the
number of digits grows by one.

`encode` truncates: it keeps a bounded number of leading digits
(`value_encode`).  It is monotone (`encode_mono`) and inverts `value` on the
canonical representations (`encode_value`).
-/

/-- The parameters of a representation. -/
structure RadixFloat where
  radix : ℕ
  p : ℕ
  limit : ℕ
  one_lt_radix : 1 < radix
  p_pos : 0 < p
  dvd_limit : radix ∣ limit
  limit_le : limit ≤ radix ^ p
  le_limit : radix ^ (p - 1) ≤ limit

namespace RadixFloat

/-- The number of digits and the mantissa. -/
structure Repr where
  size : ℕ
  mantissa : ℕ
deriving DecidableEq

variable (f : RadixFloat)

/-- The number that is represented, rounded down. -/
def value (c : Repr) : ℕ :=
  c.mantissa * f.radix ^ c.size / f.radix ^ f.p

/-- The first `p` digits of a number of `size` digits. -/
def leading (n size : ℕ) : ℕ :=
  n * f.radix ^ f.p / f.radix ^ size

/-- The size under which a number is stored. -/
def size (n : ℕ) : ℕ :=
  if f.limit ≤ f.leading n (f.radix.digits n).length then (f.radix.digits n).length + 1
  else (f.radix.digits n).length

/-- The representation of a number. -/
def encode (n : ℕ) : Repr :=
  ⟨f.size n, f.leading n (f.size n)⟩

/-- Zero, or a mantissa that uses all its room and represents an integer. -/
def Canonical (c : Repr) : Prop :=
  c = ⟨0, 0⟩ ∨
    c.mantissa < f.limit ∧ f.limit ≤ f.radix * c.mantissa ∧
      f.radix ^ f.p ∣ c.mantissa * f.radix ^ c.size

variable {f}

theorem radix_pos : 0 < f.radix :=
  Nat.zero_lt_of_lt f.one_lt_radix

theorem pow_pos
    (k : ℕ) :
    0 < f.radix ^ k :=
  Nat.pow_pos radix_pos

theorem limit_pos : 0 < f.limit :=
  lt_of_lt_of_le (pow_pos _) f.le_limit

theorem pow_pred_mul :
    f.radix ^ (f.p - 1) * f.radix = f.radix ^ f.p := by
  rw [← pow_succ, Nat.sub_add_cancel f.p_pos]

theorem leading_succ
    (n k : ℕ) :
    f.leading n (k + 1) = f.leading n k / f.radix := by
  rw [leading, leading, pow_succ, Nat.div_div_eq_div_mul]

theorem encode_of_lt
    {n : ℕ}
    (h : f.leading n (f.radix.digits n).length < f.limit) :
    f.encode n = ⟨(f.radix.digits n).length, f.leading n (f.radix.digits n).length⟩ := by
  rw [encode, size, if_neg (not_le.mpr h)]

theorem encode_of_ge
    {n : ℕ}
    (h : f.limit ≤ f.leading n (f.radix.digits n).length) :
    f.encode n =
      ⟨(f.radix.digits n).length + 1, f.leading n (f.radix.digits n).length / f.radix⟩ := by
  rw [encode, size, if_pos h, leading_succ]

/-- The leading digits are `p` digits. -/
theorem leading_digits_lt
    (n : ℕ) :
    f.leading n (f.radix.digits n).length < f.radix ^ f.p := by
  have hlt : n < f.radix ^ (f.radix.digits n).length :=
    Nat.lt_base_pow_length_digits f.one_lt_radix
  rw [leading, Nat.div_lt_iff_lt_mul (pow_pos _), Nat.mul_comm n]
  exact Nat.mul_lt_mul_of_pos_left hlt (pow_pos _)

/-- The first of the leading digits is not zero. -/
theorem le_leading_digits
    {n : ℕ}
    (hn : n ≠ 0) :
    f.radix ^ (f.p - 1) ≤ f.leading n (f.radix.digits n).length := by
  have hpos : 0 < (f.radix.digits n).length := by
    rw [List.length_pos_iff]
    exact Nat.digits_ne_nil_iff_ne_zero.mpr hn
  have hle : f.radix ^ ((f.radix.digits n).length - 1) ≤ n := by
    rw [← Nat.lt_digits_length_iff f.one_lt_radix]
    omega
  rw [leading, Nat.le_div_iff_mul_le (pow_pos _)]
  calc f.radix ^ (f.p - 1) * f.radix ^ (f.radix.digits n).length
      = f.radix ^ ((f.radix.digits n).length - 1) * f.radix ^ f.p := by
        rw [← pow_add, ← pow_add]
        congr 1
        have hp := f.p_pos
        omega
    _ ≤ n * f.radix ^ f.p := Nat.mul_le_mul_right _ hle

theorem size_zero :
    f.size 0 = 0 := by
  have h : ¬ f.limit ≤ f.leading 0 0 := by
    rw [leading, Nat.zero_mul, Nat.zero_div]
    have hpos := limit_pos (f := f)
    omega
  simp [size, h]

theorem encode_zero :
    f.encode 0 = ⟨0, 0⟩ := by
  rw [encode, size_zero, leading, Nat.zero_mul, Nat.zero_div]

theorem mantissa_lt
    (n : ℕ) :
    (f.encode n).mantissa < f.limit := by
  rw [encode, size]
  split
  · rw [leading_succ, Nat.div_lt_iff_lt_mul radix_pos]
    calc f.leading n (f.radix.digits n).length < f.radix ^ f.p := leading_digits_lt n
      _ = f.radix ^ (f.p - 1) * f.radix := pow_pred_mul.symm
      _ ≤ f.limit * f.radix := Nat.mul_le_mul_right _ f.le_limit
  · rename_i hlt
    exact not_le.mp hlt

theorem limit_le_mantissa
    {n : ℕ}
    (hn : n ≠ 0) :
    f.limit ≤ f.radix * (f.encode n).mantissa := by
  rw [encode, size]
  split
  · rename_i hle
    obtain ⟨q, hq⟩ := f.dvd_limit
    rw [leading_succ, hq]
    rw [hq] at hle
    refine Nat.mul_le_mul_left _ ?_
    rwa [Nat.le_div_iff_mul_le radix_pos, Nat.mul_comm]
  · calc f.limit ≤ f.radix ^ f.p := f.limit_le
      _ = f.radix * f.radix ^ (f.p - 1) := by
        rw [Nat.mul_comm, pow_pred_mul]
      _ ≤ f.radix * f.leading n (f.radix.digits n).length :=
        Nat.mul_le_mul_left _ (le_leading_digits hn)

/-- Encoding clears the digits behind the mantissa. -/
theorem value_encode
    (n : ℕ) :
    f.value (f.encode n) =
      n / f.radix ^ (f.size n - f.p) * f.radix ^ (f.size n - f.p) := by
  rw [value, encode, leading]
  rcases Nat.le_total f.p (f.size n) with h | h
  · have hpow : f.radix ^ f.size n = f.radix ^ (f.size n - f.p) * f.radix ^ f.p := by
      rw [← pow_add, Nat.sub_add_cancel h]
    rw [hpow, Nat.mul_div_mul_right _ _ (pow_pos _), ← Nat.mul_assoc,
      Nat.mul_div_cancel _ (pow_pos _)]
  · have hpow : f.radix ^ f.p = f.radix ^ (f.p - f.size n) * f.radix ^ f.size n := by
      rw [← pow_add, Nat.sub_add_cancel h]
    have hmul : n * f.radix ^ f.p = n * f.radix ^ (f.p - f.size n) * f.radix ^ f.size n := by
      rw [hpow, Nat.mul_assoc]
    rw [hmul, Nat.mul_div_cancel _ (pow_pos _), ← hmul, Nat.mul_div_cancel _ (pow_pos _),
      Nat.sub_eq_zero_of_le h, pow_zero, Nat.div_one, Nat.mul_one]

theorem lt_limit_of_size_le
    {n : ℕ}
    (h : f.size n ≤ f.p) :
    n < f.limit := by
  refine lt_of_le_of_lt ?_ (mantissa_lt n)
  rw [encode, leading, Nat.le_div_iff_mul_le (pow_pos _)]
  exact Nat.mul_le_mul_left _ (Nat.pow_le_pow_right radix_pos h)

/-- Representations are compared by size first. -/
def Repr.le (c d : Repr) : Prop :=
  c.size < d.size ∨ c.size = d.size ∧ c.mantissa ≤ d.mantissa

theorem encode_mono
    {m n : ℕ}
    (h : m ≤ n) :
    (f.encode m).le (f.encode n) := by
  have hlen : (f.radix.digits m).length ≤ (f.radix.digits n).length := by
    rw [Nat.digits_length_le_iff f.one_lt_radix]
    exact lt_of_le_of_lt h (Nat.lt_base_pow_length_digits f.one_lt_radix)
  have hlead : ∀ k, f.leading m k ≤ f.leading n k := fun k =>
    Nat.div_le_div_right (Nat.mul_le_mul_right _ h)
  rcases Nat.lt_trichotomy (f.size m) (f.size n) with hlt | heq | hgt
  · exact Or.inl hlt
  · refine Or.inr ⟨heq, ?_⟩
    change f.leading m (f.size m) ≤ f.leading n (f.size n)
    rw [heq]
    exact hlead _
  · -- a larger size needs the same digits and a mantissa above the limit
    exfalso
    have hm : f.size m ≤ (f.radix.digits m).length + 1 := by
      rw [size]
      split <;> omega
    have hn : (f.radix.digits n).length ≤ f.size n := by
      rw [size]
      split <;> omega
    have heq : (f.radix.digits m).length = (f.radix.digits n).length := by
      omega
    have hle := hlead (f.radix.digits n).length
    rw [size, size, heq] at hgt
    by_cases hc : f.limit ≤ f.leading m (f.radix.digits n).length
    · rw [if_pos hc, if_pos (hc.trans hle)] at hgt
      omega
    · rw [if_neg hc] at hgt
      split at hgt <;> omega

/-- A canonical representation is the one that `encode` picks. -/
theorem encode_value
    {c : Repr}
    (hc : f.Canonical c) :
    f.encode (f.value c) = c := by
  rcases hc with rfl | ⟨hlt, hle, hdvd⟩
  · rw [value, Nat.zero_mul, Nat.zero_div, encode_zero]
  have hval : f.value c * f.radix ^ f.p = c.mantissa * f.radix ^ c.size :=
    Nat.div_mul_cancel hdvd
  have hmpos : 0 < c.mantissa := by
    have hpos := limit_pos (f := f)
    refine Nat.pos_of_ne_zero (fun h => ?_)
    rw [h, Nat.mul_zero] at hle
    omega
  have hspos : 0 < c.size := by
    refine Nat.pos_of_ne_zero (fun h => ?_)
    rw [h, pow_zero, Nat.mul_one] at hdvd
    have := Nat.le_of_dvd hmpos hdvd
    have := f.limit_le
    omega
  have hlead : f.leading (f.value c) c.size = c.mantissa := by
    rw [leading, hval, Nat.mul_div_cancel _ (pow_pos _)]
  suffices hsize : f.size (f.value c) = c.size by
    rw [encode, hsize, hlead]
  -- the number of digits is `k` if the mantissa starts at the place for it
  have hdigits : ∀ k, f.radix ^ (f.p + k) ≤ c.mantissa * f.radix ^ c.size * f.radix →
      c.mantissa * f.radix ^ c.size < f.radix ^ (f.p + k) → 0 < k →
      (f.radix.digits (f.value c)).length = k := by
    intro k hlow hhigh hk
    refine le_antisymm ?_ (Nat.le_of_pred_lt ?_)
    · rw [Nat.digits_length_le_iff f.one_lt_radix]
      rw [← hval, pow_add, Nat.mul_comm] at hhigh
      exact Nat.lt_of_mul_lt_mul_left hhigh
    · rw [Nat.lt_digits_length_iff f.one_lt_radix]
      have hpow : f.radix ^ (f.p + k) = f.radix ^ f.p * (f.radix ^ (k - 1) * f.radix) := by
        rw [← pow_succ, ← pow_add]
        congr 1
        omega
      rw [← hval, hpow, Nat.mul_comm (f.value c), Nat.mul_assoc] at hlow
      exact Nat.le_of_mul_le_mul_right (Nat.le_of_mul_le_mul_left hlow (pow_pos _)) radix_pos
  rcases Nat.lt_or_ge c.mantissa (f.radix ^ (f.p - 1)) with hsmall | hbig
  · -- the mantissa has lost a digit
    obtain ⟨k, hk⟩ : ∃ k, c.size = k + 1 := ⟨c.size - 1, by omega⟩
    have hhigh : c.mantissa * f.radix ^ c.size < f.radix ^ (f.p + k) := by
      rw [hk, pow_succ', ← Nat.mul_assoc, pow_add]
      refine Nat.mul_lt_mul_of_pos_right ?_ (pow_pos _)
      rw [← pow_pred_mul]
      exact Nat.mul_lt_mul_of_pos_right hsmall radix_pos
    have hkpos : 0 < k := by
      refine Nat.pos_of_ne_zero (fun h => ?_)
      rw [h, Nat.add_zero] at hhigh
      exact absurd (Nat.le_of_dvd (Nat.mul_pos hmpos (pow_pos _)) hdvd) (by omega)
    have hlen := hdigits k (by
      calc f.radix ^ (f.p + k) = f.radix ^ (f.p - 1) * f.radix * f.radix ^ k := by
            rw [pow_pred_mul, pow_add]
        _ ≤ f.radix * c.mantissa * f.radix * f.radix ^ k :=
            Nat.mul_le_mul_right _ (Nat.mul_le_mul_right _ (f.le_limit.trans hle))
        _ = c.mantissa * f.radix ^ c.size * f.radix := by
            rw [hk, pow_succ]
            ring) hhigh hkpos
    have hlead' : f.leading (f.value c) k = f.radix * c.mantissa := by
      rw [leading, hval, hk, pow_succ', ← Nat.mul_assoc, Nat.mul_div_cancel _ (pow_pos _),
        Nat.mul_comm]
    rw [size, hlen, hlead', if_pos hle, hk]
  · have hlen := hdigits c.size (by
        rw [pow_add, Nat.mul_right_comm]
        refine Nat.mul_le_mul_right _ ?_
        rw [← pow_pred_mul]
        exact Nat.mul_le_mul_right _ hbig) (by
        rw [pow_add]
        exact Nat.mul_lt_mul_of_pos_right (hlt.trans_le f.limit_le) (pow_pos _)) hspos
    rw [size, hlen, if_neg (by omega)]

end RadixFloat
