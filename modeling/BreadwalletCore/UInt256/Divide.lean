import BreadwalletCore.UInt256.Words
import BreadwalletCore.Data.Machine

/-!
# Division of 256 bit numbers

`divide` aligns the divisor with the dividend and subtracts it wherever it
fits, one bit of the quotient after the other.  The bit lengths that it starts
from are kept in an `uint8_t`, where the length `256` is zero: a divisor with
its top bit set fails the assertion, and a dividend with its top bit set counts
as shorter than any divisor.
-/

namespace BreadwalletCore

namespace UInt256

section Loop

variable {a b num div r : UInt256} {n : ℕ}

/-- The state of the loop of `divide` before the bit `n - 1` of the quotient:
the divisor is shifted to that bit, what is left of the dividend is below the
next multiple of it, and no lower bit of the quotient is set. -/
structure Aligned (b : UInt256) (n : ℕ) (num div r : UInt256) : Prop where
  div_eq : div.toNat = b.toNat * 2 ^ n / 2
  num_lt : num.toNat < b.toNat * 2 ^ n
  dvd : 2 ^ n ∣ r.toNat

/-- One more bit of the quotient. -/
theorem Aligned.step
    (hb : 0 < b.toNat)
    (hn : n < 256)
    (h : Aligned b (n + 1) num div r) :
    (div.toNat ≤ num.toNat →
      Aligned b n (subtract num div) (shiftRight div 1) (setBit r n) ∧
        (subtract num div).toNat / b.toNat + 2 ^ n = num.toNat / b.toNat ∧
        (setBit r n).toNat = r.toNat + 2 ^ n) ∧
      (num.toNat < div.toNat → Aligned b n num (shiftRight div 1) r) := by
  have hdiv : div.toNat = b.toNat * 2 ^ n := by
    rw [h.div_eq, pow_succ, ← Nat.mul_assoc, Nat.mul_div_cancel _ (by omega)]
  have hshift : (shiftRight div 1).toNat = b.toNat * 2 ^ n / 2 := by
    rw [shiftRight_eq, BitVec.toNat_ushiftRight, hdiv, Nat.shiftRight_eq_div_pow]
    rfl
  have hnum := h.num_lt
  rw [pow_succ, ← Nat.mul_assoc] at hnum
  have hdvd : 2 ^ n ∣ r.toNat := (Nat.pow_dvd_pow 2 (by omega)).trans h.dvd
  refine ⟨fun hle => ?_, fun hlt => ⟨hshift, hdiv ▸ hlt, hdvd⟩⟩
  have hsub : (subtract num div).toNat = num.toNat - b.toNat * 2 ^ n := by
    rw [subtract_eq, BitVec.toNat_sub_of_le (BitVec.le_def.mpr hle), hdiv]
  have hset := toNat_setBit hn h.dvd
  refine ⟨⟨hshift, by omega, ?_⟩, ?_, hset⟩
  · rw [hset]
    exact Nat.dvd_add hdvd dvd_rfl
  · rw [hsub, Nat.sub_mul_div]
    have hq : 2 ^ n ≤ num.toNat / b.toNat := by
      rw [Nat.le_div_iff_mul_le hb, Nat.mul_comm]
      omega
    omega

/-- The loop adds the quotient of what is left of the dividend. -/
theorem toNat_divideLoop
    (hb : 0 < b.toNat)
    (hn : n ≤ 256)
    (h : Aligned b n num div r) :
    (divideLoop n num div r).toNat = r.toNat + num.toNat / b.toNat := by
  induction n generalizing num div r with
  | zero =>
      have hlt := h.num_lt
      rw [pow_zero, Nat.mul_one] at hlt
      rw [divideLoop, Nat.div_eq_of_lt hlt, Nat.add_zero]
  | succ n ih =>
      obtain ⟨hfits, hskip⟩ := h.step hb (by omega)
      rw [divideLoop]
      by_cases hsup : supEq num div = true
      · obtain ⟨hnext, hquot, hset⟩ := hfits ((supEq_iff num div).mp hsup)
        rw [if_pos hsup, ih (by omega) hnext, hset]
        omega
      · have hlt : num.toNat < div.toNat := by
          rw [supEq_iff] at hsup
          omega
        rw [if_neg hsup, ih (by omega) (hskip hlt)]

end Loop

section Divide

variable {a b : UInt256}

theorem toNat_ne_zero
    (hb : b ≠ 0) :
    b.toNat ≠ 0 :=
  fun h => hb (BitVec.eq_of_toNat_eq h)

theorem divide_of_divisor_ge
    (hb : 2 ^ 255 ≤ b.toNat) :
    divide a b = .error .assertion := by
  rw [divide, if_pos (bits_of_ge hb)]
  rfl

theorem bits_ne_zero
    (hb : b ≠ 0)
    (hlt : b.toNat < 2 ^ 255) :
    bits b ≠ 0 := by
  intro h
  have hsize := toNat_bits hlt
  rw [h, UInt8.toNat_zero, eq_comm, Nat.size_eq_zero] at hsize
  exact toNat_ne_zero hb hsize

theorem divide_of_dividend_ge
    (hb : b ≠ 0)
    (hlt : b.toNat < 2 ^ 255)
    (ha : 2 ^ 255 ≤ a.toNat) :
    divide a b = .ok 0 := by
  have hne := bits_ne_zero hb hlt
  have hgt : bits b > bits a := by
    rw [bits_of_ge ha]
    exact UInt8.pos_iff_ne_zero.mpr hne
  rw [divide, if_neg hne, if_pos hgt]
  rfl

/-- Below `2 ^ 255` the quotient is exact. -/
theorem divide_of_lt
    (hb : b ≠ 0)
    (hlt : b.toNat < 2 ^ 255)
    (ha : a.toNat < 2 ^ 255) :
    ∃ q, divide a b = .ok q ∧ q.toNat = a.toNat / b.toNat := by
  have hpos : 0 < b.toNat := Nat.pos_of_ne_zero (toNat_ne_zero hb)
  have hasize := toNat_bits ha
  have hbsize := toNat_bits hlt
  rw [divide, if_neg (bits_ne_zero hb hlt)]
  by_cases hgt : bits b > bits a
  · rw [if_pos hgt]
    refine ⟨0, rfl, ?_⟩
    have hsize : a.toNat.size < b.toNat.size := by
      rw [← hasize, ← hbsize]
      exact UInt8.lt_iff_toNat_lt.mp hgt
    have hle := Nat.lt_size.mp hsize
    rw [Nat.div_eq_of_lt ((Nat.lt_size_self _).trans_le hle)]
    rfl
  · rw [if_neg hgt]
    refine ⟨_, rfl, ?_⟩
    have hge : bits b ≤ bits a := UInt8.not_lt.mp hgt
    have hshift : (bits a - bits b).toNat = a.toNat.size - b.toNat.size := by
      rw [UInt8.toNat_sub_of_le _ _ hge, hasize, hbsize]
    have hle : b.toNat.size ≤ a.toNat.size := by
      rw [← hasize, ← hbsize]
      exact UInt8.le_iff_toNat_le.mp hge
    have hsize : a.toNat.size ≤ 255 := Nat.size_le.mpr ha
    -- the shifted divisor has as many bits as the dividend
    have hroom : b.toNat * 2 ^ (a.toNat.size - b.toNat.size) < 2 ^ 256 := by
      calc b.toNat * 2 ^ (a.toNat.size - b.toNat.size)
          < 2 ^ b.toNat.size * 2 ^ (a.toNat.size - b.toNat.size) :=
            Nat.mul_lt_mul_of_pos_right (Nat.lt_size_self _) (Nat.two_pow_pos _)
        _ = 2 ^ a.toNat.size := by
            rw [← pow_add, Nat.add_sub_cancel' hle]
        _ ≤ 2 ^ 256 := Nat.pow_le_pow_right (by omega) (by omega)
    have hstart : Aligned b ((bits a - bits b).toNat + 1) a (shiftLeft b (bits a - bits b)) 0 := by
      rw [hshift]
      refine ⟨?_, ?_, dvd_zero _⟩
      · rw [shiftLeft_eq, BitVec.toNat_shiftLeft, hshift, Nat.shiftLeft_eq, Nat.mod_eq_of_lt hroom,
          pow_succ, ← Nat.mul_assoc, Nat.mul_div_cancel _ (by omega)]
      · have hbsize' : 2 ^ (b.toNat.size - 1) ≤ b.toNat :=
          Nat.lt_size.mp (Nat.sub_one_lt (Nat.size_pos.mpr hpos).ne')
        have hbpos : 0 < b.toNat.size := Nat.size_pos.mpr hpos
        calc a.toNat < 2 ^ a.toNat.size := Nat.lt_size_self _
          _ = 2 ^ (b.toNat.size - 1) * 2 ^ (a.toNat.size - b.toNat.size + 1) := by
            rw [← pow_add]
            congr 1
            omega
          _ ≤ b.toNat * 2 ^ (a.toNat.size - b.toNat.size + 1) :=
            Nat.mul_le_mul_right _ hbsize'
    rw [toNat_divideLoop hpos (by omega) hstart]
    exact Nat.zero_add _

/-- The other operations are exact: `add`, `subtract` and `shiftLeft` modulo
`2 ^ 256`, `shiftRight` rounded down, for every shift of an `uint8_t`. -/
structure OperationsExact (a b : UInt256) : Prop where
  add : (add a b).toNat = (a.toNat + b.toNat) % 2 ^ 256
  subtract : (subtract a b).toNat = (2 ^ 256 - b.toNat + a.toNat) % 2 ^ 256
  shiftLeft : ∀ bits : UInt8, (shiftLeft a bits).toNat = a.toNat * 2 ^ bits.toNat % 2 ^ 256
  shiftRight : ∀ bits : UInt8, (shiftRight a bits).toNat = a.toNat / 2 ^ bits.toNat

/-- `divide` returns the quotient, rounded down. -/
def DividesExactly (a b : UInt256) : Prop :=
  ∃ q, divide a b = .ok q ∧ q.toNat = a.toNat / b.toNat

theorem operationsExact
    (a b : UInt256) :
    OperationsExact a b where
  add := by
    rw [add_eq, BitVec.toNat_add]
  subtract := by
    rw [subtract_eq, BitVec.toNat_sub]
  shiftLeft := fun bits => by
    rw [shiftLeft_eq, BitVec.toNat_shiftLeft, Nat.shiftLeft_eq]
  shiftRight := fun bits => by
    rw [shiftRight_eq, BitVec.toNat_ushiftRight, Nat.shiftRight_eq_div_pow]

/--
**When division is exact.**  The operations under `divide` are exact on all
numbers; `divide` is exact for a divisor other than zero if and only if neither
number has its top bit set.
-/
theorem divide_exact_iff
    (a b : UInt256)
    (hb : b ≠ 0) :
    (OperationsExact a b ∧ DividesExactly a b) ↔ a.toNat < 2 ^ 255 ∧ b.toNat < 2 ^ 255 := by
  constructor
  · rintro ⟨-, q, hq, hval⟩
    have hlt : b.toNat < 2 ^ 255 := by
      by_contra hge
      rw [divide_of_divisor_ge (not_lt.mp hge)] at hq
      cases hq
    refine ⟨?_, hlt⟩
    by_contra hge
    rw [divide_of_dividend_ge hb hlt (not_lt.mp hge)] at hq
    cases hq
    have hpos : 0 < a.toNat / b.toNat :=
      Nat.div_pos (by omega) (Nat.pos_of_ne_zero (toNat_ne_zero hb))
    exact absurd hval hpos.ne
  · rintro ⟨ha, hlt⟩
    exact ⟨operationsExact a b, divide_of_lt hb hlt ha⟩

theorem divide_exact_ten :
    (OperationsExact 1000000007 10 ∧ DividesExactly 1000000007 10) ↔
      (1000000007 : UInt256).toNat < 2 ^ 255 ∧ (10 : UInt256).toNat < 2 ^ 255 :=
  divide_exact_iff 1000000007 10 (by decide)

/-- The quotient of `2 ^ 255` by one is found to be zero. -/
theorem divide_top_bit_by_one :
    ¬ DividesExactly (1 <<< 255) 1 := by
  rintro ⟨q, hq, hval⟩
  rw [divide_of_dividend_ge (by decide) (by decide) (by decide)] at hq
  cases hq
  exact absurd hval (by decide)

end Divide

end UInt256

end BreadwalletCore
