import BreadwalletCore.Data.Digits
import Mathlib.Tactic

/-!
# Linear checksums

A checksum word takes a digit with a step that is linear in exclusive or, and
the digits are as wide as the step shifts.  The last digits then bring it to
any value wanted, and only one sequence of them does (`run_eq_iff`).
-/

namespace LinearChecksum

/-- The word after some digits. -/
def run (f : UInt32 → UInt32) (chk : UInt32) (l : List ℕ) : UInt32 :=
  l.foldl (fun chk c => f chk ^^^ UInt32.ofNat c) chk

variable {f : UInt32 → UInt32} {w k : ℕ}

@[simp] theorem run_nil
    (f : UInt32 → UInt32) (chk : UInt32) :
    run f chk [] = chk := by
  rfl

@[simp] theorem run_cons
    (f : UInt32 → UInt32) (chk : UInt32) (c : ℕ) (l : List ℕ) :
    run f chk (c :: l) = run f (f chk ^^^ UInt32.ofNat c) l := by
  rfl

theorem run_append
    (f : UInt32 → UInt32) (chk : UInt32) (l₁ l₂ : List ℕ) :
    run f chk (l₁ ++ l₂) = run f (run f chk l₁) l₂ := by
  rw [run, run, run, List.foldl_append]

/-- A step that is linear over exclusive or, shifts a word with room for it by
the width of a digit and never leaves `k` digits. -/
structure Linear (f : UInt32 → UInt32) (w k : ℕ) : Prop where
  xor : ∀ a b, f (a ^^^ b) = f a ^^^ f b
  shift : ∀ a : UInt32, a.toNat * 2 ^ w < 2 ^ (w * k) → (f a).toNat = a.toNat * 2 ^ w
  lt : ∀ a, (f a).toNat < 2 ^ (w * k)
  fits : w * k ≤ 32
  pos : 0 < w

theorem mul_two_pow_xor
    {d : ℕ}
    (hd : d < 2 ^ w) (a : ℕ) :
    a * 2 ^ w ^^^ d = a * 2 ^ w + d := by
  have hpos : 0 < 2 ^ w := Nat.two_pow_pos w
  have hdiv : (a * 2 ^ w ^^^ d) / 2 ^ w = a := by
    rw [Nat.xor_div_two_pow, Nat.mul_div_cancel _ hpos, Nat.div_eq_of_lt hd, Nat.xor_zero]
  have hmod : (a * 2 ^ w ^^^ d) % 2 ^ w = d := by
    rw [Nat.xor_mod_two_pow, Nat.mul_mod_left, Nat.mod_eq_of_lt hd, Nat.zero_xor]
  have h := Nat.div_add_mod (a * 2 ^ w ^^^ d) (2 ^ w)
  rw [hdiv, hmod] at h
  rw [← h, Nat.mul_comm]

theorem run_xor
    (hf : Linear f w k) (a b : UInt32) (l : List ℕ) :
    run f (a ^^^ b) l = f^[l.length] a ^^^ run f b l := by
  induction l generalizing a b with
  | nil =>
      rfl
  | cons c l ih =>
      rw [run_cons, hf.xor, UInt32.xor_assoc, ih, run_cons, List.length_cons,
        Function.iterate_succ_apply]

/-- From zero the word is the number with the digits. -/
theorem toNat_run_zero
    (hf : Linear f w k)
    {l : List ℕ}
    (hl : ∀ d ∈ l, d < 2 ^ w)
    (hlen : l.length ≤ k) :
    (run f 0 l).toNat = Digits.value (2 ^ w) l := by
  induction l using List.reverseRecOn with
  | nil =>
      rfl
  | append_singleton l c ih =>
      have hk : l.length + 1 ≤ k := by simpa using hlen
      have hlt : ∀ d ∈ l, d < 2 ^ w := fun d hd => hl d (List.mem_append_left _ hd)
      have hc : c < 2 ^ w := hl c (by simp)
      have hrun := ih hlt (by omega)
      have hval := Digits.value_lt (Nat.one_lt_two_pow hf.pos.ne') hlt
      have hroom : Digits.value (2 ^ w) l * 2 ^ w < 2 ^ (w * k) :=
        calc Digits.value (2 ^ w) l * 2 ^ w
            < (2 ^ w) ^ l.length * 2 ^ w := Nat.mul_lt_mul_of_pos_right hval (Nat.two_pow_pos w)
          _ = 2 ^ (w * (l.length + 1)) := by rw [← pow_succ, ← pow_mul]
          _ ≤ 2 ^ (w * k) := Nat.pow_le_pow_right (by omega) (Nat.mul_le_mul_left w hk)
      have hc32 : c < 2 ^ 32 := by
        refine lt_of_lt_of_le hc (Nat.pow_le_pow_right (by omega) ?_)
        exact (Nat.le_mul_of_pos_right w (by omega)).trans hf.fits
      rw [run_append, run_cons, run_nil, Digits.value_append, Digits.value_singleton,
        List.length_singleton, pow_one,
        UInt32.toNat_xor, UInt32.toNat_ofNat', Nat.mod_eq_of_lt hc32,
        hf.shift _ (by rw [hrun]; exact hroom), hrun, mul_two_pow_xor hc]

theorem iterate_lt
    (hf : Linear f w k)
    {n : ℕ}
    (hn : 0 < n) (a : UInt32) :
    (f^[n] a).toNat < 2 ^ (w * k) := by
  obtain ⟨m, rfl⟩ : ∃ m, n = m + 1 := ⟨n - 1, by omega⟩
  rw [Function.iterate_succ_apply']
  exact hf.lt _

/-- The last digits that bring a word to the value wanted are those of the
number it differs from the value by after as many zero steps. -/
theorem run_eq_iff
    (hf : Linear f w k)
    {l : List ℕ}
    (hl : ∀ d ∈ l, d < 2 ^ w)
    (hlen : l.length = k)
    (hk : 0 < k)
    {t : UInt32}
    (ht : t.toNat < 2 ^ (w * k)) (a : UInt32) :
    run f a l = t ↔ l = Digits.digits (2 ^ w) (f^[k] a ^^^ t).toNat k := by
  have hb : 1 < 2 ^ w := Nat.one_lt_two_pow hf.pos.ne'
  have hrun : run f a l = f^[k] a ^^^ run f 0 l := by
    have h := run_xor hf a 0 l
    rwa [UInt32.xor_zero, hlen] at h
  have hzero := toNat_run_zero hf hl hlen.le
  have hlt : (f^[k] a ^^^ t).toNat < (2 ^ w) ^ k := by
    rw [UInt32.toNat_xor, ← pow_mul]
    exact Nat.xor_lt_two_pow (iterate_lt hf hk a) ht
  constructor
  · intro h
    have heq : run f 0 l = f^[k] a ^^^ t := by
      rw [← h, hrun, ← UInt32.xor_assoc, UInt32.xor_self, UInt32.zero_xor]
    rw [← heq, hzero, ← hlen, Digits.digits_value hb hl]
  · intro h
    have heq : run f 0 l = f^[k] a ^^^ t := by
      refine UInt32.toNat_inj.mp ?_
      rw [hzero, h, Digits.value_digits, Nat.mod_eq_of_lt hlt]
    rw [hrun, heq, ← UInt32.xor_assoc, UInt32.xor_self, UInt32.zero_xor]

end LinearChecksum
