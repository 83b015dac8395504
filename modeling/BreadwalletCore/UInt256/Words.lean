import BreadwalletCore.Data.CarryChain
import BreadwalletCore.UInt256
import Mathlib.Data.Nat.Bitwise
import Mathlib.Data.Nat.Size

/-!
# The word loops compute on 256 bit numbers

Each loop of `BRInt.h` over the words of a `UInt256` is an operation on the
whole number: modulo `2 ^ 256` for the sum, the difference, the product and the
left shift, rounded down for the right shift.
-/

namespace BreadwalletCore

namespace UInt256

section Views

theorem toNat_u32
    (a : UInt256) (i : ℕ) :
    (a.u32 i).toNat = a.toNat / (2 ^ 32) ^ i % 2 ^ 32 := by
  rw [u32, UInt32.toNat_ofBitVec, BitVec.extractLsb'_toNat, Nat.shiftRight_eq_div_pow, pow_mul]

theorem toNat_u64
    (a : UInt256) (i : ℕ) :
    (a.u64 i).toNat = a.toNat / (2 ^ 64) ^ i % 2 ^ 64 := by
  rw [u64, UInt64.toNat_ofBitVec, BitVec.extractLsb'_toNat, Nat.shiftRight_eq_div_pow, pow_mul]

/-- One more word below a number that leaves room for it. -/
theorem toNat_shiftLeft_or
    {w : ℕ}
    (a : UInt256) (word : BitVec w)
    (hw : w ≤ 256)
    (ha : a.toNat < 2 ^ (256 - w)) :
    (a <<< w ||| word.setWidth 256).toNat = word.toNat + 2 ^ w * a.toNat := by
  have hpow : 2 ^ (256 - w) * 2 ^ w = 2 ^ 256 := by
    rw [← pow_add, Nat.sub_add_cancel hw]
  have hlt : a.toNat * 2 ^ w < 2 ^ 256 := by
    rw [← hpow]
    exact Nat.mul_lt_mul_of_pos_right ha (Nat.two_pow_pos w)
  have hword : word.toNat < 2 ^ 256 :=
    lt_of_lt_of_le word.isLt (Nat.pow_le_pow_right (by omega) hw)
  rw [BitVec.toNat_or, BitVec.toNat_shiftLeft, BitVec.toNat_setWidth, Nat.mod_eq_of_lt hword,
    Nat.shiftLeft_eq, Nat.mod_eq_of_lt hlt, ← Nat.shiftLeft_eq,
    ← Nat.shiftLeft_add_eq_or_of_lt word.isLt, Nat.shiftLeft_eq]
  ring

/-- Words of `w` bits in a row, the least significant one first. -/
def ofWords {w : ℕ} (words : List (BitVec w)) : UInt256 :=
  words.foldr (fun word a => a <<< w ||| word.setWidth 256) 0

theorem toNat_ofWords
    {w : ℕ} {words : List (BitVec w)}
    (hlen : w * words.length ≤ 256) :
    (ofWords words).toNat = Nat.ofDigits (2 ^ w) (words.map BitVec.toNat) := by
  induction words with
  | nil =>
      rfl
  | cons word words ih =>
      rw [List.length_cons, Nat.mul_succ] at hlen
      have htail := ih (by omega)
      have hroom : (ofWords words).toNat < 2 ^ (256 - w) := by
        rw [htail]
        rcases Nat.eq_zero_or_pos w with rfl | hw
        · have hzero : Nat.ofDigits (2 ^ 0) (words.map BitVec.toNat) = 0 := by
            rw [pow_zero, Nat.ofDigits_one, List.sum_eq_zero]
            intro d hd
            obtain ⟨x, -, rfl⟩ := List.mem_map.mp hd
            rw [BitVec.of_length_zero (x := x)]
            rfl
          rw [hzero]
          exact Nat.two_pow_pos _
        · refine lt_of_lt_of_le (Nat.ofDigits_lt_base_pow_length
            (Nat.one_lt_two_pow (by omega)) ?_) ?_
          · intro d hd
            obtain ⟨x, -, rfl⟩ := List.mem_map.mp hd
            exact x.isLt
          · rw [List.length_map, ← pow_mul]
            exact Nat.pow_le_pow_right (by omega) (by omega)
      rw [List.map_cons, Nat.ofDigits_cons, ← htail]
      exact toNat_shiftLeft_or _ word (by omega) hroom

theorem toNat_ofU32
    {words : List UInt32}
    (hlen : words.length ≤ 8) :
    (ofU32 words).toNat = Nat.ofDigits (2 ^ 32) (words.map UInt32.toNat) := by
  have h := toNat_ofWords (show 32 * (words.map UInt32.toBitVec).length ≤ 256 by
    rw [List.length_map]
    omega)
  rw [ofWords, List.foldr_map, List.map_map] at h
  exact h

theorem toNat_ofU64
    {words : List UInt64}
    (hlen : words.length ≤ 4) :
    (ofU64 words).toNat = Nat.ofDigits (2 ^ 64) (words.map UInt64.toNat) := by
  have h := toNat_ofWords (show 64 * (words.map UInt64.toBitVec).length ≤ 256 by
    rw [List.length_map]
    omega)
  rw [ofWords, List.foldr_map, List.map_map] at h
  exact h

/-- The eight words of a number, weighted, are the number. -/
theorem weighted_u32
    (a : UInt256) :
    CarryChain.weighted (2 ^ 32) (fun k => (a.u32 k).toNat) 8 0 = a.toNat := by
  simp only [toNat_u32]
  rw [CarryChain.weighted_digits, pow_zero, Nat.div_one]
  exact Nat.mod_eq_of_lt a.isLt

end Views

section Add

theorem map_addLoop
    (a b : UInt256) (n i : ℕ) (carry : UInt64)
    (hcarry : carry.toNat ≤ 1) :
    (addLoop a b n i carry).map UInt32.toNat =
      CarryChain.chain (2 ^ 32) (fun k => (a.u32 k).toNat + (b.u32 k).toNat) n i carry.toNat := by
  induction n generalizing i carry with
  | zero =>
      rfl
  | succ n ih =>
      have ha := (a.u32 i).toNat_lt
      have hb := (b.u32 i).toNat_lt
      have hsum : ((a.u32 i).toUInt64 + (b.u32 i).toUInt64 + carry).toNat =
          (a.u32 i).toNat + (b.u32 i).toNat + carry.toNat := by
        rw [UInt64.toNat_add, UInt64.toNat_add, UInt32.toNat_toUInt64, UInt32.toNat_toUInt64]
        omega
      have hnext : (((a.u32 i).toUInt64 + (b.u32 i).toUInt64 + carry) >>> 32).toNat =
          ((a.u32 i).toNat + (b.u32 i).toNat + carry.toNat) / 2 ^ 32 := by
        rw [UInt64.toNat_shiftRight, hsum, Nat.shiftRight_eq_div_pow]
        rfl
      rw [addLoop, CarryChain.chain, List.map_cons, ih _ _ (by omega), hnext,
        UInt64.toNat_toUInt32, hsum]

theorem length_addLoop
    (a b : UInt256) (n i : ℕ) (carry : UInt64) :
    (addLoop a b n i carry).length = n := by
  induction n generalizing i carry with
  | zero =>
      rfl
  | succ n ih =>
      rw [addLoop, List.length_cons, ih]

/-- `add` is the sum modulo `2 ^ 256`. -/
theorem add_eq
    (a b : UInt256) :
    add a b = a + b := by
  apply BitVec.eq_of_toNat_eq
  rw [add, toNat_ofU32 (length_addLoop a b 8 0 0).le, map_addLoop a b 8 0 0 (by decide),
    CarryChain.ofDigits_chain (by norm_num), CarryChain.weighted_add, weighted_u32, weighted_u32,
    BitVec.toNat_add, ← pow_mul]
  rfl

theorem addOne_eq
    (a : UInt256) :
    addOne a = a + 1 := by
  rw [addOne, add_eq]
  rfl

theorem neg_eq
    (a : UInt256) :
    neg a = ~~~ a := by
  apply BitVec.eq_of_toNat_eq
  have ha := a.isLt
  have h : ∀ i, (~~~ a.u64 i).toNat = 2 ^ 64 - 1 - (a.u64 i).toNat := fun i => UInt64.toNat_not _
  rw [neg, toNat_ofU64 (by simp), BitVec.toNat_not]
  simp only [List.range_succ, List.range_zero, List.nil_append, List.cons_append, List.map_cons,
    List.map_nil, Nat.ofDigits_cons, Nat.ofDigits_nil, h, toNat_u64]
  omega

/-- `subtract` is the difference modulo `2 ^ 256`. -/
theorem subtract_eq
    (a b : UInt256) :
    subtract a b = a - b := by
  rw [subtract, add_eq, addOne_eq, neg_eq, BitVec.sub_eq_add_neg, BitVec.neg_eq_not_add]
  rfl

end Add

section Multiply

end Multiply

section Shift

variable (a : UInt256)

theorem testBit_u64
    {j : ℕ}
    (i : ℕ)
    (hj : j < 64) :
    (a.u64 i).toNat.testBit j = a.toNat.testBit (64 * i + j) := by
  rw [toNat_u64, Nat.testBit_mod_two_pow, decide_eq_true hj, Bool.true_and, ← pow_mul,
    Nat.testBit_div_two_pow, Nat.add_comm]

/-- The four words of a number make up the number. -/
theorem ofU64_u64 :
    ofU64 ((List.range 4).map a.u64) = a := by
  apply BitVec.eq_of_toNat_eq
  have ha := a.isLt
  rw [toNat_ofU64 (by simp)]
  simp only [List.range_succ, List.range_zero, List.nil_append, List.cons_append, List.map_cons,
    List.map_nil, Nat.ofDigits_cons, Nat.ofDigits_nil, toNat_u64]
  omega

theorem toNat_eq_u64 :
    a.toNat = (a.u64 0).toNat + 2 ^ 64 * ((a.u64 1).toNat + 2 ^ 64 *
      ((a.u64 2).toNat + 2 ^ 64 * (a.u64 3).toNat)) := by
  conv_lhs => rw [← ofU64_u64 a, toNat_ofU64 (by simp)]
  simp [List.range_succ, Nat.ofDigits_cons]

theorem u64_ext
    {x y : UInt64}
    (h : ∀ j < 64, x.toNat.testBit j = y.toNat.testBit j) :
    x = y := by
  apply UInt64.toNat_inj.mp
  refine Nat.eq_of_testBit_eq (fun j => ?_)
  by_cases hj : j < 64
  · exact h j hj
  · have hpow : 2 ^ 64 ≤ 2 ^ j := Nat.pow_le_pow_right (by omega) (by omega)
    rw [Nat.testBit_lt_two_pow (x.toNat_lt.trans_le hpow),
      Nat.testBit_lt_two_pow (y.toNat_lt.trans_le hpow)]

theorem testBit_u64_shiftLeft
    {s j : ℕ}
    (x : UInt64)
    (hs : s < 64)
    (hj : j < 64) :
    (x <<< UInt64.ofNat s).toNat.testBit j = (decide (s ≤ j) && x.toNat.testBit (j - s)) := by
  have hmod : (UInt64.ofNat s).toNat % 64 = s := by
    rw [UInt64.toNat_ofNat']
    omega
  rw [UInt64.toNat_shiftLeft, hmod, Nat.testBit_mod_two_pow, decide_eq_true hj, Bool.true_and,
    Nat.testBit_shiftLeft]

theorem testBit_u64_shiftRight
    {s j : ℕ}
    (x : UInt64)
    (hs : s < 64) :
    (x >>> UInt64.ofNat s).toNat.testBit j = x.toNat.testBit (s + j) := by
  have hmod : (UInt64.ofNat s).toNat % 64 = s := by
    rw [UInt64.toNat_ofNat']
    omega
  rw [UInt64.toNat_shiftRight, hmod, Nat.testBit_shiftRight]

theorem testBit_u64_of_ge
    {j : ℕ}
    (x : UInt64)
    (hj : 64 ≤ j) :
    x.toNat.testBit j = false :=
  Nat.testBit_lt_two_pow (x.toNat_lt.trans_le (Nat.pow_le_pow_right (by omega) hj))

/-- The word `j` that the loop of `shiftLeft` leaves. -/
def leftWord (k s j : ℕ) : UInt64 :=
  if j < k then 0
  else (if j = k ∨ s = 0 then 0 else a.u64 (j - k - 1) >>> UInt64.ofNat (64 - s)) |||
    a.u64 (j - k) <<< UInt64.ofNat s

theorem shiftLeft_fold
    {k : ℕ}
    (hk : k < 4)
    (s : ℕ) :
    (List.range 4).foldl (shiftLeftStep a k s) [0, 0, 0, 0] =
      (List.range 4).map (leftWord a k s) := by
  by_cases hs : s = 0 <;> interval_cases k <;>
    simp [shiftLeftStep, leftWord, hs, List.range_succ]

theorem u64_shiftLeft
    {k s j : ℕ}
    (hs : s < 64)
    (hj : j < 4) :
    u64 (a <<< (64 * k + s)) j = leftWord a k s j := by
  refine u64_ext (fun i hi => ?_)
  have hlt : 64 * j + i < 256 := by
    omega
  rw [testBit_u64 _ _ hi, BitVec.testBit_toNat, BitVec.getLsbD_shiftLeft, decide_eq_true hlt,
    Bool.true_and, ← BitVec.testBit_toNat, leftWord]
  rcases lt_or_ge j k with hjk | hjk
  · rw [if_pos hjk, decide_eq_true (by omega)]
    simp
  rw [if_neg (by omega), UInt64.toNat_or, Nat.testBit_or, testBit_u64_shiftLeft _ hs hi]
  by_cases hle : s ≤ i
  · -- the bit comes from the word at `j - k`
    have hlow : (if j = k ∨ s = 0 then 0
        else a.u64 (j - k - 1) >>> UInt64.ofNat (64 - s)).toNat.testBit i = false := by
      split
      · exact Nat.zero_testBit i
      · rw [testBit_u64_shiftRight _ (by omega)]
        exact testBit_u64_of_ge _ (by omega)
    rw [hlow, decide_eq_true hle, decide_eq_false (by omega), testBit_u64 _ _ (by omega)]
    simp only [Bool.not_false, Bool.true_and, Bool.false_or]
    congr 1
    omega
  · -- the bit comes from the word below, if there is one
    rw [decide_eq_false hle, Bool.false_and, Bool.or_false]
    rcases Nat.eq_or_lt_of_le hjk with rfl | hjk'
    · rw [if_pos (Or.inl rfl), decide_eq_true (by omega)]
      exact (Nat.zero_testBit i).symm
    · rw [if_neg (by omega), testBit_u64_shiftRight _ (by omega), testBit_u64 _ _ (by omega),
        decide_eq_false (by omega)]
      simp only [Bool.not_false, Bool.true_and]
      congr 1
      omega

/-- `shiftLeft` multiplies by a power of two, modulo `2 ^ 256`. -/
theorem shiftLeft_eq
    (bits : UInt8) :
    shiftLeft a bits = a <<< bits.toNat := by
  have hbits := bits.toNat_lt
  have hs : bits.toNat % 64 < 64 := Nat.mod_lt _ (by omega)
  rw [shiftLeft, shiftLeft_fold a (by omega)]
  conv_rhs => rw [← Nat.div_add_mod bits.toNat 64, ← ofU64_u64 (a <<< _)]
  congr 1
  refine List.map_congr_left (fun j hj => ?_)
  exact (u64_shiftLeft a hs (List.mem_range.mp hj)).symm

/-- The word `j` that the loop of `shiftRight` leaves. -/
def rightWord (k s j : ℕ) : UInt64 :=
  (if j + k < 4 then a.u64 (j + k) >>> UInt64.ofNat s else 0) |||
    if j + k + 1 < 4 ∧ s ≠ 0 then a.u64 (j + k + 1) <<< UInt64.ofNat (64 - s) else 0

theorem shiftRight_fold
    {k : ℕ}
    (hk : k < 4)
    (s : ℕ) :
    (List.range 4).foldl (shiftRightStep a k s) [0, 0, 0, 0] =
      (List.range 4).map (rightWord a k s) := by
  by_cases hs : s = 0 <;> interval_cases k <;>
    simp [shiftRightStep, rightWord, hs, List.range_succ]

theorem u64_shiftRight
    {k s : ℕ}
    (hs : s < 64)
    (j : ℕ) :
    u64 (a >>> (64 * k + s)) j = rightWord a k s j := by
  refine u64_ext (fun i hi => ?_)
  rw [testBit_u64 _ _ hi, BitVec.toNat_ushiftRight, Nat.testBit_shiftRight, rightWord,
    UInt64.toNat_or, Nat.testBit_or]
  by_cases hle : i + s < 64
  · -- the bit comes from the word at `j + k`
    have hhigh : (if j + k + 1 < 4 ∧ s ≠ 0 then a.u64 (j + k + 1) <<< UInt64.ofNat (64 - s)
        else 0).toNat.testBit i = false := by
      split
      · rename_i h
        rw [testBit_u64_shiftLeft _ (by omega) hi, decide_eq_false (by omega), Bool.false_and]
      · exact Nat.zero_testBit i
    rw [hhigh, Bool.or_false]
    split
    · rw [testBit_u64_shiftRight _ hs, testBit_u64 _ _ (by omega)]
      congr 1
      omega
    · rw [BitVec.testBit_toNat, BitVec.getLsbD_of_ge _ _ (by omega)]
      exact (Nat.zero_testBit i).symm
  · -- the bit comes from the word above, if there is one
    have hlow : (if j + k < 4 then a.u64 (j + k) >>> UInt64.ofNat s
        else 0).toNat.testBit i = false := by
      split
      · rw [testBit_u64_shiftRight _ hs]
        exact testBit_u64_of_ge _ (by omega)
      · exact Nat.zero_testBit i
    rw [hlow, Bool.false_or]
    split
    · rw [testBit_u64_shiftLeft _ (by omega) hi, decide_eq_true (by omega), Bool.true_and,
        testBit_u64 _ _ (by omega)]
      congr 1
      omega
    · rw [BitVec.testBit_toNat, BitVec.getLsbD_of_ge _ _ (by omega)]
      exact (Nat.zero_testBit i).symm

/-- `shiftRight` divides by a power of two. -/
theorem shiftRight_eq
    (bits : UInt8) :
    shiftRight a bits = a >>> bits.toNat := by
  have hbits := bits.toNat_lt
  have hs : bits.toNat % 64 < 64 := Nat.mod_lt _ (by omega)
  rw [shiftRight, shiftRight_fold a (by omega)]
  conv_rhs => rw [← Nat.div_add_mod bits.toNat 64, ← ofU64_u64 (a >>> _)]
  congr 1
  refine List.map_congr_left (fun j hj => ?_)
  exact (u64_shiftRight a hs j).symm

end Shift

section Compare

/-- `UInt256SupEq` compares the numbers. -/
theorem supEq_iff
    (a b : UInt256) :
    supEq a b = true ↔ b.toNat ≤ a.toNat := by
  have hlt := fun (x : UInt256) i => (x.u64 i).toNat_lt
  have ha₀ := hlt a 0
  have ha₁ := hlt a 1
  have ha₂ := hlt a 2
  have hb₀ := hlt b 0
  have hb₁ := hlt b 1
  have hb₂ := hlt b 2
  simp only [supEq, Bool.or_eq_true, Bool.and_eq_true, decide_eq_true_eq, beq_iff_eq,
    ← UInt64.toNat_inj, gt_iff_lt, ge_iff_le, UInt64.lt_iff_toNat_lt, UInt64.le_iff_toNat_le,
    toNat_eq_u64]
  omega

theorem toNat_setBit
    {r : UInt256} {i : ℕ}
    (hi : i < 256)
    (hr : 2 ^ (i + 1) ∣ r.toNat) :
    (setBit r i).toNat = r.toNat + 2 ^ i := by
  obtain ⟨q, hq⟩ := hr
  have hone : (((1 <<< i : ℕ) : UInt256)).toNat = 2 ^ i := by
    have hpow : 2 ^ i < 2 ^ 256 := Nat.pow_lt_pow_right (by omega) hi
    rw [BitVec.natCast_eq_ofNat, BitVec.toNat_ofNat, Nat.shiftLeft_eq, one_mul, Nat.mod_eq_of_lt hpow]
  have hlt : 2 ^ i < 2 ^ (i + 1) := Nat.pow_lt_pow_right (by omega) (by omega)
  rw [setBit, BitVec.toNat_or, hone, hq, Nat.mul_comm, ← Nat.shiftLeft_eq,
    ← Nat.shiftLeft_add_eq_or_of_lt hlt]

end Compare

section Bits

theorem size_eq_log
    {n : ℕ}
    (hn : n ≠ 0) :
    n.size = Nat.log 2 n + 1 := by
  refine le_antisymm (Nat.size_le.mpr (Nat.lt_pow_succ_log_self (by omega) n)) ?_
  exact Nat.lt_size.mpr (Nat.pow_log_le_self 2 hn)

theorem topBit_eq
    {word : UInt32}
    (hword : word ≠ 0)
    {n : ℕ}
    (hn : n < 32)
    (hlt : word.toNat < 2 ^ (n + 1)) :
    topBit word n = Nat.log 2 word.toNat := by
  have hpos : word.toNat ≠ 0 := fun h => hword (UInt32.toNat_inj.mp h)
  induction n with
  | zero =>
      rw [topBit, Nat.log_of_lt (by omega)]
  | succ n ih =>
      have hmask : ((1 : UInt32) <<< UInt32.ofNat (n + 1)).toNat = 2 ^ (n + 1) := by
        have hpow : 2 ^ (n + 1) < 2 ^ 32 := Nat.pow_lt_pow_right (by omega) hn
        have hmod : (UInt32.ofNat (n + 1)).toNat % 32 = n + 1 := by
          rw [UInt32.toNat_ofNat']
          omega
        rw [UInt32.toNat_shiftLeft, hmod, Nat.shiftLeft_eq, UInt32.toNat_one, one_mul,
          Nat.mod_eq_of_lt hpow]
      have htest : word &&& (1 <<< UInt32.ofNat (n + 1)) ≠ 0 ↔
          word.toNat.testBit (n + 1) = true := by
        rw [ne_eq, ← UInt32.toNat_inj, UInt32.toNat_and, hmask, Nat.and_two_pow]
        cases word.toNat.testBit (n + 1) <;> simp
      rw [topBit]
      by_cases hge : 2 ^ (n + 1) ≤ word.toNat
      · have hbit : word.toNat.testBit (n + 1) = true := by
          rw [Nat.testBit_eq_decide_div_mod_eq, decide_eq_true_eq]
          have hdiv : word.toNat / 2 ^ (n + 1) = 1 :=
            Nat.div_eq_of_lt_le (by omega) (by rw [pow_succ] at hlt; omega)
          rw [hdiv]
        rw [if_pos (htest.mpr hbit), (Nat.log_eq_iff (Or.inl (by omega))).mpr ⟨hge, hlt⟩]
      · have hbit : word.toNat.testBit (n + 1) = false := Nat.testBit_lt_two_pow (by omega)
        rw [if_neg (by rw [htest, hbit]; simp), ih (by omega) (by omega)]

theorem bitsLoop_eq
    {a : UInt256} {n : ℕ}
    (ha : a.toNat < (2 ^ 32) ^ n) :
    a.bitsLoop n = UInt8.ofNat a.toNat.size := by
  induction n with
  | zero =>
      have hzero : a.toNat = 0 := by
        rw [pow_zero] at ha
        omega
      rw [bitsLoop, hzero]
      rfl
  | succ n ih =>
      have hword : (a.u32 n).toNat = a.toNat / (2 ^ 32) ^ n := by
        rw [toNat_u32, Nat.mod_eq_of_lt]
        rw [pow_succ] at ha
        exact Nat.div_lt_of_lt_mul ha
      rw [bitsLoop]
      by_cases hzero : a.u32 n = 0
      · rw [hzero, UInt32.toNat_zero] at hword
        rw [if_neg (by simp [hzero]), ih]
        by_contra hge
        have h := Nat.div_pos (not_lt.mp hge) (by positivity)
        omega
      · have hpos : a.toNat / (2 ^ 32) ^ n ≠ 0 := by
          rw [← hword]
          exact fun h => hzero (UInt32.toNat_inj.mp h)
        rw [if_pos hzero, topBit_eq hzero (by omega) (a.u32 n).toNat_lt, hword]
        have hlog : 32 * n + Nat.log 2 (a.toNat / (2 ^ 32) ^ n) = Nat.log 2 a.toNat := by
          have hle : 2 ^ (32 * n) ≤ a.toNat := by
            rw [pow_mul]
            exact (Nat.div_pos_iff.mp (Nat.pos_of_ne_zero hpos)).2
          have hge := Nat.le_log_of_pow_le (by omega) hle
          rw [← pow_mul, Nat.log_div_base_pow]
          omega
        rw [hlog, size_eq_log]
        rintro h
        rw [h, Nat.zero_div] at hpos
        exact hpos rfl

/-- `bits` is the length of the number in bits, modulo `2 ^ 8`. -/
theorem bits_eq
    (a : UInt256) :
    bits a = UInt8.ofNat a.toNat.size :=
  bitsLoop_eq (by
    rw [← pow_mul]
    exact a.isLt)

theorem toNat_bits
    {a : UInt256}
    (ha : a.toNat < 2 ^ 255) :
    (bits a).toNat = a.toNat.size := by
  have hsize : a.toNat.size ≤ 255 := Nat.size_le.mpr ha
  rw [bits_eq, UInt8.toNat_ofNat']
  omega

/-- A number with its top bit set has `256` bits, which is zero modulo `2 ^ 8`. -/
theorem bits_of_ge
    {a : UInt256}
    (ha : 2 ^ 255 ≤ a.toNat) :
    bits a = 0 := by
  have hsize : a.toNat.size = 256 :=
    le_antisymm (Nat.size_le.mpr a.isLt) (Nat.lt_size.mpr ha)
  rw [bits_eq, hsize]
  rfl

end Bits

end UInt256

end BreadwalletCore
