import BreadwalletCore.Data.Machine
import BreadwalletCore.Data.RadixFloat
import BreadwalletCore.UInt256.Words

/-!
# The compact format of targets

A compact target is a floating point number with a mantissa of three bytes
whose top bit is a sign.  `getCompact` encodes a number and `setCompact` expands
it, as long as the number is below `2 ^ 255`: from there on `bits` returns zero.
-/

namespace BreadwalletCore

namespace UInt256

open RadixFloat (Repr)

/-- Sizes in bytes, three bytes of mantissa, and the sign bit stays clear. -/
def compactFloat : RadixFloat where
  radix := 256
  p := 3
  limit := 2 ^ 23
  one_lt_radix := by norm_num
  p_pos := by norm_num
  dvd_limit := by norm_num
  limit_le := by norm_num
  le_limit := by norm_num

/-- The size and the mantissa, without the sign. -/
def compactRepr (compact : UInt32) : Repr :=
  ⟨compact.toNat / 2 ^ 24, compact.toNat % 2 ^ 23⟩

/-- The number that a compact target stands for. -/
def expansion (compact : UInt32) : ℕ :=
  compactFloat.value (compactRepr compact)

/-- The compact target with the given size and mantissa. -/
def packCompact (c : Repr) : UInt32 :=
  UInt32.ofNat (c.size * 2 ^ 24 + c.mantissa)

/-- A compact target that is not negative and uses the room of its mantissa. -/
def CanonicalCompact (compact : UInt32) : Prop :=
  compact.toNat / 2 ^ 23 % 2 = 0 ∧ compactFloat.Canonical (compactRepr compact)

section Pack

variable {n : ℕ}

theorem compactFloat_size_le
    {k : ℕ}
    (hn : n < 256 ^ k) :
    compactFloat.size n ≤ k + 1 := by
  have hlen : (compactFloat.radix.digits n).length ≤ k :=
    (Nat.digits_length_le_iff compactFloat.one_lt_radix n).mpr hn
  rw [RadixFloat.size]
  split <;> omega

theorem toNat_packCompact
    {c : Repr}
    (hsize : c.size < 256)
    (hmantissa : c.mantissa < 2 ^ 23) :
    (packCompact c).toNat = c.size * 2 ^ 24 + c.mantissa := by
  rw [packCompact, UInt32.toNat_ofNat', Nat.mod_eq_of_lt]
  omega

theorem compactRepr_packCompact
    {c : Repr}
    (hsize : c.size < 256)
    (hmantissa : c.mantissa < 2 ^ 23) :
    compactRepr (packCompact c) = c := by
  rw [compactRepr, toNat_packCompact hsize hmantissa]
  congr 1
  · omega
  · omega

/-- Without a sign a compact target is made up of its parts. -/
theorem packCompact_compactRepr
    {compact : UInt32}
    (hsign : compact.toNat / 2 ^ 23 % 2 = 0) :
    packCompact (compactRepr compact) = compact := by
  apply UInt32.toNat_inj.mp
  have hlt := compact.toNat_lt
  have hsize : (compactRepr compact).size < 256 := by
    change compact.toNat / 2 ^ 24 < 256
    omega
  rw [toNat_packCompact hsize (Nat.mod_lt _ (by omega))]
  change compact.toNat / 2 ^ 24 * 2 ^ 24 + compact.toNat % 2 ^ 23 = compact.toNat
  omega

end Pack

section SetCompact

theorem toNat_compactWord
    (compact : UInt32) :
    (ofU32 [compact &&& 0x007fffff]).toNat = compact.toNat % 2 ^ 23 := by
  rw [toNat_ofU32 (by simp)]
  simp only [List.map_cons, List.map_nil, Nat.ofDigits_singleton, UInt32.toNat_and]
  exact Nat.and_two_pow_sub_one_eq_mod compact.toNat 23

/-- `setCompact` expands what fits into its shift. -/
theorem toNat_setCompact
    {compact : UInt32}
    (hsize : compact.toNat / 2 ^ 24 ≤ 34) :
    (setCompact compact).toNat = expansion compact % 2 ^ 256 := by
  have hint : compact.toBitVec.toInt / 2 ^ 24 = ((compact.toNat / 2 ^ 24 : ℕ) : ℤ) := by
    rw [BitVec.toInt_eq_toNat_of_lt]
    · change ((compact.toNat : ℤ)) / 2 ^ 24 = _
      omega
    · change 2 * compact.toNat < 2 ^ 32
      omega
  have hmantissa : compact.toNat % 2 ^ 23 < 2 ^ 23 := Nat.mod_lt _ (by omega)
  rw [setCompact, hint, expansion, RadixFloat.value]
  change _ = compact.toNat % 2 ^ 23 * 256 ^ (compact.toNat / 2 ^ 24) / 256 ^ 3 % 2 ^ 256
  generalize compact.toNat / 2 ^ 24 = size at hsize
  by_cases hle : size ≤ 3
  · have hshift : (UInt8.ofInt (8 * (3 - (size : ℤ)))).toNat = 8 * (3 - size) := by
      interval_cases size <;> rfl
    have hpow : 256 ^ 3 = 2 ^ (8 * (3 - size)) * 256 ^ size := by
      interval_cases size <;> rfl
    have hlt : compact.toNat % 2 ^ 23 / 2 ^ (8 * (3 - size)) < 2 ^ 256 :=
      lt_of_le_of_lt (Nat.div_le_self _ _) (by omega)
    rw [if_pos (by exact_mod_cast hle), shiftRight_eq, BitVec.toNat_ushiftRight, hshift,
      toNat_compactWord, Nat.shiftRight_eq_div_pow, hpow,
      Nat.mul_div_mul_right _ _ (Nat.pow_pos (by omega)), Nat.mod_eq_of_lt hlt]
  · have hshift : (UInt8.ofInt (8 * ((size : ℤ) - 3))).toNat = 8 * (size - 3) := by
      interval_cases size <;> rfl
    have hpow : 256 ^ size = 2 ^ (8 * (size - 3)) * 256 ^ 3 := by
      rw [pow_mul, show (2 : ℕ) ^ 8 = 256 by rfl, ← pow_add]
      congr 1
      omega
    rw [if_neg (by exact_mod_cast hle), shiftLeft_eq, BitVec.toNat_shiftLeft, hshift,
      toNat_compactWord, Nat.shiftLeft_eq, hpow, ← Nat.mul_assoc,
      Nat.mul_div_cancel _ (by norm_num)]

end SetCompact

section GetCompact

variable {a : UInt256}

theorem size_bytes
    (n : ℕ) :
    (Nat.digits 256 n).length = (n.size + 7) / 8 := by
  refine le_antisymm ?_ ?_
  · rw [Nat.digits_length_le_iff (by omega)]
    refine (Nat.lt_size_self n).trans_le ?_
    rw [show (256 : ℕ) = 2 ^ 8 by rfl, ← pow_mul]
    exact Nat.pow_le_pow_right (by omega) (by omega)
  · have hlt : n < 256 ^ (Nat.digits 256 n).length := Nat.lt_base_pow_length_digits (by omega)
    rw [show (256 : ℕ) = 2 ^ 8 by rfl, ← pow_mul] at hlt
    have h := Nat.size_le.mpr hlt
    rw [show (2 : ℕ) ^ 8 = 256 by rfl] at h
    omega

/-- The mantissa that `getCompact` starts from is made up of the first three
bytes. -/
theorem compactParts_eq
    (ha : a.toNat < 2 ^ 255) :
    (compactParts a).2 = (Nat.digits 256 a.toNat).length ∧
      (compactParts a).1.toNat =
        compactFloat.leading a.toNat (Nat.digits 256 a.toNat).length := by
  have hlead : compactFloat.leading a.toNat (Nat.digits 256 a.toNat).length < 256 ^ 3 :=
    compactFloat.leading_digits_lt a.toNat
  have hsize : (Nat.digits 256 a.toNat).length ≤ 32 := by
    rw [Nat.digits_length_le_iff (by omega)]
    exact lt_of_lt_of_le ha (by norm_num)
  have hlt : a.toNat < 256 ^ (Nat.digits 256 a.toNat).length :=
    Nat.lt_base_pow_length_digits (by omega)
  rw [compactParts, toNat_bits ha, ← size_bytes]
  rw [RadixFloat.leading] at hlead ⊢
  change a.toNat * 256 ^ 3 / 256 ^ (Nat.digits 256 a.toNat).length < 256 ^ 3 at hlead
  change _ ∧ _ = a.toNat * 256 ^ 3 / 256 ^ (Nat.digits 256 a.toNat).length
  generalize (Nat.digits 256 a.toNat).length = size at hsize hlt hlead ⊢
  by_cases hle : size ≤ 3
  · have hshift : (UInt32.ofNat (8 * (3 - size))).toNat % 32 = 8 * (3 - size) := by
      interval_cases size <;> rfl
    have hpow : 256 ^ 3 = 2 ^ (8 * (3 - size)) * 256 ^ size := by
      interval_cases size <;> rfl
    have hword : (a.u32 0).toNat = a.toNat := by
      rw [toNat_u32, pow_zero, Nat.div_one]
      refine Nat.mod_eq_of_lt (hlt.trans_le ?_)
      calc 256 ^ size ≤ 256 ^ 3 := Nat.pow_le_pow_right (by omega) hle
        _ ≤ 2 ^ 32 := by norm_num
    rw [hpow, ← Nat.mul_assoc, Nat.mul_div_cancel _ (Nat.pow_pos (by omega)), ← hpow] at hlead
    rw [if_pos hle]
    refine ⟨rfl, ?_⟩
    rw [UInt32.toNat_shiftLeft, hshift, hword, Nat.shiftLeft_eq, hpow, ← Nat.mul_assoc,
      Nat.mul_div_cancel _ (Nat.pow_pos (by omega)), Nat.mod_eq_of_lt]
    omega
  · have hshift : (UInt8.ofNat (8 * (size - 3))).toNat = 8 * (size - 3) := by
      rw [UInt8.toNat_ofNat']
      omega
    have hpow : 256 ^ size = 2 ^ (8 * (size - 3)) * 256 ^ 3 := by
      rw [pow_mul, show (2 : ℕ) ^ 8 = 256 by rfl, ← pow_add]
      congr 1
      omega
    rw [hpow, Nat.mul_div_mul_right _ _ (by norm_num)] at hlead
    rw [if_neg hle]
    refine ⟨rfl, ?_⟩
    rw [toNat_u32, shiftRight_eq, BitVec.toNat_ushiftRight, hshift, Nat.shiftRight_eq_div_pow,
      pow_zero, Nat.div_one, hpow, Nat.mul_div_mul_right _ _ (by norm_num), Nat.mod_eq_of_lt]
    omega

theorem sign_test
    (x : UInt32) :
    x &&& 0x00800000 ≠ 0 ↔ x.toNat / 2 ^ 23 % 2 = 1 := by
  have hmask : (x &&& 0x00800000).toNat = (x.toNat.testBit 23).toNat * 2 ^ 23 := by
    rw [UInt32.toNat_and]
    exact Nat.and_two_pow x.toNat 23
  rw [ne_eq, ← UInt32.toNat_inj, hmask, Nat.testBit_eq_decide_div_mod_eq]
  by_cases h : x.toNat / 2 ^ 23 % 2 = 1
  · rw [decide_eq_true h]
    simpa using h
  · rw [decide_eq_false h]
    simpa using h

theorem toNat_and_not_mask
    (x : UInt32) :
    (x &&& ~~~0x007fffff).toNat = x.toNat / 2 ^ 23 * 2 ^ 23 := by
  have hmask : (~~~0x007fffff : UInt32).toNat = (2 ^ 9 - 1) * 2 ^ 23 := by rfl
  rw [UInt32.toNat_and, hmask]
  refine Nat.eq_of_testBit_eq (fun i => ?_)
  rw [Nat.testBit_and, Nat.testBit_mul_two_pow, Nat.testBit_mul_two_pow,
    Nat.testBit_two_pow_sub_one, Nat.testBit_div_two_pow]
  by_cases hi : 23 ≤ i
  · rw [Nat.sub_add_cancel hi, decide_eq_true hi, Bool.true_and, Bool.true_and]
    by_cases hlt : i < 32
    · rw [decide_eq_true (by omega), Bool.and_true]
    · rw [Nat.testBit_lt_two_pow
        (x.toNat_lt.trans_le (Nat.pow_le_pow_right (by omega) (not_lt.mp hlt))), Bool.false_and]
  · rw [decide_eq_false hi, Bool.false_and, Bool.and_false, Bool.false_and]

theorem mantissa_test
    {x : UInt32} :
    x &&& ~~~0x007fffff = 0 ↔ x.toNat < 2 ^ 23 := by
  rw [← UInt32.toNat_inj, toNat_and_not_mask, UInt32.toNat_zero]
  omega

theorem or_shiftLeft
    {x : UInt32} {size : ℕ}
    (hx : x.toNat < 2 ^ 23)
    (hsize : size < 256) :
    x ||| UInt32.ofNat size <<< 24 = packCompact ⟨size, x.toNat⟩ := by
  apply UInt32.toNat_inj.mp
  have hmul : size * 2 ^ 24 < 2 ^ 32 := by
    omega
  have hshift : (UInt32.ofNat size <<< 24).toNat = size * 2 ^ 24 := by
    rw [UInt32.toNat_shiftLeft, UInt32.toNat_ofNat', Nat.mod_eq_of_lt (by omega : size < 2 ^ 32)]
    change size <<< 24 % 2 ^ 32 = _
    rw [Nat.shiftLeft_eq, Nat.mod_eq_of_lt hmul]
  rw [toNat_packCompact hsize hx, UInt32.toNat_or, hshift, Nat.or_comm, ← Nat.shiftLeft_eq,
    ← Nat.shiftLeft_add_eq_or_of_lt (by omega)]

/-- Below `2 ^ 255` `getCompact` encodes. -/
theorem getCompact_eq
    (ha : a.toNat < 2 ^ 255) :
    getCompact a = .ok (packCompact (compactFloat.encode a.toNat)) := by
  obtain ⟨hsize, hmant⟩ := compactParts_eq ha
  have hlead : compactFloat.leading a.toNat (Nat.digits 256 a.toNat).length < 2 ^ 24 :=
    compactFloat.leading_digits_lt a.toNat
  have hlen : (Nat.digits 256 a.toNat).length ≤ 32 := by
    rw [Nat.digits_length_le_iff (by omega)]
    exact lt_of_lt_of_le ha (by norm_num)
  have hlt : (compactFloat.encode a.toNat).mantissa < 2 ^ 23 := RadixFloat.mantissa_lt a.toNat
  rw [getCompact]
  generalize compactParts a = parts at hsize hmant
  obtain ⟨compact, size⟩ := parts
  change size = (Nat.digits 256 a.toNat).length at hsize
  change compact.toNat = _ at hmant
  have hcompact : compact.toNat < 2 ^ 24 := hmant ▸ hlead
  by_cases hsign : 2 ^ 23 ≤ compact.toNat
  · -- the sign bit is set, so the mantissa loses a byte
    have hencode : compactFloat.encode a.toNat = ⟨size + 1, (compact >>> 8).toNat⟩ := by
      have hshift : (compact >>> 8).toNat = compact.toNat / 256 := by
        rw [UInt32.toNat_shiftRight, Nat.shiftRight_eq_div_pow]
        rfl
      rw [hshift, hmant, hsize]
      exact RadixFloat.encode_of_ge (hmant ▸ hsign)
    rw [hencode] at hlt ⊢
    change (compact >>> 8).toNat < 2 ^ 23 at hlt
    simp only [if_pos ((sign_test compact).mpr (by omega)), mantissa_test.mpr hlt]
    rw [if_neg (by rintro (h | h); exacts [h rfl, by omega]), or_shiftLeft hlt (by omega)]
    rfl
  · have hencode : compactFloat.encode a.toNat = ⟨size, compact.toNat⟩ := by
      rw [hmant, hsize]
      exact RadixFloat.encode_of_lt (hmant ▸ not_le.mp hsign)
    rw [hencode] at hlt ⊢
    change compact.toNat < 2 ^ 23 at hlt
    simp only [if_neg (mt (sign_test compact).mp (by omega)), mantissa_test.mpr hlt]
    rw [if_neg (by rintro (h | h); exacts [h rfl, by omega]), or_shiftLeft hlt (by omega)]
    rfl

/-- From `2 ^ 255` on `getCompact` fails its assertion or returns zero. -/
theorem getCompact_of_ge
    (ha : 2 ^ 255 ≤ a.toNat) :
    getCompact a = .error .assertion ∨ getCompact a = .ok 0 := by
  have hparts : compactParts a = (a.u32 0 <<< 24, 0) := by
    rw [compactParts, bits_of_ge ha]
    rfl
  have hdvd : 2 ^ 24 ∣ (a.u32 0 <<< 24).toNat := by
    rw [UInt32.toNat_shiftLeft, Nat.shiftLeft_eq]
    exact (Nat.dvd_mod_iff (by norm_num)).mpr (Dvd.intro_left _ rfl)
  have hsign : ¬ (a.u32 0 <<< 24) &&& 0x00800000 ≠ 0 := by
    rw [sign_test]
    omega
  rw [getCompact, hparts]
  simp only [if_neg hsign]
  by_cases hmant : a.u32 0 <<< 24 &&& ~~~0x007fffff = 0
  · right
    have hzero : a.u32 0 <<< 24 = 0 := by
      have hlt := mantissa_test.mp hmant
      apply UInt32.toNat_inj.mp
      rw [UInt32.toNat_zero]
      omega
    rw [if_neg (by rintro (h | h); exacts [h hmant, by omega]), hzero]
    rfl
  · left
    rw [if_pos (Or.inl hmant)]
    rfl

end GetCompact

section Codec

variable {a : UInt256}

/-- `m` is `n` with all but the first 15 to 23 of its significant bits cleared. -/
structure Truncates (n m : ℕ) : Prop where
  keeps : ∃ k, 15 ≤ k ∧ k ≤ 23 ∧ m = n / 2 ^ (n.size - k) * 2 ^ (n.size - k)
  le : m ≤ n
  eq_of_lt : n < 2 ^ 15 → m = n

/-- `getCompact` passes its assertions, and the result expands to the number
with its last bits cleared. -/
def ReadsBack (a : UInt256) : Prop :=
  ∃ compact, getCompact a = .ok compact ∧ Truncates a.toNat (setCompact compact).toNat

theorem Truncates.of_keeps
    {n m k : ℕ}
    (hk : 15 ≤ k)
    (hk' : k ≤ 23)
    (hm : m = n / 2 ^ (n.size - k) * 2 ^ (n.size - k)) :
    Truncates n m := by
  refine ⟨⟨k, hk, hk', hm⟩, hm ▸ Nat.div_mul_le_self _ _, fun hn => ?_⟩
  have hsize := Nat.size_le.mpr hn
  rw [hm, Nat.sub_eq_zero_of_le (by omega), pow_zero, Nat.div_one, Nat.mul_one]

theorem truncates_value_encode
    (n : ℕ) :
    Truncates n (compactFloat.value (compactFloat.encode n)) := by
  rcases Nat.le_total (compactFloat.size n) 3 with hle | hge
  · have hsize := Nat.size_le.mpr (RadixFloat.lt_limit_of_size_le (f := compactFloat) hle)
    refine Truncates.of_keeps (k := 23) (by omega) le_rfl ?_
    rw [RadixFloat.value_encode]
    change n / 256 ^ (compactFloat.size n - 3) * 256 ^ (compactFloat.size n - 3) = _
    rw [Nat.sub_eq_zero_of_le hle, Nat.sub_eq_zero_of_le hsize]
    rfl
  · -- the mantissa has the bits that are kept
    obtain ⟨e, he⟩ := Nat.exists_eq_add_of_le hge
    have hm : (compactFloat.encode n).mantissa = n / 2 ^ (8 * e) := by
      rw [RadixFloat.encode, RadixFloat.leading, he]
      change n * 256 ^ 3 / 256 ^ (3 + e) = _
      rw [pow_add, Nat.mul_comm (256 ^ 3), Nat.mul_div_mul_right _ _ (by norm_num), pow_mul]
      rfl
    have hne : n ≠ 0 := by
      rintro rfl
      rw [RadixFloat.size_zero] at hge
      omega
    have hlow : 2 ^ 23 ≤ 256 * (compactFloat.encode n).mantissa :=
      RadixFloat.limit_le_mantissa (f := compactFloat) hne
    have hhigh : (compactFloat.encode n).mantissa < 2 ^ 23 := RadixFloat.mantissa_lt n
    rw [hm] at hlow hhigh
    have hk : 15 < (n / 2 ^ (8 * e)).size := Nat.lt_size.mpr (by omega)
    have hk' : (n / 2 ^ (8 * e)).size ≤ 23 := Nat.size_le.mpr hhigh
    have hsize : n.size = (n / 2 ^ (8 * e)).size + 8 * e := by
      refine le_antisymm (Nat.size_le.mpr ?_) ?_
      · rw [pow_add, ← Nat.div_lt_iff_lt_mul (Nat.two_pow_pos _)]
        exact Nat.lt_size_self _
      · have hpow : 2 ^ ((n / 2 ^ (8 * e)).size - 1) ≤ n / 2 ^ (8 * e) :=
          Nat.lt_size.mp (by omega)
        rw [Nat.le_div_iff_mul_le (Nat.two_pow_pos _), ← pow_add] at hpow
        have := Nat.lt_size.mpr hpow
        omega
    refine Truncates.of_keeps hk.le hk' ?_
    rw [RadixFloat.value_encode, he, hsize, Nat.add_sub_cancel_left]
    change n / 256 ^ (3 + e - 3) * 256 ^ (3 + e - 3) = _
    rw [Nat.add_sub_cancel_left, pow_mul]
    rfl

theorem setCompact_packCompact
    {n : ℕ}
    (hn : n < 2 ^ 255) :
    (setCompact (packCompact (compactFloat.encode n))).toNat =
      compactFloat.value (compactFloat.encode n) := by
  have hsize : (compactFloat.encode n).size ≤ 33 :=
    compactFloat_size_le (k := 32) (lt_of_lt_of_le hn (by norm_num))
  have hmant : (compactFloat.encode n).mantissa < 2 ^ 23 := RadixFloat.mantissa_lt n
  have hpack := toNat_packCompact (by omega) hmant
  rw [toNat_setCompact (by rw [hpack]; omega), expansion,
    compactRepr_packCompact (by omega) hmant, Nat.mod_eq_of_lt]
  exact lt_of_le_of_lt (truncates_value_encode n).le (hn.trans (by norm_num))

theorem readsBack_iff
    (a : UInt256) :
    ReadsBack a ↔ a.toNat < 2 ^ 255 := by
  constructor
  · rintro ⟨compact, hget, htrunc⟩
    by_contra hge
    rcases getCompact_of_ge (not_lt.mp hge) with h | h
    · rw [h] at hget
      cases hget
    · rw [h] at hget
      cases hget
      -- zero has lost the top bit
      obtain ⟨k, hk, -, hm⟩ := htrunc.keeps
      have hzero : (setCompact 0).toNat = 0 := by decide
      have hlt : 255 < a.toNat.size := Nat.lt_size.mpr (not_lt.mp hge)
      have hpow : 2 ^ (a.toNat.size - k) ≤ a.toNat :=
        Nat.lt_size.mp (by omega)
      have hpos := Nat.div_pos hpow (Nat.two_pow_pos _)
      rw [hzero, eq_comm, Nat.mul_eq_zero] at hm
      rcases hm with h0 | h0
      · omega
      · exact absurd h0 (Nat.two_pow_pos _).ne'
  · intro hlt
    refine ⟨_, getCompact_eq hlt, ?_⟩
    rw [setCompact_packCompact hlt]
    exact truncates_value_encode a.toNat

theorem packCompact_mono
    {c d : Repr}
    (hd : d.size < 256)
    (hcm : c.mantissa < 2 ^ 23)
    (hdm : d.mantissa < 2 ^ 23)
    (h : c.le d) :
    packCompact c ≤ packCompact d := by
  have hc : c.size < 256 := by
    rcases h with h | h <;> omega
  rw [UInt32.le_iff_toNat_le, toNat_packCompact hc hcm, toNat_packCompact hd hdm]
  rcases h with h | ⟨h, hle⟩ <;> omega

theorem getCompact_mono
    {m n : UInt256}
    (hle : m ≤ n)
    (hn : n.toNat < 2 ^ 255) :
    ∃ c d, getCompact m = .ok c ∧ getCompact n = .ok d ∧ c ≤ d := by
  have hle' : m.toNat ≤ n.toNat := BitVec.le_def.mp hle
  have hsize : (compactFloat.encode n.toNat).size ≤ 33 :=
    compactFloat_size_le (k := 32) (lt_of_lt_of_le hn (by norm_num))
  refine ⟨_, _, getCompact_eq (hle'.trans_lt hn), getCompact_eq hn, ?_⟩
  exact packCompact_mono (by omega) (RadixFloat.mantissa_lt _) (RadixFloat.mantissa_lt _)
    (RadixFloat.encode_mono hle')

/-- A canonical target whose expansion fits has a size of at most 33 bytes, and
fewer below `2 ^ 255`. -/
theorem size_of_canonical
    {compact : UInt32}
    (hc : CanonicalCompact compact)
    (hfits : expansion compact < 2 ^ 256) :
    compact.toNat / 2 ^ 24 ≤ 33 ∧
      (compact.toNat / 2 ^ 24 = 33 → 2 ^ 255 ≤ expansion compact) ∧
      (compact.toNat / 2 ^ 24 < 33 → expansion compact < 2 ^ 255) := by
  rcases hc.2 with hzero | ⟨hlt, hle, -⟩
  · have hsize : compact.toNat / 2 ^ 24 = 0 := congrArg Repr.size hzero
    have hexp : expansion compact = 0 := by
      rw [expansion, hzero, RadixFloat.value, Nat.zero_mul, Nat.zero_div]
    omega
  change compact.toNat % 2 ^ 23 < 2 ^ 23 at hlt
  change 2 ^ 23 ≤ 256 * (compact.toNat % 2 ^ 23) at hle
  change compact.toNat % 2 ^ 23 * 256 ^ (compact.toNat / 2 ^ 24) / 256 ^ 3 < 2 ^ 256 at hfits
  change _ ∧ (_ → _ ≤ compact.toNat % 2 ^ 23 * 256 ^ (compact.toNat / 2 ^ 24) / 256 ^ 3) ∧
    (_ → compact.toNat % 2 ^ 23 * 256 ^ (compact.toNat / 2 ^ 24) / 256 ^ 3 < _)
  generalize compact.toNat % 2 ^ 23 = mantissa at hlt hle hfits ⊢
  generalize compact.toNat / 2 ^ 24 = size at hfits ⊢
  have hlow : ∀ k, k ≤ size → 2 ^ 15 * 256 ^ k ≤ mantissa * 256 ^ size := fun k hk =>
    Nat.mul_le_mul (by omega) (Nat.pow_le_pow_right (by omega) hk)
  rw [Nat.div_lt_iff_lt_mul (by norm_num)] at hfits
  refine ⟨?_, fun hsize => ?_, fun hsize => ?_⟩
  · by_contra hgt
    have h := hlow 34 (by omega)
    norm_num at h hfits
    omega
  · rw [Nat.le_div_iff_mul_le (by norm_num)]
    have h := hlow 33 hsize.ge
    norm_num at h ⊢
    omega
  · rw [Nat.div_lt_iff_lt_mul (by norm_num)]
    have h : mantissa * 256 ^ size < 2 ^ 23 * 256 ^ 32 :=
      Nat.mul_lt_mul_of_lt_of_le hlt (Nat.pow_le_pow_right (by omega) (by omega)) (by norm_num)
    norm_num at h ⊢
    omega

theorem getCompact_setCompact_iff
    {compact : UInt32}
    (hc : CanonicalCompact compact)
    (hfits : expansion compact < 2 ^ 256) :
    getCompact (setCompact compact) = .ok compact ↔ compact < 0x21000000 := by
  obtain ⟨hle, hge, hlt⟩ := size_of_canonical hc hfits
  have hset : (setCompact compact).toNat = expansion compact := by
    rw [toNat_setCompact (by omega), Nat.mod_eq_of_lt hfits]
  have hcmp : compact < 0x21000000 ↔ compact.toNat / 2 ^ 24 < 33 := by
    rw [UInt32.lt_iff_toNat_lt]
    change compact.toNat < 33 * 2 ^ 24 ↔ _
    omega
  rw [hcmp]
  constructor
  · intro hget
    by_contra hsize
    rcases getCompact_of_ge (hset ▸ hge (by omega)) with h | h
    · rw [h] at hget
      cases hget
    · rw [h] at hget
      cases hget
      exact hsize (by decide)
  · intro hsize
    rw [getCompact_eq (hset ▸ hlt hsize), hset, expansion, RadixFloat.encode_value hc.2,
      packCompact_compactRepr hc.1]

/--
**When the compact format is a codec.**  A number is read back with its last
bits cleared if and only if its top bit is clear, a canonical target that fits
is encoded again if and only if it is below `0x21000000`, and `getCompact` is
monotone below `2 ^ 255`.
-/
theorem compact_codec_iff
    (a : UInt256)
    {compact : UInt32}
    (hc : CanonicalCompact compact)
    (hfits : expansion compact < 2 ^ 256)
    {m n : UInt256}
    (hle : m ≤ n)
    (hn : n.toNat < 2 ^ 255) :
    (ReadsBack a ↔ a.toNat < 2 ^ 255) ∧
      (getCompact (setCompact compact) = .ok compact ↔ compact < 0x21000000) ∧
      ∃ c d, getCompact m = .ok c ∧ getCompact n = .ok d ∧ c ≤ d :=
  ⟨readsBack_iff a, getCompact_setCompact_iff hc hfits, getCompact_mono hle hn⟩

/-- The least difficult target of the main network is encoded again. -/
theorem compact_codec_maxProofOfWork :
    getCompact (setCompact 0x1e00ffff) = .ok 0x1e00ffff := by
  have hcanonical : CanonicalCompact 0x1e00ffff := ⟨by decide, Or.inr (by decide)⟩
  have hle : (0 : UInt256) ≤ 1 := by
    decide
  exact (compact_codec_iff 0 hcanonical (by decide) hle (by decide)).2.1.mpr (by decide)

/-- On the odd number `2 ^ 255 + 1` the assertion of `getCompact` fails. -/
theorem not_readsBack_top_bit :
    ¬ ReadsBack (1 <<< 255 + 1) := by
  rw [readsBack_iff]
  decide

end Codec

end UInt256

end BreadwalletCore
