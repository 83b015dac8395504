import BreadwalletCore.Mnemonic

/-!
# The bits of a recovery phrase

The entropy and the checksum in front of each other are one number.  Its digits
in base 2048 are the indices of the words, and without the checksum its digits
in base 256 are the entropy.
-/

namespace BreadwalletCore

namespace Mnemonic

open Segment (slice)

/-- The number with these bytes, the most significant one first. -/
def bigEndian (l : List UInt8) : ℕ :=
  Digits.value 256 (l.map UInt8.toNat)

theorem toNat_lt_of_mem_map
    (l : List UInt8) :
    ∀ d ∈ l.map UInt8.toNat, d < 256 := by
  intro d hd
  obtain ⟨b, -, rfl⟩ := List.mem_map.mp hd
  exact b.toNat_lt

theorem bigEndian_lt
    (l : List UInt8) :
    bigEndian l < 2 ^ (8 * l.length) := by
  have hlt := Digits.value_lt (b := 256) (by omega) (toNat_lt_of_mem_map l)
  rwa [List.length_map, show (256 : ℕ) = 2 ^ 8 by rfl, ← pow_mul] at hlt

theorem bigEndian_append
    (l₁ l₂ : List UInt8) :
    bigEndian (l₁ ++ l₂) = bigEndian l₁ * 2 ^ (8 * l₂.length) + bigEndian l₂ := by
  rw [bigEndian, List.map_append, Digits.value_append, List.length_map, pow_mul]
  rfl

/-- The first `n` bits of the hash. -/
def checksumBits (hash : List UInt8) (n : ℕ) : ℕ :=
  (hash.getD 0 0).toNat >>> (8 - n)

theorem checksumBits_lt
    (hash : List UInt8)
    {n : ℕ}
    (hn : n ≤ 8) :
    checksumBits hash n < 2 ^ n := by
  have hbyte : (hash.getD 0 0).toNat < 2 ^ 8 := UInt8.toNat_lt _
  rw [checksumBits, Nat.shiftRight_eq_div_pow]
  refine Nat.div_lt_of_lt_mul ?_
  rwa [← pow_add, Nat.sub_add_cancel hn]

/-- Word `i` of the phrase is some bits in a row. -/
theorem wordIndex_eq
    {buf : List UInt8} {i : ℕ}
    (hi : i * 11 / 8 + 4 ≤ buf.length) :
    wordIndex buf i = bigEndian buf / 2 ^ (8 * buf.length - 11 * (i + 1)) % 2048 := by
  have hword : uint32GetBE buf (i * 11 / 8) =
      bigEndian buf / 2 ^ (8 * (buf.length - (i * 11 / 8 + 4))) % 2 ^ 32 := by
    rw [uint32GetBE, slice, List.map_take, List.map_drop]
    have hslice := Digits.value_slice (b := 256) (by omega) (toNat_lt_of_mem_map buf)
      (show i * 11 / 8 + 4 ≤ (buf.map UInt8.toNat).length by rwa [List.length_map])
    rw [slice, List.length_map] at hslice
    rw [hslice, pow_mul]
    rfl
  have hexp : 8 * (buf.length - (i * 11 / 8 + 4)) + (32 - (11 + i * 11 % 8)) =
      8 * buf.length - 11 * (i + 1) := by
    omega
  rw [wordIndex, hword, Nat.shiftRight_eq_div_pow, show 2048 = 2 ^ 11 by rfl,
    Digits.bits_of_bits _ (by omega), hexp]

/-- The indices of the words of a phrase. -/
theorem map_wordIndex
    {data hash : List UInt8} {k : ℕ}
    (hk : k ≤ 8)
    (hdata : data.length = 4 * k)
    (hhash : hash.length = 32) :
    (List.range (3 * k)).map (wordIndex (data ++ hash)) =
      Digits.digits 2048 (bigEndian data * 2 ^ k + checksumBits hash k) (3 * k) := by
  have hbits : bigEndian (data ++ hash) / 2 ^ (256 - k) =
      bigEndian data * 2 ^ k + checksumBits hash k := by
    obtain ⟨h, rest, rfl⟩ := List.exists_cons_of_length_pos (show 0 < hash.length by omega)
    have hrest : rest.length = 31 := by
      simpa using hhash
    have hsplit : bigEndian (data ++ h :: rest) =
        2 ^ 248 * (bigEndian data * 2 ^ 8 + h.toNat) + bigEndian rest := by
      rw [bigEndian_append, ← List.singleton_append, bigEndian_append, List.length_append, hrest,
        List.length_singleton, show bigEndian [h] = h.toNat from Digits.value_singleton _ _]
      ring
    have hlow : bigEndian rest < 2 ^ 248 := by
      have hlt := bigEndian_lt rest
      rwa [hrest] at hlt
    have hexp : 256 - k = 248 + (8 - k) := by
      omega
    have hpow : (2 : ℕ) ^ 8 = 2 ^ (8 - k) * 2 ^ k := by
      rw [← pow_add, Nat.sub_add_cancel hk]
    rw [hexp, pow_add, ← Nat.div_div_eq_div_mul, hsplit, Nat.mul_add_div (by positivity),
      Nat.div_eq_of_lt hlow, Nat.add_zero, checksumBits, Nat.shiftRight_eq_div_pow, hpow,
      show bigEndian data * (2 ^ (8 - k) * 2 ^ k) = 2 ^ (8 - k) * (bigEndian data * 2 ^ k) by ring,
      Nat.mul_add_div (by positivity)]
    rfl
  refine List.map_congr_left (fun i hi => ?_)
  have hik : i < 3 * k := List.mem_range.mp hi
  have hlen : (data ++ hash).length = 4 * k + 32 := by
    rw [List.length_append, hdata, hhash]
  have hexp : 8 * (4 * k + 32) - 11 * (i + 1) = (256 - k) + 11 * (3 * k - (i + 1)) := by
    omega
  rw [wordIndex_eq (by omega), hlen, hexp, pow_add, ← Nat.div_div_eq_div_mul, hbits,
    show (2048 : ℕ) = 2 ^ 11 by rfl, ← pow_mul]

/-- A byte of the decoded phrase is some bits in a row. -/
theorem decodeByte_eq
    {idx : List ℕ} {i : ℕ}
    (hidx : ∀ x ∈ idx, x < 2048)
    (hi : i * 8 < idx.length * 11) :
    (decodeByte idx i).toNat =
      2048 * Digits.value 2048 idx / 2 ^ (11 * (idx.length + 1) - 8 * (i + 1)) % 256 := by
  have hp : i * 8 / 11 < idx.length := by
    omega
  have hpadded : ∀ x ∈ idx ++ [0], x < 2048 := by
    intro x hx
    rcases List.mem_append.mp hx with hx | hx
    · exact hidx x hx
    · rw [List.mem_singleton.mp hx]
      omega
  have hpair : slice (idx ++ [0]) (i * 8 / 11) 2 =
      [idx.getD (i * 8 / 11) 0,
        if i * 8 / 11 + 1 < idx.length then idx.getD (i * 8 / 11 + 1) 0 else 0] := by
    rw [slice, List.drop_append_of_le_length hp.le, List.drop_eq_getElem_cons hp,
      List.getD_eq_getElem _ _ hp]
    split
    · rename_i hnext
      rw [List.drop_eq_getElem_cons hnext, List.getD_eq_getElem _ _ hnext]
      rfl
    · rw [List.drop_of_length_le (by omega)]
      rfl
  have hvalue := Digits.value_slice (b := 2048) (by omega) hpadded
    (show i * 8 / 11 + 2 ≤ _ by rw [List.length_append, List.length_singleton]; omega)
  rw [hpair, Digits.value_cons, Digits.value_singleton, List.length_singleton, pow_one,
    List.length_append, List.length_singleton, Digits.value_append, Digits.value_singleton,
    List.length_singleton, pow_one, Nat.add_zero, show (2048 : ℕ) = 2 ^ 11 by rfl, ← pow_mul,
    ← pow_mul] at hvalue
  have hexp : 11 * (idx.length + 1 - (i * 8 / 11 + 2)) + ((i * 8 / 11 + 2) * 11 - (i + 1) * 8) =
      11 * (idx.length + 1) - 8 * (i + 1) := by
    omega
  rw [decodeByte, UInt8.toNat_ofNat', Nat.mod_mod, show (2048 : ℕ) = 2 ^ 11 by rfl, hvalue,
    Nat.shiftRight_eq_div_pow, show (256 : ℕ) = 2 ^ 8 by rfl,
    Digits.bits_of_bits _ (by omega), hexp, Nat.mul_comm, Nat.add_zero]

/-- The bytes with the given digits. -/
def toBytes (n k : ℕ) : List UInt8 :=
  (Digits.digits 256 n k).map UInt8.ofNat

@[simp] theorem length_toBytes
    (n k : ℕ) :
    (toBytes n k).length = k := by
  rw [toBytes, List.length_map, Digits.length_digits]

theorem map_toNat_toBytes
    (n k : ℕ) :
    (toBytes n k).map UInt8.toNat = Digits.digits 256 n k := by
  rw [toBytes, List.map_map]
  refine (List.map_congr_left (fun d hd => ?_)).trans (List.map_id _)
  have hlt : d < 256 := Digits.digits_lt (by omega) n k d hd
  rw [Function.comp_apply, UInt8.toNat_ofNat', Nat.mod_eq_of_lt hlt]
  rfl

theorem bigEndian_toBytes
    (n k : ℕ) :
    bigEndian (toBytes n k) = n % 2 ^ (8 * k) := by
  rw [bigEndian, map_toNat_toBytes, Digits.value_digits, pow_mul]
  rfl

theorem toBytes_bigEndian
    (l : List UInt8) :
    toBytes (bigEndian l) l.length = l := by
  have hdigits := Digits.digits_value (b := 256) (by omega) (toNat_lt_of_mem_map l)
  rw [List.length_map] at hdigits
  rw [toBytes, bigEndian, hdigits, List.map_map]
  refine (List.map_congr_left (fun b _ => ?_)).trans (List.map_id _)
  rw [Function.comp_apply, UInt8.ofNat_toNat]
  rfl

variable {idx : List ℕ} {k : ℕ}

/-- The byte with the checksum, `k` bits in front of zeros. -/
theorem checksumByte_eq
    (n : ℕ)
    (hk : k ≤ 8) :
    2048 * n / 2 ^ (3 + k) % 256 = n % 2 ^ k * 2 ^ (8 - k) := by
  have hpow : (256 : ℕ) = 2 ^ (8 - k) * 2 ^ k := by
    rw [← pow_add, Nat.sub_add_cancel hk]
    rfl
  have hsplit : 2048 * n = 2 ^ 3 * (2 ^ k * (2 ^ (8 - k) * n)) := by
    rw [show (2048 : ℕ) = 2 ^ 3 * 256 by rfl, hpow]
    ring
  rw [hsplit, pow_add, ← Nat.div_div_eq_div_mul, Nat.mul_div_cancel_left _ (by positivity),
    Nat.mul_div_cancel_left _ (by positivity), hpow, Nat.mul_mod_mul_left, Nat.mul_comm]

theorem checksumByte_lt
    (n : ℕ)
    (hk : k ≤ 8) :
    n % 2 ^ k * 2 ^ (8 - k) < 256 := by
  rw [← checksumByte_eq n hk]
  exact Nat.mod_lt _ (by omega)

/-- The entropy, and in the last byte the checksum. -/
theorem decodeBytes_eq
    (hidx : ∀ x ∈ idx, x < 2048)
    (hlen : idx.length = 3 * k)
    (hpos : 0 < k)
    (hk : k ≤ 8) :
    decodeBytes idx =
      toBytes (Digits.value 2048 idx / 2 ^ k) (4 * k) ++
        [UInt8.ofNat (Digits.value 2048 idx % 2 ^ k * 2 ^ (8 - k))] := by
  have hcount : (idx.length * 11 + 7) / 8 = 4 * k + 1 := by
    omega
  rw [decodeBytes, hcount, List.range_succ, List.map_append, List.map_singleton]
  congr 1
  · rw [toBytes, Digits.digits, List.map_map]
    refine List.map_congr_left (fun i hi => ?_)
    have hik : i < 4 * k := List.mem_range.mp hi
    have hexp : 11 * (idx.length + 1) - 8 * (i + 1) = 11 + (k + 8 * (4 * k - (i + 1))) := by
      omega
    have hpow : (256 : ℕ) ^ (4 * k - (i + 1)) = 2 ^ (8 * (4 * k - (i + 1))) := by
      rw [pow_mul]
      rfl
    apply UInt8.toNat_inj.mp
    rw [decodeByte_eq hidx (by omega), hexp, Function.comp_apply, UInt8.toNat_ofNat', Nat.mod_mod,
      hpow, pow_add, pow_add, ← Nat.div_div_eq_div_mul, ← Nat.div_div_eq_div_mul]
    rw [show 2048 * Digits.value 2048 idx / 2 ^ 11 = Digits.value 2048 idx from
      Nat.mul_div_cancel_left _ (by omega)]
  · congr 1
    have hexp : 11 * (idx.length + 1) - 8 * (4 * k + 1) = 3 + k := by
      omega
    apply UInt8.toNat_inj.mp
    rw [decodeByte_eq hidx (by omega), hexp, UInt8.toNat_ofNat', checksumByte_eq _ hk,
      Nat.mod_eq_of_lt (checksumByte_lt _ hk)]

/-- The bytes the hash is computed of. -/
theorem take_decodeBytes
    (hidx : ∀ x ∈ idx, x < 2048)
    (hlen : idx.length = 3 * k)
    (hpos : 0 < k)
    (hk : k ≤ 8) :
    (decodeBytes idx).take (idx.length * 4 / 3) =
      toBytes (Digits.value 2048 idx / 2 ^ k) (4 * k) := by
  have hcount : idx.length * 4 / 3 = 4 * k := by
    omega
  rw [decodeBytes_eq hidx hlen hpos hk, hcount]
  exact List.take_left' (length_toBytes _ _)

theorem checksumOk_iff
    (sha256 : List UInt8 → UInt256)
    (hidx : ∀ x ∈ idx, x < 2048)
    (hlen : idx.length = 3 * k)
    (hpos : 0 < k)
    (hk : k ≤ 8) :
    checksumOk sha256 idx = true ↔
      Digits.value 2048 idx % 2 ^ k =
        checksumBits (hashBytes (sha256 (toBytes (Digits.value 2048 idx / 2 ^ k) (4 * k)))) k := by
  have hdiv : idx.length / 3 = k := by
    omega
  have hlast : (UInt8.ofNat (Digits.value 2048 idx % 2 ^ k * 2 ^ (8 - k))).toNat >>> (8 - k) =
      Digits.value 2048 idx % 2 ^ k := by
    rw [UInt8.toNat_ofNat', Nat.mod_eq_of_lt (checksumByte_lt _ hk), Nat.shiftRight_eq_div_pow,
      Nat.mul_div_cancel _ (by positivity)]
  rw [checksumOk, take_decodeBytes hidx hlen hpos hk, decodeBytes_eq hidx hlen hpos hk,
    List.getLast?_concat, Option.getD_some, hdiv, beq_iff_eq, hlast]
  rfl

/-- The indices of the words for some entropy. -/
def indices (sha256 : List UInt8 → UInt256) (data : List UInt8) (k : ℕ) : List ℕ :=
  Digits.digits 2048
    (bigEndian data * 2 ^ k + checksumBits (hashBytes (sha256 data)) k) (3 * k)

theorem length_indices
    (sha256 : List UInt8 → UInt256) (data : List UInt8) (k : ℕ) :
    (indices sha256 data k).length = 3 * k :=
  Digits.length_digits _ _ _

theorem indices_lt
    (sha256 : List UInt8 → UInt256) (data : List UInt8) (k : ℕ) :
    ∀ x ∈ indices sha256 data k, x < 2048 :=
  Digits.digits_lt (by omega) _ _

theorem value_indices
    (sha256 : List UInt8 → UInt256)
    {data : List UInt8}
    (hdata : data.length = 4 * k)
    (hk : k ≤ 8) :
    Digits.value 2048 (indices sha256 data k) =
      bigEndian data * 2 ^ k + checksumBits (hashBytes (sha256 data)) k := by
  have hlow : checksumBits (hashBytes (sha256 data)) k < 2 ^ k := checksumBits_lt _ hk
  have hhigh : bigEndian data < 2 ^ (32 * k) := by
    have hlt := bigEndian_lt data
    rwa [hdata, show 8 * (4 * k) = 32 * k by ring] at hlt
  have hpow : (2048 : ℕ) ^ (3 * k) = 2 ^ (32 * k) * 2 ^ k := by
    rw [← pow_add, show (2048 : ℕ) = 2 ^ 11 by rfl, ← pow_mul]
    congr 1
    ring
  rw [indices, Digits.value_digits]
  refine Nat.mod_eq_of_lt ?_
  calc bigEndian data * 2 ^ k + checksumBits (hashBytes (sha256 data)) k
      < bigEndian data * 2 ^ k + 2 ^ k := by omega
    _ = (bigEndian data + 1) * 2 ^ k := by ring
    _ ≤ 2 ^ (32 * k) * 2 ^ k := Nat.mul_le_mul_right _ hhigh
    _ = 2048 ^ (3 * k) := hpow.symm

/-- **The bits of a phrase.**  Indices have the right checksum exactly if they
are the indices for the entropy they are decoded to. -/
theorem checksumOk_iff_indices
    (sha256 : List UInt8 → UInt256)
    (hidx : ∀ x ∈ idx, x < 2048)
    (hlen : idx.length = 3 * k)
    (hpos : 0 < k)
    (hk : k ≤ 8) :
    checksumOk sha256 idx = true ↔
      idx = indices sha256 ((decodeBytes idx).take (idx.length * 4 / 3)) k := by
  rw [checksumOk_iff sha256 hidx hlen hpos hk, take_decodeBytes hidx hlen hpos hk]
  have hvalue : Digits.value 2048 idx < 2 ^ (33 * k) := by
    have hlt := Digits.value_lt (b := 2048) (by omega) hidx
    rwa [hlen, show (2048 : ℕ) = 2 ^ 11 by rfl, ← pow_mul, show 11 * (3 * k) = 33 * k by ring] at hlt
  have hhigh : bigEndian (toBytes (Digits.value 2048 idx / 2 ^ k) (4 * k)) =
      Digits.value 2048 idx / 2 ^ k := by
    rw [bigEndian_toBytes]
    refine Nat.mod_eq_of_lt (Nat.div_lt_of_lt_mul ?_)
    rwa [← pow_add, show k + 8 * (4 * k) = 33 * k by ring]
  have hiff := value_indices sha256 (length_toBytes (Digits.value 2048 idx / 2 ^ k) (4 * k)) hk
  rw [hhigh] at hiff
  have hdivmod := Nat.div_add_mod' (Digits.value 2048 idx) (2 ^ k)
  constructor
  · intro hcheck
    refine Digits.value_inj (b := 2048) (by omega) (by rw [hlen, length_indices]) hidx
      (indices_lt _ _ _) ?_
    rw [hiff, ← hcheck, hdivmod]
  · intro heq
    rw [← heq] at hiff
    omega

/-- The entropy comes back. -/
theorem take_decodeBytes_indices
    (sha256 : List UInt8 → UInt256)
    {data : List UInt8}
    (hdata : data.length = 4 * k)
    (hpos : 0 < k)
    (hk : k ≤ 8) :
    (decodeBytes (indices sha256 data k)).take ((indices sha256 data k).length * 4 / 3) = data := by
  rw [take_decodeBytes (indices_lt _ _ _) (length_indices _ _ _) hpos hk,
    value_indices sha256 hdata hk, Nat.mul_comm, Nat.mul_add_div (by positivity),
    Nat.div_eq_of_lt (checksumBits_lt _ hk), Nat.add_zero, ← hdata, toBytes_bigEndian]

end Mnemonic

end BreadwalletCore
