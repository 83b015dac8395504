import BreadwalletCore.Address.Base58

/-!
# The buffers of Base58

The inner loops of `BRBase58Encode` and `BRBase58Decode` work in a buffer whose
size is a fraction of the length, rounded.  The carry is zero at the end of
every one of them, and the length returned is the number of bytes written.
-/

namespace BreadwalletCore

open Digits (mulAdd convert strip leadingZeros carries)

namespace Base58

/-- The carries at the end of the inner loop of `BRBase58Encode`. -/
def encodeCarries (data : List UInt8) : List ℕ :=
  let zcount := (data.takeWhile (· = 0)).length
  carries 256 58 (List.replicate ((data.length - zcount) * 138 / 100 + 1) 0)
    (byteDigits (data.drop zcount))

/-- The carries at the end of the inner loop of the second loop of
`BRBase58Decode`. -/
def decodeLoopCarries (buf : List ℕ) : List UInt8 → List ℕ
  | [] => []
  | c :: str =>
      if base58Digit c ≥ 58 then []
      else (mulAdd 256 58 buf (base58Digit c)).2 ::
        decodeLoopCarries (mulAdd 256 58 buf (base58Digit c)).1 str

/-- The carries at the end of the inner loop of `BRBase58Decode`. -/
def decodeCarries (str : List UInt8) : List ℕ :=
  let rest := str.drop (str.takeWhile (· = one)).length
  decodeLoopCarries (List.replicate (rest.length * 733 / 1000 + 1) 0) rest

/-- `len` of `BRBase58Encode`. -/
def encodeLen (data : List UInt8) : ℕ :=
  let zcount := (data.takeWhile (· = 0)).length
  let buf := convert 256 58 ((data.drop zcount).map UInt8.toNat)
    ((data.length - zcount) * 138 / 100 + 1)
  zcount + buf.length - leadingZeros buf + 1

/-- `len` of `BRBase58Decode`. -/
def decodeLen (str : List UInt8) : ℕ :=
  let zcount := (str.takeWhile (· = one)).length
  let rest := str.drop zcount
  let buf := decodeLoop (List.replicate (rest.length * 733 / 1000 + 1) 0) rest
  zcount + buf.length - leadingZeros buf

/-! ## Room for the result -/

theorem value_replicate_zero
    (b k : ℕ) :
    Digits.value b (List.replicate k 0) = 0 := by
  rw [← List.append_nil (List.replicate k 0), Digits.value_replicate_zero_append,
    Digits.value_nil]

theorem encodeCarries_eq_zero
    (data : List UInt8) :
    ∀ carry ∈ encodeCarries data, carry = 0 := by
  refine Digits.carries_eq_zero (by omega) ?_
  rw [value_replicate_zero, Nat.zero_mul, Nat.zero_add, List.length_replicate]
  have hlt := Digits.value_lt (b := 256) (by omega)
    (byteDigits_lt (data.drop (data.takeWhile (· = 0)).length))
  rw [byteDigits, List.length_map, List.length_drop] at hlt
  exact lt_of_lt_of_le hlt (pow_le_encode _)

/-- The loop stops at a character outside the alphabet. -/
theorem decodeLoopCarries_eq
    (buf : List ℕ) (s : List UInt8) :
    decodeLoopCarries buf s = carries 58 256 buf (charDigits (alphabetPart s)) := by
  induction s generalizing buf with
  | nil =>
      rfl
  | cons c s ih =>
      rw [decodeLoopCarries, alphabetPart]
      by_cases hc : c ∈ base58chars
      · have hlt := (base58Digit_lt_iff c).mpr hc
        rw [if_neg (by omega), ih, List.takeWhile_cons_of_pos (by simpa using hc)]
        rfl
      · have hge := mt (base58Digit_lt_iff c).mp hc
        rw [if_pos (by omega), List.takeWhile_cons_of_neg (by simpa using hc)]
        rfl

theorem decodeCarries_eq_zero
    (s : List UInt8) :
    ∀ carry ∈ decodeCarries s, carry = 0 := by
  obtain ⟨rest, hrest⟩ : ∃ rest, s.drop (s.takeWhile (· = one)).length = rest := ⟨_, rfl⟩
  rw [decodeCarries, hrest, decodeLoopCarries_eq]
  refine Digits.carries_eq_zero (by omega) ?_
  rw [value_replicate_zero, Nat.zero_mul, Nat.zero_add, List.length_replicate]
  have hlt := Digits.value_lt (b := 58) (by omega) (charDigits_lt (alphabetPart_mem rest))
  have hle : (charDigits (alphabetPart rest)).length ≤ rest.length := by
    rw [charDigits, List.length_map]
    exact (List.takeWhile_prefix _).length_le
  calc Digits.value 58 (charDigits (alphabetPart rest))
      < 58 ^ (charDigits (alphabetPart rest)).length := hlt
    _ ≤ 58 ^ rest.length := Nat.pow_le_pow_right (by omega) hle
    _ ≤ _ := pow_le_decode _

/-! ## The length returned -/

theorem length_strip
    (l : List ℕ) :
    (strip l).length = l.length - leadingZeros l := by
  rw [← Digits.drop_leadingZeros, List.length_drop]

theorem leadingZeros_le
    (l : List ℕ) :
    leadingZeros l ≤ l.length :=
  (List.takeWhile_sublist _).length_le

theorem encodeLen_eq
    (data : List UInt8) :
    encodeLen data = (BRBase58Encode data).length := by
  have hle := leadingZeros_le (convert 256 58
    ((data.drop (data.takeWhile (· = 0)).length).map UInt8.toNat)
    ((data.length - (data.takeWhile (· = 0)).length) * 138 / 100 + 1))
  rw [encodeLen, BRBase58Encode]
  simp only [List.length_append, List.length_replicate, List.length_map, length_strip,
    List.length_singleton]
  omega

theorem decodeLen_eq
    (s : List UInt8) :
    decodeLen s = (BRBase58Decode s).length := by
  have hle := leadingZeros_le (decodeLoop (List.replicate
    ((s.drop (s.takeWhile (· = one)).length).length * 733 / 1000 + 1) 0)
    (s.drop (s.takeWhile (· = one)).length))
  rw [decodeLen, BRBase58Decode]
  simp only [List.length_append, List.length_replicate, List.length_map, length_strip]
  omega

/-- What is written, into a buffer that has room for it. -/
theorem writeOut_some
    {l buf : List UInt8}
    (h : (writeOut l none).2 ≤ buf.length) :
    writeOut l (some buf) = (some (l ++ buf.drop l.length), (writeOut l none).2) := by
  have hle : l.length ≤ buf.length := h
  exact if_pos hle

/-- **The codec.**  The two functions undo each other, no carry is left when an
inner loop ends, and `NULL` gives the number of bytes that are written. -/
theorem base58_spec :
    (∀ data : List UInt8, BRBase58Decode ((BRBase58Encode data).takeWhile (· ≠ 0)) = data) ∧
    (∀ s : List UInt8, (∀ c ∈ s, c ∈ base58chars) →
      BRBase58Encode (BRBase58Decode s) = s ++ [0]) ∧
    (∀ data, ∀ carry ∈ encodeCarries data, carry = 0) ∧
    (∀ s, ∀ carry ∈ decodeCarries s, carry = 0) ∧
    (∀ data buf : List UInt8, encodeLen data ≤ buf.length →
      writeOut (BRBase58Encode data) (some buf) =
        (some (BRBase58Encode data ++ buf.drop (encodeLen data)),
          (writeOut (BRBase58Encode data) none).2) ∧
      (writeOut (BRBase58Encode data) none).2 = encodeLen data) ∧
    (∀ s buf : List UInt8, decodeLen s ≤ buf.length →
      writeOut (BRBase58Decode s) (some buf) =
        (some (BRBase58Decode s ++ buf.drop (decodeLen s)),
          (writeOut (BRBase58Decode s) none).2) ∧
      (writeOut (BRBase58Decode s) none).2 = decodeLen s) := by
  refine ⟨?_, ?_, encodeCarries_eq_zero, decodeCarries_eq_zero, ?_, ?_⟩
  · intro data
    refine decode_encoding ?_
    have hne : ∀ c ∈ encoding data, decide (c ≠ 0) = true := by
      intro c hc
      rw [decide_eq_true_eq]
      rintro rfl
      exact absurd (encoding_mem data 0 hc) (by decide)
    rw [BRBase58Encode_eq]
    change alphabetPart ((encoding data ++ [0]).takeWhile (· ≠ 0)) = encoding data
    rw [List.takeWhile_append_of_pos hne, List.takeWhile_cons_of_neg (by decide),
      List.append_nil, alphabetPart_of_mem (encoding_mem data)]
  · intro s hs
    rw [BRBase58Encode_eq]
    change encoding (BRBase58Decode s) ++ [0] = s ++ [0]
    rw [encoding_decode, alphabetPart_of_mem hs]
  · intro data buf hlen
    rw [encodeLen_eq] at hlen ⊢
    exact ⟨writeOut_some hlen, rfl⟩
  · intro s buf hlen
    rw [decodeLen_eq] at hlen ⊢
    exact ⟨writeOut_some hlen, rfl⟩

theorem base58_spec_digits :
    BRBase58Encode (BRBase58Decode [0x31, 0x32, 0x33]) = [0x31, 0x32, 0x33, 0] :=
  base58_spec.2.1 [0x31, 0x32, 0x33] (by decide +kernel)

end Base58

end BreadwalletCore
