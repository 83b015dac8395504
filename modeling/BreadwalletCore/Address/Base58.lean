import BreadwalletCore.Data.Digits
import BreadwalletCore.Transaction.Wire

/-!
# Base58

`BRBase58.c`.  A C string is the list of its bytes in front of the NUL, and a
function with a buffer and its length is the list of the bytes it has to write
(`writeOut` is what it does with them).

`BRBase58Decode` stops at the first character outside the alphabet and keeps
what it has read so far.  Apart from that the two functions are conversions
between the bases 58 and 256 that keep the number of leading zeros.
-/

namespace BreadwalletCore

open Segment (slice)
open Digits (mulAdd convert strip leadingZeros numeral recode)

/-- The bytes to write, and a buffer or `NULL`: the buffer afterwards and the
value returned. -/
def writeOut (l : List UInt8) : Option (List UInt8) → Option (List UInt8) × ℕ
  | none => (none, l.length)
  | some buf =>
      if l.length ≤ buf.length then (some (l ++ buf.drop l.length), l.length) else (some buf, 0)

namespace Base58

/-- `base58chars`. -/
def base58chars : List UInt8 :=
  [0x31, 0x32, 0x33, 0x34, 0x35, 0x36, 0x37, 0x38, 0x39,
    0x41, 0x42, 0x43, 0x44, 0x45, 0x46, 0x47, 0x48, 0x4a, 0x4b, 0x4c, 0x4d, 0x4e,
    0x50, 0x51, 0x52, 0x53, 0x54, 0x55, 0x56, 0x57, 0x58, 0x59, 0x5a,
    0x61, 0x62, 0x63, 0x64, 0x65, 0x66, 0x67, 0x68, 0x69, 0x6a, 0x6b,
    0x6d, 0x6e, 0x6f, 0x70, 0x71, 0x72, 0x73, 0x74, 0x75, 0x76, 0x77, 0x78, 0x79, 0x7a]

/-- `base58chars[0]`. -/
def one : UInt8 := 0x31

/-- The `switch` of `BRBase58Decode`, on a character. -/
def base58Digit (c : UInt8) : ℕ :=
  if 0x31 ≤ c ∧ c ≤ 0x39 then c.toNat - 0x31
  else if 0x41 ≤ c ∧ c ≤ 0x48 then c.toNat + 9 - 0x41
  else if 0x4a ≤ c ∧ c ≤ 0x4e then c.toNat + 17 - 0x4a
  else if 0x50 ≤ c ∧ c ≤ 0x5a then c.toNat + 22 - 0x50
  else if 0x61 ≤ c ∧ c ≤ 0x6b then c.toNat + 33 - 0x61
  else if 0x6d ≤ c ∧ c ≤ 0x7a then c.toNat + 44 - 0x6d
  else 2 ^ 32 - 1

/-- `BRBase58Encode`: the string with its NUL. -/
def BRBase58Encode (data : List UInt8) : List UInt8 :=
  let zcount := (data.takeWhile (· = 0)).length
  let buf := convert 256 58 ((data.drop zcount).map UInt8.toNat)
    ((data.length - zcount) * 138 / 100 + 1)
  List.replicate zcount one ++ (strip buf).map (fun d => base58chars.getD d 0) ++ [0]

/-- The second loop of `BRBase58Decode`, on `buf` and `str`. -/
def decodeLoop (buf : List ℕ) : List UInt8 → List ℕ
  | [] => buf
  | c :: str =>
      if base58Digit c ≥ 58 then buf
      else decodeLoop (mulAdd 256 58 buf (base58Digit c)).1 str

/-- `BRBase58Decode`. -/
def BRBase58Decode (str : List UInt8) : List UInt8 :=
  let zcount := (str.takeWhile (· = one)).length
  let rest := str.drop zcount
  let buf := decodeLoop (List.replicate (rest.length * 733 / 1000 + 1) 0) rest
  List.replicate zcount 0 ++ (strip buf).map UInt8.ofNat

/-- `BRBase58CheckEncode`: the string with its NUL. -/
def BRBase58CheckEncode (sha256d : List UInt8 → UInt256) (data : List UInt8) : List UInt8 :=
  BRBase58Encode (data ++ (hashBytes (sha256d data)).take 4)

/-- `BRBase58CheckDecode`, whose own buffer is as long as the string. -/
def BRBase58CheckDecode (sha256d : List UInt8 → UInt256) (str : List UInt8) : List UInt8 :=
  let r := writeOut (BRBase58Decode str) (some (List.replicate str.length 0))
  let buf := r.1.getD []
  if 4 ≤ r.2 then
    let len := r.2 - 4
    if slice buf len 4 ≠ (hashBytes (sha256d (buf.take len))).take 4 then [] else buf.take len
  else []

/-! ## Digits and characters -/

/-- The characters and their digits. -/
theorem base58Digit_spec :
    ∀ n < 256, (base58Digit (UInt8.ofNat n) < 58 ↔ UInt8.ofNat n ∈ base58chars) ∧
      (base58Digit (UInt8.ofNat n) < 58 →
        base58chars.getD (base58Digit (UInt8.ofNat n)) 0 = UInt8.ofNat n) := by
  decide +kernel

theorem base58Digit_getD :
    ∀ d < 58, base58Digit (base58chars.getD d 0) = d := by
  decide +kernel

theorem base58Digit_lt_iff
    (c : UInt8) :
    base58Digit c < 58 ↔ c ∈ base58chars := by
  have hspec := (base58Digit_spec c.toNat c.toNat_lt).1
  rwa [UInt8.ofNat_toNat] at hspec

theorem getD_base58Digit
    {c : UInt8}
    (hc : c ∈ base58chars) :
    base58chars.getD (base58Digit c) 0 = c := by
  have hspec := (base58Digit_spec c.toNat c.toNat_lt).2
  rw [UInt8.ofNat_toNat] at hspec
  exact hspec ((base58Digit_lt_iff c).mpr hc)

theorem getD_mem_base58chars
    {d : ℕ}
    (hd : d < 58) :
    base58chars.getD d 0 ∈ base58chars := by
  rw [← base58Digit_lt_iff, base58Digit_getD d hd]
  exact hd

theorem base58Digit_eq_zero_iff
    (c : UInt8) :
    base58Digit c = 0 ↔ c = one := by
  constructor
  · intro hzero
    have hmem := (base58Digit_lt_iff c).mp (by omega)
    have hchar := getD_base58Digit hmem
    rw [hzero] at hchar
    exact hchar.symm
  · rintro rfl
    rfl

/-- The characters for some digits. -/
def chars (l : List ℕ) : List UInt8 :=
  l.map (fun d => base58chars.getD d 0)

/-- The digits for some characters. -/
def charDigits (s : List UInt8) : List ℕ :=
  s.map base58Digit

/-- The bytes for some digits. -/
def bytesOf (l : List ℕ) : List UInt8 :=
  l.map UInt8.ofNat

/-- The digits for some bytes. -/
def byteDigits (l : List UInt8) : List ℕ :=
  l.map UInt8.toNat

theorem byteDigits_lt
    (l : List UInt8) :
    ∀ d ∈ byteDigits l, d < 256 := by
  intro d hd
  obtain ⟨b, -, rfl⟩ := List.mem_map.mp hd
  exact b.toNat_lt

theorem charDigits_lt
    {s : List UInt8}
    (hs : ∀ c ∈ s, c ∈ base58chars) :
    ∀ d ∈ charDigits s, d < 58 := by
  intro d hd
  obtain ⟨c, hc, rfl⟩ := List.mem_map.mp hd
  exact (base58Digit_lt_iff c).mpr (hs c hc)

theorem bytesOf_byteDigits
    (l : List UInt8) :
    bytesOf (byteDigits l) = l := by
  rw [bytesOf, byteDigits, List.map_map]
  refine (List.map_congr_left (fun b _ => ?_)).trans (List.map_id _)
  rw [Function.comp_apply, UInt8.ofNat_toNat]
  rfl

theorem byteDigits_bytesOf
    {l : List ℕ}
    (hl : ∀ d ∈ l, d < 256) :
    byteDigits (bytesOf l) = l := by
  rw [bytesOf, byteDigits, List.map_map]
  refine (List.map_congr_left (fun d hd => ?_)).trans (List.map_id _)
  rw [Function.comp_apply, UInt8.toNat_ofNat', Nat.mod_eq_of_lt (hl d hd)]
  rfl

theorem chars_charDigits
    {s : List UInt8}
    (hs : ∀ c ∈ s, c ∈ base58chars) :
    chars (charDigits s) = s := by
  rw [chars, charDigits, List.map_map]
  refine (List.map_congr_left (fun c hc => ?_)).trans (List.map_id _)
  exact getD_base58Digit (hs c hc)

theorem charDigits_chars
    {l : List ℕ}
    (hl : ∀ d ∈ l, d < 58) :
    charDigits (chars l) = l := by
  rw [chars, charDigits, List.map_map]
  refine (List.map_congr_left (fun d hd => ?_)).trans (List.map_id _)
  exact base58Digit_getD d (hl d hd)

theorem chars_mem
    {l : List ℕ}
    (hl : ∀ d ∈ l, d < 58) :
    ∀ c ∈ chars l, c ∈ base58chars := by
  intro c hc
  obtain ⟨d, hd, rfl⟩ := List.mem_map.mp hc
  exact getD_mem_base58chars (hl d hd)

/-! ## The two conversions -/

/-- A run of zeros at the start. -/
theorem length_takeWhile_eq
    {α : Type} {p : α → Bool} {f : α → ℕ}
    (hf : ∀ a, p a = true ↔ f a = 0)
    (l : List α) :
    (l.takeWhile p).length = leadingZeros (l.map f) := by
  induction l with
  | nil =>
      rfl
  | cons a l ih =>
      by_cases ha : p a = true
      · have hzero := (hf a).mp ha
        rw [List.takeWhile_cons_of_pos ha, List.length_cons, ih, List.map_cons, hzero,
          Digits.leadingZeros_zero_cons]
      · have hne : ¬ f a = 0 := fun h => ha ((hf a).mpr h)
        rw [List.takeWhile_cons_of_neg ha, List.map_cons, Digits.leadingZeros_cons hne]
        rfl

/-- 138 characters are enough for 100 bytes. -/
theorem pow_le_encode
    (n : ℕ) :
    256 ^ n ≤ 58 ^ (n * 138 / 100 + 1) := by
  refine (Nat.pow_le_pow_iff_left (n := 100) (by omega)).mp ?_
  calc (256 ^ n) ^ 100
      = (256 ^ 100) ^ n := by rw [← pow_mul, ← pow_mul, Nat.mul_comm]
    _ ≤ (58 ^ 138) ^ n := Nat.pow_le_pow_left (by norm_num) n
    _ = 58 ^ (n * 138) := by rw [← pow_mul, Nat.mul_comm]
    _ ≤ 58 ^ ((n * 138 / 100 + 1) * 100) := Nat.pow_le_pow_right (by omega) (by omega)
    _ = (58 ^ (n * 138 / 100 + 1)) ^ 100 := by rw [pow_mul]

/-- 733 bytes are enough for 1000 characters. -/
theorem pow_le_decode
    (n : ℕ) :
    58 ^ n ≤ 256 ^ (n * 733 / 1000 + 1) := by
  refine (Nat.pow_le_pow_iff_left (n := 1000) (by omega)).mp ?_
  calc (58 ^ n) ^ 1000
      = (58 ^ 1000) ^ n := by rw [← pow_mul, ← pow_mul, Nat.mul_comm]
    _ ≤ (256 ^ 733) ^ n := Nat.pow_le_pow_left (by decide +kernel) n
    _ = 256 ^ (n * 733) := by rw [← pow_mul, Nat.mul_comm]
    _ ≤ 256 ^ ((n * 733 / 1000 + 1) * 1000) := Nat.pow_le_pow_right (by omega) (by omega)
    _ = (256 ^ (n * 733 / 1000 + 1)) ^ 1000 := by rw [pow_mul]

/-- **`BRBase58Encode` is a change of base.** -/
theorem BRBase58Encode_eq
    (data : List UInt8) :
    BRBase58Encode data = chars (recode 256 58 (byteDigits data)) ++ [0] := by
  have hzeros : (data.takeWhile (· = 0)).length = leadingZeros (byteDigits data) := by
    refine length_takeWhile_eq (fun b => ?_) data
    rw [decide_eq_true_eq, ← UInt8.toNat_inj]
    rfl
  have hrest : (data.drop (leadingZeros (byteDigits data))).map UInt8.toNat =
      strip (byteDigits data) := by
    rw [List.map_drop]
    exact Digits.drop_leadingZeros (byteDigits data)
  have hlen : data.length - leadingZeros (byteDigits data) = (strip (byteDigits data)).length := by
    rw [← Digits.drop_leadingZeros, List.length_drop, byteDigits, List.length_map]
  have hvalue : Digits.value 256 (strip (byteDigits data)) <
      58 ^ ((strip (byteDigits data)).length * 138 / 100 + 1) := by
    refine lt_of_lt_of_le (Digits.value_lt (by omega) (fun d hd => ?_)) (pow_le_encode _)
    exact byteDigits_lt data d ((List.dropWhile_sublist _).subset hd)
  rw [BRBase58Encode, hzeros]
  simp only [hrest, hlen]
  rw [Digits.strip_convert (by omega) hvalue, Digits.value_strip, recode, chars, List.map_append,
    List.map_replicate]
  rfl

/-- The characters in front of the first one outside the alphabet. -/
def alphabetPart (s : List UInt8) : List UInt8 :=
  s.takeWhile (· ∈ base58chars)

theorem alphabetPart_mem
    (s : List UInt8) :
    ∀ c ∈ alphabetPart s, c ∈ base58chars := by
  intro c hc
  simpa using List.mem_takeWhile_imp hc

/-- The loop stops at a character outside the alphabet. -/
theorem decodeLoop_eq
    (buf : List ℕ) (s : List UInt8) :
    decodeLoop buf s =
      (charDigits (alphabetPart s)).foldl (fun buf d => (mulAdd 256 58 buf d).1) buf := by
  induction s generalizing buf with
  | nil =>
      rfl
  | cons c s ih =>
      rw [decodeLoop, alphabetPart]
      by_cases hc : c ∈ base58chars
      · have hlt := (base58Digit_lt_iff c).mpr hc
        rw [if_neg (by omega), ih, List.takeWhile_cons_of_pos (by simpa using hc)]
        rfl
      · have hge := mt (base58Digit_lt_iff c).mp hc
        rw [if_pos (by omega), List.takeWhile_cons_of_neg (by simpa using hc)]
        rfl

theorem alphabetPart_drop
    (s : List UInt8) :
    alphabetPart s =
      List.replicate (s.takeWhile (· = one)).length one ++
        alphabetPart (s.drop (s.takeWhile (· = one)).length) := by
  induction s with
  | nil =>
      rfl
  | cons c s ih =>
      by_cases hc : c = one
      · rw [List.takeWhile_cons_of_pos (by simpa using hc), List.length_cons, List.drop_succ_cons,
          List.replicate_succ, List.cons_append, ← ih, alphabetPart, hc,
          List.takeWhile_cons_of_pos (by decide)]
        rfl
      · rw [List.takeWhile_cons_of_neg (by simpa using hc)]
        rfl

/-- **`BRBase58Decode` is a change of base**, of the characters in front of the
first one outside the alphabet. -/
theorem BRBase58Decode_eq
    (s : List UInt8) :
    BRBase58Decode s = bytesOf (recode 58 256 (charDigits (alphabetPart s))) := by
  obtain ⟨z, hz⟩ : ∃ z, (s.takeWhile (· = one)).length = z := ⟨_, rfl⟩
  have hsplit := alphabetPart_drop s
  rw [hz] at hsplit
  have hdigits : charDigits (alphabetPart s) =
      List.replicate z 0 ++ charDigits (alphabetPart (s.drop z)) := by
    rw [hsplit, charDigits, List.map_append, List.map_replicate]
    rfl
  have hhead : (charDigits (alphabetPart (s.drop z))).head? ≠ some 0 := by
    intro hzero
    cases hrest : s.drop z with
    | nil =>
        rw [hrest] at hzero
        exact absurd hzero (by simp [charDigits, alphabetPart])
    | cons c rest =>
        have hc : c ≠ one := by
          have hdrop : s.dropWhile (· = one) = c :: rest := by
            have hdrop : (s.takeWhile (· = one) ++ s.dropWhile (· = one)).drop
                (s.takeWhile (· = one)).length = s.dropWhile (· = one) := List.drop_left
            rw [List.takeWhile_append_dropWhile, hz, hrest] at hdrop
            exact hdrop.symm
          have hnot := List.head?_dropWhile_not (· = one) s
          rw [hdrop] at hnot
          simpa using hnot
        rw [hrest, alphabetPart] at hzero
        by_cases hmem : c ∈ base58chars
        · rw [List.takeWhile_cons_of_pos (by simpa using hmem)] at hzero
          exact hc ((base58Digit_eq_zero_iff c).mp (Option.some.inj hzero))
        · rw [List.takeWhile_cons_of_neg (by simpa using hmem)] at hzero
          exact absurd hzero (by simp [charDigits])
  have hvalue : Digits.value 58 (charDigits (alphabetPart (s.drop z))) <
      256 ^ ((s.drop z).length * 733 / 1000 + 1) := by
    have hlt := Digits.value_lt (b := 58) (by omega) (charDigits_lt (alphabetPart_mem (s.drop z)))
    have hle : (charDigits (alphabetPart (s.drop z))).length ≤ (s.drop z).length := by
      rw [charDigits, List.length_map]
      exact (List.takeWhile_prefix _).length_le
    calc Digits.value 58 (charDigits (alphabetPart (s.drop z)))
        < 58 ^ (charDigits (alphabetPart (s.drop z))).length := hlt
      _ ≤ 58 ^ (s.drop z).length := Nat.pow_le_pow_right (by omega) hle
      _ ≤ _ := pow_le_decode _
  rw [BRBase58Decode, hz]
  simp only [decodeLoop_eq]
  have hstrip := Digits.strip_convert (b := 58) (c := 256) (by omega) hvalue
  rw [convert] at hstrip
  rw [hstrip, hdigits, recode, Digits.leadingZeros_append z hhead,
    Digits.value_replicate_zero_append, bytesOf, List.map_append, List.map_replicate]
  rfl

/-- The characters of an encoding. -/
def encoding (data : List UInt8) : List UInt8 :=
  chars (recode 256 58 (byteDigits data))

theorem encoding_mem
    (data : List UInt8) :
    ∀ c ∈ encoding data, c ∈ base58chars :=
  chars_mem (Digits.recode_lt (by omega) _ _)

theorem alphabetPart_of_mem
    {s : List UInt8}
    (hs : ∀ c ∈ s, c ∈ base58chars) :
    alphabetPart s = s := by
  refine List.takeWhile_eq_self_iff.mpr (fun c hc => ?_)
  simpa using hs c hc

theorem alphabetPart_append
    {s : List UInt8} {c : UInt8}
    (hs : ∀ c ∈ s, c ∈ base58chars)
    (hc : c ∉ base58chars) (rest : List UInt8) :
    alphabetPart (s ++ c :: rest) = s := by
  rw [alphabetPart, List.takeWhile_append_of_pos (fun c hc => by simpa using hs c hc),
    List.takeWhile_cons_of_neg (by simpa using hc), List.append_nil]

/-- Decoding an encoding. -/
theorem decode_encoding
    {s data : List UInt8}
    (hs : alphabetPart s = encoding data) :
    BRBase58Decode s = data := by
  rw [BRBase58Decode_eq, hs, encoding, charDigits_chars (Digits.recode_lt (by omega) _ _),
    Digits.recode_recode (by omega) (byteDigits_lt data), bytesOf_byteDigits]

/-- Encoding what has been decoded. -/
theorem encoding_decode
    (s : List UInt8) :
    encoding (BRBase58Decode s) = alphabetPart s := by
  rw [BRBase58Decode_eq, encoding, byteDigits_bytesOf (Digits.recode_lt (by omega) _ _),
    Digits.recode_recode (by omega) (charDigits_lt (alphabetPart_mem s)),
    chars_charDigits (alphabetPart_mem s)]

/-! ## Checksums -/

/-- The bytes are never more than the characters. -/
theorem length_decode_le
    (s : List UInt8) :
    (BRBase58Decode s).length ≤ s.length := by
  have hle : (alphabetPart s).length ≤ s.length := (List.takeWhile_prefix _).length_le
  have hlen : (charDigits (alphabetPart s)).length = (alphabetPart s).length := List.length_map _
  have hsplit := congrArg List.length (Digits.replicate_leadingZeros (charDigits (alphabetPart s)))
  have hvalue := Digits.value_lt (b := 58) (by omega)
    (fun d hd => charDigits_lt (alphabetPart_mem s) d ((List.dropWhile_sublist _).subset hd) :
      ∀ d ∈ strip (charDigits (alphabetPart s)), d < 58)
  rw [Digits.value_strip] at hvalue
  have hnumeral : (numeral 256 (Digits.value 58 (charDigits (alphabetPart s)))).length ≤
      (strip (charDigits (alphabetPart s))).length := by
    rw [Digits.length_numeral_le_iff (by omega)]
    exact lt_of_lt_of_le hvalue (Nat.pow_le_pow_left (by omega) _)
  rw [List.length_append, List.length_replicate] at hsplit
  rw [BRBase58Decode_eq, bytesOf, List.length_map, recode, List.length_append,
    List.length_replicate]
  omega

/-- The checksum behind some data. -/
def checksum (sha256d : List UInt8 → UInt256) (data : List UInt8) : List UInt8 :=
  (hashBytes (sha256d data)).take 4

@[simp] theorem length_checksum
    (sha256d : List UInt8 → UInt256) (data : List UInt8) :
    (checksum sha256d data).length = 4 := by
  rw [checksum, List.length_take, length_hashBytes]
  rfl

variable {sha256d : List UInt8 → UInt256}

/-- What `BRBase58CheckDecode` accepts. -/
theorem BRBase58CheckDecode_eq_iff
    {s data : List UInt8}
    (hdata : data ≠ []) :
    BRBase58CheckDecode sha256d s = data ↔
      BRBase58Decode s = data ++ checksum sha256d data := by
  have hwrite : writeOut (BRBase58Decode s) (some (List.replicate s.length 0)) =
      (some (BRBase58Decode s ++ (List.replicate s.length 0).drop (BRBase58Decode s).length),
        (BRBase58Decode s).length) := by
    rw [writeOut, if_pos (by rw [List.length_replicate]; exact length_decode_le s)]
  rw [BRBase58CheckDecode, hwrite]
  simp only [Option.getD_some]
  generalize BRBase58Decode s = bytes
  by_cases hlen : 4 ≤ bytes.length
  · have htake : ∀ l : List UInt8, (bytes ++ l).take (bytes.length - 4) =
        bytes.take (bytes.length - 4) :=
      fun l => List.take_append_of_le_length (by omega)
    have hslice : ∀ l : List UInt8, slice (bytes ++ l) (bytes.length - 4) 4 =
        bytes.drop (bytes.length - 4) := by
      intro l
      rw [slice, List.drop_append_of_le_length (by omega)]
      exact List.take_left' (by rw [List.length_drop]; omega)
    rw [if_pos hlen, htake, hslice]
    constructor
    · intro h
      split at h
      · exact absurd h.symm hdata
      · rename_i hsum
        rw [not_not] at hsum
        rw [← h, checksum, ← hsum, List.take_append_drop]
    · rintro rfl
      rw [List.length_append, length_checksum, Nat.add_sub_cancel, List.take_left,
        List.drop_left]
      exact if_neg (not_not.mpr rfl)
  · rw [if_neg hlen]
    constructor
    · intro h
      exact absurd h.symm hdata
    · rintro rfl
      rw [List.length_append, length_checksum] at hlen
      omega

/-- The characters `BRBase58CheckEncode` writes. -/
theorem BRBase58CheckEncode_eq
    (sha256d : List UInt8 → UInt256) (data : List UInt8) :
    BRBase58CheckEncode sha256d data = encoding (data ++ checksum sha256d data) ++ [0] :=
  BRBase58Encode_eq _

/-- **What is accepted.**  The characters of the alphabet in front are the
encoding of the data. -/
theorem BRBase58CheckDecode_eq_iff_encoding
    {s data : List UInt8}
    (hdata : data ≠ []) :
    BRBase58CheckDecode sha256d s = data ↔
      alphabetPart s = encoding (data ++ checksum sha256d data) := by
  rw [BRBase58CheckDecode_eq_iff hdata]
  constructor
  · intro h
    rw [← h, encoding_decode]
  · exact decode_encoding

end Base58

end BreadwalletCore
