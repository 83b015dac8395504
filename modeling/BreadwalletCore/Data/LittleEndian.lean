import Mathlib.Data.List.GetD
import Mathlib.Data.Nat.Bitwise
import Mathlib.Data.UInt
import Mathlib.Tactic

/-!
# Little endian numbers and bits

`bytes k n` are the low `k` bytes of `n`, least significant first, and `value`
reads bytes back.  `bits` lists the bits of a byte string, the least
significant bit of each byte first, and `pack` fills bytes from bits, padding
the last byte with zeros.
-/

namespace LittleEndian

section Bytes

/-- The low `k` bytes of `n`. -/
def bytes : ℕ → ℕ → List UInt8
  | 0, _ => []
  | k + 1, n => UInt8.ofNat n :: bytes k (n / 256)

/-- The number with these bytes. -/
def value : List UInt8 → ℕ
  | [] => 0
  | b :: l => b.toNat + 256 * value l

@[simp] theorem length_bytes
    (k n : ℕ) :
    (bytes k n).length = k := by
  induction k generalizing n with
  | zero =>
      rfl
  | succ k ih =>
      rw [bytes, List.length_cons, ih]

theorem value_lt
    (l : List UInt8) :
    value l < 256 ^ l.length := by
  induction l with
  | nil =>
      simp [value]
  | cons b l ih =>
      have hb : b.toNat < 256 := b.toNat_lt
      rw [value, List.length_cons, pow_succ]
      omega

theorem value_bytes
    {k n : ℕ}
    (hn : n < 256 ^ k) :
    value (bytes k n) = n := by
  induction k generalizing n with
  | zero =>
      have hzero : n = 0 := by
        simpa using hn
      rw [hzero]
      rfl
  | succ k ih =>
      have hdiv : n / 256 < 256 ^ k := by
        rw [pow_succ] at hn
        omega
      have hlow : (UInt8.ofNat n).toNat = n % 256 := by
        simp
      rw [bytes, value, ih hdiv, hlow]
      omega

theorem bytes_value
    (l : List UInt8) :
    bytes l.length (value l) = l := by
  induction l with
  | nil =>
      rfl
  | cons b l ih =>
      have hb : b.toNat < 256 := b.toNat_lt
      have hdiv : (b.toNat + 256 * value l) / 256 = value l := by
        omega
      have hlow : UInt8.ofNat (b.toNat + 256 * value l) = b := by
        apply UInt8.toNat_inj.mp
        rw [UInt8.toNat_ofNat']
        omega
      rw [List.length_cons, value, bytes, hdiv, hlow, ih]

theorem value_append
    (l₁ l₂ : List UInt8) :
    value (l₁ ++ l₂) = value l₁ + 256 ^ l₁.length * value l₂ := by
  induction l₁ with
  | nil =>
      simp [value]
  | cons b l ih =>
      rw [List.cons_append, value, value, ih, List.length_cons, pow_succ]
      ring

@[simp] theorem value_replicate_zero
    (n : ℕ) :
    value (List.replicate n 0) = 0 := by
  induction n with
  | zero =>
      rfl
  | succ n ih =>
      rw [List.replicate_succ, value, ih]
      rfl

end Bytes

section Bits

/-- The bits of one byte. -/
def byteBits (b : UInt8) : List Bool :=
  List.ofFn (fun i : Fin 8 => b.toNat.testBit i)

/-- The bits of a byte string. -/
def bits (l : List UInt8) : List Bool :=
  l.flatMap byteBits

@[simp] theorem length_byteBits
    (b : UInt8) :
    (byteBits b).length = 8 := by
  rw [byteBits, List.length_ofFn]

theorem getElem?_byteBits
    (b : UInt8)
    {i : ℕ}
    (hi : i < 8) :
    (byteBits b)[i]? = some (b.toNat.testBit i) := by
  rw [byteBits, List.getElem?_ofFn, dif_pos hi]

@[simp] theorem bits_cons
    (b : UInt8) (l : List UInt8) :
    bits (b :: l) = byteBits b ++ bits l := by
  rfl

@[simp] theorem length_bits
    (l : List UInt8) :
    (bits l).length = 8 * l.length := by
  induction l with
  | nil =>
      rfl
  | cons b l ih =>
      rw [bits_cons, List.length_append, length_byteBits, ih, List.length_cons]
      omega

/-- Bit `i` of a byte string is bit `i % 8` of its byte `i / 8`. -/
theorem getElem?_bits
    (l : List UInt8) (i : ℕ) :
    (bits l)[i]? = (l[i / 8]?).map (fun b => b.toNat.testBit (i % 8)) := by
  induction l generalizing i with
  | nil =>
      simp [bits]
  | cons b l ih =>
      rw [bits_cons]
      by_cases hi : i < 8
      · have hdiv : i / 8 = 0 := by
          omega
        have hmod : i % 8 = i := by
          omega
        rw [List.getElem?_append_left (by simpa using hi), getElem?_byteBits b hi, hdiv, hmod]
        rfl
      · have hdiv : i / 8 = (i - 8) / 8 + 1 := by
          omega
        have hmod : i % 8 = (i - 8) % 8 := by
          omega
        rw [List.getElem?_append_right (by simpa using hi), length_byteBits, ih, hdiv, hmod,
          List.getElem?_cons_succ]

/-- The number with these bits. -/
def bitValue : List Bool → ℕ
  | [] => 0
  | b :: l => b.toNat + 2 * bitValue l

theorem testBit_bitValue
    (l : List Bool) (i : ℕ) :
    (bitValue l).testBit i = l.getD i false := by
  induction l generalizing i with
  | nil =>
      simp [bitValue]
  | cons b l ih =>
      have hdiv : (b.toNat + 2 * bitValue l) / 2 = bitValue l := by
        have hb : b.toNat < 2 := b.toNat_lt
        omega
      cases i with
      | zero =>
          cases b <;> simp [bitValue, Nat.testBit_zero]
      | succ i =>
          rw [bitValue, Nat.testBit_succ, hdiv, ih, List.getD_cons_succ]

theorem bitValue_lt
    (l : List Bool) :
    bitValue l < 2 ^ l.length := by
  induction l with
  | nil =>
      simp [bitValue]
  | cons b l ih =>
      have hb : b.toNat < 2 := b.toNat_lt
      rw [bitValue, List.length_cons, pow_succ]
      omega

/-- Bytes filled from bits. -/
def pack : List Bool → List UInt8
  | [] => []
  | b :: l => UInt8.ofNat (bitValue (b :: l.take 7)) :: pack (l.drop 7)
termination_by l => l.length
decreasing_by
  simp only [List.length_drop, List.length_cons]
  omega

theorem byteBits_bitValue
    {l : List Bool}
    (hl : l.length ≤ 8) :
    byteBits (UInt8.ofNat (bitValue l)) = l ++ List.replicate (8 - l.length) false := by
  have hlt : bitValue l < 2 ^ 8 :=
    lt_of_lt_of_le (bitValue_lt l) (Nat.pow_le_pow_right (by omega) hl)
  apply List.ext_getElem?
  intro i
  by_cases hi : i < 8
  · rw [getElem?_byteBits _ hi, UInt8.toNat_ofNat', Nat.mod_eq_of_lt hlt, testBit_bitValue,
      List.getD_eq_getElem?_getD]
    by_cases hil : i < l.length
    · rw [List.getElem?_append_left hil, List.getElem?_eq_getElem hil]
      rfl
    · rw [List.getElem?_append_right (by omega), List.getElem?_eq_none (by omega),
        List.getElem?_replicate, if_pos (by omega)]
      rfl
  · rw [List.getElem?_eq_none (by simpa using hi), List.getElem?_eq_none]
    simp only [List.length_append, List.length_replicate]
    omega

/-- Packed bits are read back with zero bits behind them. -/
theorem bits_pack
    (l : List Bool) :
    ∃ pad, bits (pack l) = l ++ List.replicate pad false := by
  induction l using pack.induct with
  | case1 =>
      exact ⟨0, by simp [pack, bits]⟩
  | case2 b l ih =>
      obtain ⟨pad, hpad⟩ := ih
      have hbyte := byteBits_bitValue (l := b :: l.take 7) (by simp)
      rw [pack, bits_cons, hbyte, hpad]
      by_cases hshort : l.length < 7
      · refine ⟨8 - (l.length + 1) + pad, ?_⟩
        rw [List.take_of_length_le (by omega), List.drop_of_length_le (by omega), List.nil_append,
          List.append_assoc, List.replicate_append_replicate, List.length_cons]
      · refine ⟨pad, ?_⟩
        have hfull : 8 - (b :: l.take 7).length = 0 := by
          simp only [List.length_cons, List.length_take]
          omega
        rw [hfull, List.replicate_zero, List.append_nil, ← List.append_assoc, List.cons_append,
          List.take_append_drop]

theorem length_pack_le
    (l : List Bool) :
    (pack l).length ≤ l.length := by
  induction l using pack.induct with
  | case1 =>
      simp [pack]
  | case2 b l ih =>
      rw [List.length_drop] at ih
      rw [pack, List.length_cons, List.length_cons]
      omega

end Bits

end LittleEndian
