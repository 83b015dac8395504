import BreadwalletCore.Data.LittleEndian
import BreadwalletCore.Data.Segment

/-!
# Padding to whole blocks

`padded size field data` closes `data` with a byte `0x80`, zeros, and a field; the
zeros are as few as fill the last block (`IsPadded`).  `blocks size` cuts such a
string.

The field is a number of fixed width, in either byte order.
-/

namespace LittleEndian

theorem bytes_add
    (a b n : ℕ) :
    bytes (a + b) n = bytes a n ++ bytes b (n / 256 ^ a) := by
  induction a generalizing n with
  | zero =>
      rw [Nat.zero_add, pow_zero, Nat.div_one, bytes, List.nil_append]
  | succ a ih =>
      rw [Nat.succ_add, bytes, bytes, ih, List.cons_append, Nat.div_div_eq_div_mul, pow_succ']

/-- Only the low bytes are written. -/
theorem bytes_mod
    (k n : ℕ) :
    bytes k (n % 256 ^ k) = bytes k n := by
  induction k generalizing n with
  | zero =>
      rfl
  | succ k ih =>
      have hlow : UInt8.ofNat (n % 256 ^ (k + 1)) = UInt8.ofNat n := by
        apply UInt8.toNat_inj.mp
        rw [UInt8.toNat_ofNat', UInt8.toNat_ofNat', pow_succ']
        exact Nat.mod_mul_right_mod n 256 (256 ^ k)
      rw [bytes, bytes, hlow, pow_succ', Nat.mod_mul_right_div_self, ih]

/-- The low `k` bytes of `n`, most significant first. -/
def reversed (k n : ℕ) : List UInt8 :=
  (bytes k n).reverse

@[simp] theorem length_reversed
    (k n : ℕ) :
    (reversed k n).length = k := by
  rw [reversed, List.length_reverse, length_bytes]

theorem reversed_add
    (a b n : ℕ) :
    reversed (a + b) n = reversed b (n / 256 ^ a) ++ reversed a n := by
  rw [reversed, bytes_add, List.reverse_append, reversed, reversed]

theorem reversed_mod
    (k n : ℕ) :
    reversed k (n % 256 ^ k) = reversed k n := by
  rw [reversed, bytes_mod, reversed]

end LittleEndian

namespace BlockPadding

open Segment (slice)

universe u

variable {α : Type u}

/-! ## Blocks -/

/-- The blocks of a list; what is left behind the last whole one is dropped. -/
def blocks (size : ℕ) (l : List α) : List (List α) :=
  (List.range (l.length / size)).map (fun k => slice l (size * k) size)

theorem blocks_nil
    (size : ℕ) :
    blocks size ([] : List α) = [] := by
  rw [blocks, List.length_nil, Nat.zero_div]
  rfl

theorem blocks_append
    {size : ℕ} {b l : List α}
    (hsize : 0 < size)
    (hb : b.length = size) :
    blocks size (b ++ l) = b :: blocks size l := by
  have hcount : (b ++ l).length / size = l.length / size + 1 := by
    rw [List.length_append, hb, Nat.add_comm, Nat.add_div_right _ hsize]
  rw [blocks, hcount, List.range_succ_eq_map, List.map_cons, List.map_map, blocks]
  refine congrArg₂ List.cons ?_ (List.map_congr_left fun k _ => ?_)
  · rw [slice, Nat.mul_zero, List.drop_zero, List.take_left' hb]
  · rw [Function.comp_apply, slice, slice, Nat.mul_succ, Nat.add_comm, ← List.drop_drop,
      List.drop_left' hb]

theorem blocks_singleton
    {size : ℕ} {b : List α}
    (hsize : 0 < size)
    (hb : b.length = size) :
    blocks size b = [b] := by
  have h := @blocks_append α size b [] hsize hb
  rwa [List.append_nil, blocks_nil] at h

/-- A list of whole blocks is cut in two between them. -/
theorem blocks_append_mul
    {size k : ℕ} {front l : List α}
    (hsize : 0 < size)
    (hfront : front.length = size * k) :
    blocks size (front ++ l) = blocks size front ++ blocks size l := by
  induction k generalizing front with
  | zero =>
      rw [Nat.mul_zero, List.length_eq_zero_iff] at hfront
      rw [hfront, List.nil_append, blocks_nil, List.nil_append]
  | succ k ih =>
      have hhead : (front.take size).length = size := by
        rw [List.length_take, hfront, Nat.mul_succ]
        omega
      have htail : (front.drop size).length = size * k := by
        rw [List.length_drop, hfront, Nat.mul_succ]
        omega
      rw [← List.take_append_drop size front, List.append_assoc, blocks_append hsize hhead,
        ih htail, blocks_append hsize hhead, List.cons_append]

/-! ## Padding -/

/-- The fewest elements that fill the last block behind `n` of them. -/
def fill (size n : ℕ) : ℕ :=
  (size - n % size) % size

theorem dvd_add_fill
    {size : ℕ}
    (hsize : 0 < size)
    (n : ℕ) :
    size ∣ n + fill size n := by
  have hlt := Nat.mod_lt n hsize
  have hdiv := Nat.div_add_mod n size
  rw [fill]
  by_cases hzero : n % size = 0
  · rw [hzero, Nat.sub_zero, Nat.mod_self, Nat.add_zero]
    exact Nat.dvd_of_mod_eq_zero hzero
  · rw [Nat.mod_eq_of_lt (by omega)]
    refine ⟨n / size + 1, ?_⟩
    rw [Nat.mul_succ]
    omega

theorem fill_le
    {size n z : ℕ}
    (hsize : 0 < size)
    (hz : size ∣ n + z) :
    fill size n ≤ z := by
  have hlt := Nat.mod_lt n hsize
  have hdiv := Nat.div_add_mod n size
  rw [fill]
  by_cases hzero : n % size = 0
  · rw [hzero, Nat.sub_zero, Nat.mod_self]
    exact Nat.zero_le z
  · rw [Nat.mod_eq_of_lt (by omega)]
    by_contra hless
    have hsum : (n + z) % size = n % size + z := by
      rw [Nat.add_mod, Nat.mod_eq_of_lt (show z < size by omega), Nat.mod_eq_of_lt (by omega)]
    have hmod := Nat.mod_eq_zero_of_dvd hz
    omega

/-- What fills a block that has room for more. -/
theorem fill_eq
    {size n z : ℕ}
    (hz : z < size)
    (hdvd : size ∣ n + z) :
    fill size n = z := by
  have hsize : 0 < size := by omega
  have hle := fill_le hsize hdvd
  have hdvd' : size ∣ z - fill size n := by
    have h := Nat.dvd_sub hdvd (dvd_add_fill hsize n)
    rwa [Nat.add_sub_add_left] at h
  have hzero := Nat.eq_zero_of_dvd_of_lt hdvd' (by omega)
  omega

/-- `data`, a byte `0x80`, zeros, and the field. -/
def padded (size : ℕ) (field data : List UInt8) : List UInt8 :=
  data ++ 0x80 :: (List.replicate (fill size (data.length + 1 + field.length)) 0 ++ field)

/-- `data`, a byte `0x80`, and `z` zeros. -/
def closed (data : List UInt8) (z : ℕ) : List UInt8 :=
  data ++ 0x80 :: List.replicate z 0

@[simp] theorem length_closed
    (data : List UInt8) (z : ℕ) :
    (closed data z).length = data.length + 1 + z := by
  rw [closed, List.length_append, List.length_cons, List.length_replicate]
  omega

theorem closed_add_append
    (data rest : List UInt8) (a b : ℕ) :
    closed data (a + b) ++ rest = closed data a ++ (List.replicate b 0 ++ rest) := by
  rw [closed, closed, List.replicate_add, List.append_assoc, List.append_assoc, List.cons_append,
    List.cons_append, List.append_assoc]

theorem padded_eq_closed
    (size : ℕ) (field data : List UInt8) :
    padded size field data = closed data (fill size (data.length + 1 + field.length)) ++ field := by
  rw [padded, closed, List.append_assoc, List.cons_append]

/-- The field ends the block of the data. -/
theorem padded_of_lt
    {size limit : ℕ} {field data : List UInt8}
    (hfield : limit + field.length = size)
    (hroom : data.length < limit) :
    padded size field data = closed data (limit - data.length - 1) ++ field := by
  have hfill : fill size (data.length + 1 + field.length) = limit - data.length - 1 := by
    refine fill_eq (by omega) ⟨1, by omega⟩
  rw [padded_eq_closed, hfill]

/-- The field ends a block of its own. -/
theorem padded_of_le
    {size limit : ℕ} {field data : List UInt8}
    (hfield : limit + field.length = size)
    (hroom : limit ≤ data.length)
    (hdata : data.length < size) :
    padded size field data =
      closed data (size - data.length - 1) ++ (List.replicate limit 0 ++ field) := by
  have hfill : fill size (data.length + 1 + field.length) = size - data.length - 1 + limit := by
    refine fill_eq (by omega) ⟨2, by omega⟩
  rw [padded_eq_closed, hfill, closed_add_append]

/-- A string is `data`, padded to the least length of whole blocks. -/
structure IsPadded (size : ℕ) (field data p : List UInt8) : Prop where
  zeros : ∃ z, p = data ++ 0x80 :: (List.replicate z 0 ++ field)
  whole : size ∣ p.length
  least : ∀ z, size ∣ data.length + 1 + z + field.length →
    p.length ≤ data.length + 1 + z + field.length

theorem length_padded
    (size : ℕ) (field data : List UInt8) :
    (padded size field data).length =
      data.length + 1 + field.length + fill size (data.length + 1 + field.length) := by
  rw [padded, List.length_append, List.length_cons, List.length_append, List.length_replicate]
  omega

theorem isPadded_padded
    {size : ℕ}
    (hsize : 0 < size)
    (field data : List UInt8) :
    IsPadded size field data (padded size field data) where
  zeros := ⟨_, rfl⟩
  whole := by
    rw [length_padded]
    exact dvd_add_fill hsize _
  least := by
    intro z hz
    rw [Nat.add_right_comm] at hz
    have hle := fill_le hsize hz
    rw [length_padded]
    omega

end BlockPadding
