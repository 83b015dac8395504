import BreadwalletCore.Crypto
import BreadwalletCore.Data.Sha2
import Mathlib.Tactic.IntervalCases
import Mathlib.Data.UInt

/-!
# Words of hash functions

The macros `be32`, `be64`, `ror32` and `ror64` of `BRCrypto.c` on a little endian machine,
and the words of a block that they read.

`WordMap` says which functions on words the operators of C agree with.
-/

namespace BreadwalletCore

open LittleEndian
open Segment (slice)

/-- `be32` -/
def be32 (x : UInt32) : UInt32 :=
  ((x &&& 0xff) <<< 24) ||| ((x &&& 0xff00) <<< 8) ||| ((x &&& 0xff0000) >>> 8) |||
    ((x &&& 0xff000000) >>> 24)

/-- `be64`: the first word of the union is its low half. -/
def be64 (x : UInt64) : UInt64 :=
  (be32 (x >>> 32).toUInt32).toUInt64 ||| ((be32 x.toUInt32).toUInt64 <<< 32)

def ror32 (a b : UInt32) : UInt32 :=
  (a >>> b) ||| (a <<< (32 - b))

def ror64 (a b : UInt64) : UInt64 :=
  (a >>> b) ||| (a <<< (64 - b))

/-- The 64 bit word at word `i` of a buffer. -/
def word64 (data : List UInt8) (i : ℕ) : UInt64 :=
  UInt64.ofNat (value ((data.drop (8 * i)).take 8))

/-! ## Byte order -/

theorem getLsbD_be32
    (x : UInt32) {i : ℕ}
    (hi : i < 32) :
    (be32 x).toBitVec.getLsbD i = x.toBitVec.getLsbD (8 * (3 - i / 8) + i % 8) := by
  simp only [be32, UInt32.toBitVec_or, UInt32.toBitVec_and, UInt32.toBitVec_shiftLeft,
    UInt32.toBitVec_shiftRight]
  interval_cases i <;> simp

theorem getElem_be32
    (x : UInt32) {i : ℕ}
    (hi : i < 32) :
    (be32 x).toBitVec[i] = x.toBitVec.getLsbD (8 * (3 - i / 8) + i % 8) := by
  rw [← BitVec.getLsbD_eq_getElem, getLsbD_be32 x hi]

theorem getLsbD_be64
    (x : UInt64) {i : ℕ}
    (hi : i < 64) :
    (be64 x).toBitVec.getLsbD i = x.toBitVec.getLsbD (8 * (7 - i / 8) + i % 8) := by
  simp only [be64, UInt64.toBitVec_or, UInt64.toBitVec_shiftLeft, UInt32.toBitVec_toUInt64]
  interval_cases i <;> simp [getElem_be32]

/-- The words of a block of the right length. -/
theorem toBitVec_be32
    {block : List UInt8} {t : ℕ}
    (ht : 4 * t + 4 ≤ block.length) :
    (be32 (word32 block t)).toBitVec = Sha2.messageWord 32 block t := by
  have hslice : (slice block (4 * t) 4).length = 4 := by
    rw [slice, List.length_take, List.length_drop]
    omega
  have hlt := value_lt (slice block (4 * t) 4)
  refine @ofNat_value_reverse 4 _ (word32 block t).toBitVec _ hslice ?_ fun i hi => ?_
  · rw [hslice] at hlt
    rw [UInt32.toNat_toBitVec, word32, UInt32.toNat_ofNat', ← slice]
    exact Nat.mod_eq_of_lt hlt
  · exact getLsbD_be32 _ hi

theorem toBitVec_be64
    {block : List UInt8} {t : ℕ}
    (ht : 8 * t + 8 ≤ block.length) :
    (be64 (word64 block t)).toBitVec = Sha2.messageWord 64 block t := by
  have hslice : (slice block (8 * t) 8).length = 8 := by
    rw [slice, List.length_take, List.length_drop]
    omega
  have hlt := value_lt (slice block (8 * t) 8)
  refine @ofNat_value_reverse 8 _ (word64 block t).toBitVec _ hslice ?_ fun i hi => ?_
  · rw [hslice] at hlt
    rw [UInt64.toNat_toBitVec, word64, UInt64.toNat_ofNat', ← slice]
    exact Nat.mod_eq_of_lt hlt
  · exact getLsbD_be64 _ hi

/-! ## Rotations -/

theorem toBitVec_rol32
    (a : UInt32) {b : UInt32}
    (hpos : 0 < b.toNat)
    (hb : b.toNat < 32) :
    (rol32 a b).toBitVec = a.toBitVec.rotateLeft b.toNat := by
  rw [rol32, BitVec.rotateLeft_def]
  simp [Nat.mod_eq_of_lt hb]
  congr 2
  omega

theorem toBitVec_ror32
    (a : UInt32) {b : UInt32}
    (hpos : 0 < b.toNat)
    (hb : b.toNat < 32) :
    (ror32 a b).toBitVec = a.toBitVec.rotateRight b.toNat := by
  rw [ror32, BitVec.rotateRight_def]
  simp [Nat.mod_eq_of_lt hb]
  congr 2
  omega

theorem toBitVec_ror64
    (a : UInt64) {b : UInt64}
    (hpos : 0 < b.toNat)
    (hb : b.toNat < 64) :
    (ror64 a b).toBitVec = a.toBitVec.rotateRight b.toNat := by
  rw [ror64, BitVec.rotateRight_def]
  simp [Nat.mod_eq_of_lt hb]
  congr 2
  omega

/-! ## Operators -/

/-- The operators of C on words are those on bit vectors. -/
structure WordMap {α : Type} [Add α] [AndOp α] [XorOp α] [Complement α] {w : ℕ}
    (φ : α → BitVec w) : Prop where
  add : ∀ x y, φ (x + y) = φ x + φ y
  and : ∀ x y, φ (x &&& y) = φ x &&& φ y
  xor : ∀ x y, φ (x ^^^ y) = φ x ^^^ φ y
  compl : ∀ x, φ (~~~x) = ~~~φ x

theorem wordMap32 : WordMap UInt32.toBitVec :=
  ⟨fun _ _ => UInt32.toBitVec_add, fun _ _ => UInt32.toBitVec_and _ _,
    fun _ _ => UInt32.toBitVec_xor _ _, fun _ => UInt32.toBitVec_not⟩

theorem wordMap64 : WordMap UInt64.toBitVec :=
  ⟨fun _ _ => UInt64.toBitVec_add, fun _ _ => UInt64.toBitVec_and _ _,
    fun _ _ => UInt64.toBitVec_xor _ _, fun _ => UInt64.toBitVec_not⟩

end BreadwalletCore
