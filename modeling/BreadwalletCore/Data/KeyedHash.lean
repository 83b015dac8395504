import BreadwalletCore.Data.BlockPadding
import Mathlib.Algebra.Order.Floor.Div

/-!
# Functions from a hash function

The message authentication code HMAC, the key derivation PBKDF2 and the generator
HMAC_DRBG (without additional input), as their standards define them, over any hash
function.
-/

namespace KeyedHash

open LittleEndian (reversed length_reversed)
open Segment (slice)

/-- Two strings of one length combined byte by byte. -/
def xorBytes (x y : List UInt8) : List UInt8 :=
  List.zipWith (fun a b => a ^^^ b) x y

@[simp] theorem length_xorBytes
    (x y : List UInt8) :
    (xorBytes x y).length = min x.length y.length :=
  List.length_zipWith

theorem xorBytes_append
    {x₁ y₁ : List UInt8} (x₂ y₂ : List UInt8)
    (h : x₁.length = y₁.length) :
    xorBytes (x₁ ++ x₂) (y₁ ++ y₂) = xorBytes x₁ y₁ ++ xorBytes x₂ y₂ :=
  List.zipWith_append h

theorem xorBytes_replicate
    (x : List UInt8) (c : UInt8) :
    xorBytes x (List.replicate x.length c) = x.map (fun b => b ^^^ c) := by
  induction x with
  | nil =>
      rfl
  | cons b x ih =>
      rw [xorBytes, List.length_cons, List.replicate_succ, List.zipWith_cons_cons, List.map_cons]
      exact congrArg _ ih

/-- Pieces of one length, one behind the other. -/
theorem length_flatMap_range
    {size : ℕ} {f : ℕ → List UInt8}
    (hf : ∀ i, (f i).length = size)
    (n : ℕ) :
    ((List.range n).flatMap f).length = size * n := by
  rw [List.length_flatMap, List.map_congr_left (fun i _ => hf i), List.map_const', List.sum_replicate,
    List.length_range, smul_eq_mul, Nat.mul_comm]

/-- The piece with a number. -/
theorem slice_flatMap_range
    {size n m : ℕ} {f : ℕ → List UInt8}
    (hf : ∀ i, (f i).length = size)
    (hm : m < n) :
    slice ((List.range n).flatMap f) (size * m) size = f m := by
  obtain ⟨d, rfl⟩ := Nat.exists_eq_add_of_lt hm
  rw [(by omega : m + d + 1 = m + (d + 1)), List.range_add, List.flatMap_append, slice,
    List.drop_left' (length_flatMap_range hf m), List.range_succ_eq_map, List.map_cons,
    List.flatMap_cons, Nat.add_zero, List.take_left' (hf m)]

/-! ## HMAC -/

/-- A key for blocks of `size` bytes: a long one is hashed, a short one gets zeros. -/
def blockKey (hash : List UInt8 → List UInt8) (size : ℕ) (key : List UInt8) : List UInt8 :=
  let key := if key.length > size then hash key else key
  key ++ List.replicate (size - key.length) 0

/-- HMAC with a hash function that works on blocks of `size` bytes. -/
def hmac (hash : List UInt8 → List UInt8) (size : ℕ) (key data : List UInt8) : List UInt8 :=
  hash ((blockKey hash size key).map (fun b => b ^^^ 0x5c) ++
    hash ((blockKey hash size key).map (fun b => b ^^^ 0x36) ++ data))

/-! ## PBKDF2 -/

/-- The block for a salt with its number, of `rounds + 1` rounds. -/
def pbkdf2Block (prf : List UInt8 → List UInt8) (seed : List UInt8) : ℕ → List UInt8
  | 0 => prf seed
  | rounds + 1 => xorBytes (pbkdf2Block prf seed rounds) (prf^[rounds + 2] seed)

/-- PBKDF2 with a pseudorandom function of `hLen` bytes, keyed with the password. -/
def pbkdf2 (prf : List UInt8 → List UInt8) (hLen : ℕ) (salt : List UInt8) (rounds dkLen : ℕ) :
    List UInt8 :=
  ((List.range (dkLen ⌈/⌉ hLen)).flatMap (fun i =>
    pbkdf2Block prf (salt ++ reversed 4 (i + 1)) (rounds - 1))).take dkLen

theorem length_pbkdf2Block
    {prf : List UInt8 → List UInt8} {hLen : ℕ}
    (hprf : ∀ l, (prf l).length = hLen)
    (seed : List UInt8) (rounds : ℕ) :
    (pbkdf2Block prf seed rounds).length = hLen := by
  induction rounds with
  | zero =>
      exact hprf seed
  | succ rounds ih =>
      rw [pbkdf2Block, length_xorBytes, ih, Function.iterate_succ_apply', hprf, Nat.min_self]

theorem length_pbkdf2
    {prf : List UInt8 → List UInt8} {hLen : ℕ}
    (hprf : ∀ l, (prf l).length = hLen)
    (hpos : 0 < hLen)
    (salt : List UInt8) (rounds dkLen : ℕ) :
    (pbkdf2 prf hLen salt rounds dkLen).length = dkLen := by
  have hle := le_smul_ceilDiv (b := dkLen) hpos
  rw [smul_eq_mul] at hle
  rw [pbkdf2, List.length_take, length_flatMap_range (fun i => length_pbkdf2Block hprf _ _)]
  omega

/-! ## HMAC_DRBG -/

structure DrbgState where
  K : List UInt8
  V : List UInt8

section Drbg

variable (prf : List UInt8 → List UInt8 → List UInt8)

/-- The update with the data that are provided. -/
def update (s : DrbgState) (provided : List UInt8) : DrbgState :=
  let K := prf s.K (s.V ++ 0x00 :: provided)
  let V := prf K s.V
  if provided = [] then ⟨K, V⟩
  else
    let K' := prf K (V ++ 0x01 :: provided)
    ⟨K', prf K' V⟩

/-- The generator of `hLen` bytes for seed material. -/
def instantiate (hLen : ℕ) (material : List UInt8) : DrbgState :=
  update prf ⟨List.replicate hLen 0x00, List.replicate hLen 0x01⟩ material

/-- The loop that collects at least `n` bytes. -/
def collect (K : List UInt8) (n : ℕ) : ℕ → List UInt8 → List UInt8 → List UInt8 × List UInt8
  | 0, V, temp => (temp, V)
  | turns + 1, V, temp =>
      if temp.length < n then collect K n turns (prf K V) (temp ++ prf K V) else (temp, V)

/-- `n` bytes, and the generator behind them. -/
def generate (s : DrbgState) (n : ℕ) : List UInt8 × DrbgState :=
  let r := collect prf s.K n n s.V []
  (r.1.take n, update prf ⟨s.K, r.2⟩ [])

/-- Requests, one behind the other. -/
def generates : DrbgState → List ℕ → List (List UInt8)
  | _, [] => []
  | s, n :: ns => (generate prf s n).1 :: generates (generate prf s n).2 ns

end Drbg

end KeyedHash
