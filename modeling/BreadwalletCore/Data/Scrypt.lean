import BreadwalletCore.Data.KeyedHash
import BreadwalletCore.Data.Segment

/-!
# Salsa20/8 and scrypt

The core of the stream cipher Salsa20, reduced to eight rounds, and the key derivation
scrypt, as their standards define them, over any function that derives bytes from a
password and a salt.
-/

namespace Scrypt

open Segment (slice length_slice)
open KeyedHash (xorBytes length_flatMap_range)

/-! ## Salsa20/8 -/

/-- The sixteen words of 64 bytes. -/
structure Words16 where
  (x0 x1 x2 x3 x4 x5 x6 x7 x8 x9 xa xb xc xd xe xf : UInt32)

/-- The little endian word at a place. -/
def word (l : List UInt8) (i : ℕ) : UInt32 :=
  UInt32.ofNat (LittleEndian.value (slice l (4 * i) 4))

def Words16.ofBytes (l : List UInt8) : Words16 :=
  ⟨word l 0, word l 1, word l 2, word l 3, word l 4, word l 5, word l 6, word l 7,
    word l 8, word l 9, word l 10, word l 11, word l 12, word l 13, word l 14, word l 15⟩

def Words16.bytes (w : Words16) : List UInt8 :=
  [w.x0, w.x1, w.x2, w.x3, w.x4, w.x5, w.x6, w.x7,
    w.x8, w.x9, w.xa, w.xb, w.xc, w.xd, w.xe, w.xf].flatMap
    (fun x => LittleEndian.bytes 4 x.toNat)

theorem Words16.length_bytes
    (w : Words16) :
    w.bytes.length = 64 := by
  simp [Words16.bytes]

def Words16.add (v w : Words16) : Words16 where
  x0 := v.x0 + w.x0
  x1 := v.x1 + w.x1
  x2 := v.x2 + w.x2
  x3 := v.x3 + w.x3
  x4 := v.x4 + w.x4
  x5 := v.x5 + w.x5
  x6 := v.x6 + w.x6
  x7 := v.x7 + w.x7
  x8 := v.x8 + w.x8
  x9 := v.x9 + w.x9
  xa := v.xa + w.xa
  xb := v.xb + w.xb
  xc := v.xc + w.xc
  xd := v.xd + w.xd
  xe := v.xe + w.xe
  xf := v.xf + w.xf

def rotl (a b : UInt32) : UInt32 :=
  (a <<< b) ||| (a >>> (32 - b))

def quarterround (y0 y1 y2 y3 : UInt32) : UInt32 × UInt32 × UInt32 × UInt32 :=
  let z1 := y1 ^^^ rotl (y0 + y3) 7
  let z2 := y2 ^^^ rotl (z1 + y0) 9
  let z3 := y3 ^^^ rotl (z2 + z1) 13
  let z0 := y0 ^^^ rotl (z3 + z2) 18
  (z0, z1, z2, z3)

def columnround (x : Words16) : Words16 :=
  let (y0, y4, y8, yc) := quarterround x.x0 x.x4 x.x8 x.xc
  let (y5, y9, yd, y1) := quarterround x.x5 x.x9 x.xd x.x1
  let (ya, ye, y2, y6) := quarterround x.xa x.xe x.x2 x.x6
  let (yf, y3, y7, yb) := quarterround x.xf x.x3 x.x7 x.xb
  ⟨y0, y1, y2, y3, y4, y5, y6, y7, y8, y9, ya, yb, yc, yd, ye, yf⟩

def rowround (y : Words16) : Words16 :=
  let (z0, z1, z2, z3) := quarterround y.x0 y.x1 y.x2 y.x3
  let (z5, z6, z7, z4) := quarterround y.x5 y.x6 y.x7 y.x4
  let (za, zb, z8, z9) := quarterround y.xa y.xb y.x8 y.x9
  let (zf, zc, zd, ze) := quarterround y.xf y.xc y.xd y.xe
  ⟨z0, z1, z2, z3, z4, z5, z6, z7, z8, z9, za, zb, zc, zd, ze, zf⟩

def doubleround (x : Words16) : Words16 :=
  rowround (columnround x)

/-- The core, on 64 bytes. -/
def salsa20Core (l : List UInt8) : List UInt8 :=
  ((Words16.ofBytes l).add (doubleround^[4] (Words16.ofBytes l))).bytes

theorem length_salsa20Core
    (l : List UInt8) :
    (salsa20Core l).length = 64 :=
  Words16.length_bytes _

/-! ## scrypt -/

/-- The block with a number. -/
def block (B : List UInt8) (i : ℕ) : List UInt8 :=
  slice B (64 * i) 64

/-- `X` of BlockMix behind a number of blocks. -/
def chain (r : ℕ) (B : List UInt8) : ℕ → List UInt8
  | 0 => block B (2 * r - 1)
  | i + 1 => salsa20Core (xorBytes (chain r B i) (block B i))

/-- BlockMix: the results for blocks with even numbers, and behind them the others. -/
def blockMix (r : ℕ) (B : List UInt8) : List UInt8 :=
  (List.range r).flatMap (fun i => chain r B (2 * i + 1)) ++
    (List.range r).flatMap (fun i => chain r B (2 * i + 2))

/-- The last block as a number. -/
def integerify (r : ℕ) (B : List UInt8) : ℕ :=
  LittleEndian.value (block B (2 * r - 1))

/-- A step of the second loop of ROMix.  The entry of the table with number `j` is
`blockMix` applied `j` times. -/
def mixStep (r N : ℕ) (B X : List UInt8) : List UInt8 :=
  blockMix r (xorBytes X ((blockMix r)^[integerify r X % N] B))

def roMix (r N : ℕ) (B : List UInt8) : List UInt8 :=
  (mixStep r N B)^[N] ((blockMix r)^[N] B)

/-- scrypt with a function that derives a number of bytes from a password and a salt. -/
def scrypt (derive : List UInt8 → List UInt8 → ℕ → List UInt8) (pw salt : List UInt8)
    (N r p dkLen : ℕ) : List UInt8 :=
  let B := derive pw salt (128 * r * p)
  let B := (List.range p).flatMap (fun i => roMix r N (slice B (128 * r * i) (128 * r)))
  derive pw B dkLen

theorem length_chain
    (r : ℕ) (B : List UInt8) (i : ℕ) :
    (chain r B (i + 1)).length = 64 :=
  length_salsa20Core _

theorem length_blockMix
    (r : ℕ) (B : List UInt8) :
    (blockMix r B).length = 128 * r := by
  rw [blockMix, List.length_append, length_flatMap_range (fun i => length_chain r B _),
    length_flatMap_range (fun i => length_chain r B _)]
  omega

theorem length_blockMix_iterate
    {r : ℕ} {B : List UInt8}
    (hB : B.length = 128 * r)
    (j : ℕ) :
    ((blockMix r)^[j] B).length = 128 * r := by
  cases j with
  | zero =>
      exact hB
  | succ j =>
      rw [Function.iterate_succ_apply']
      exact length_blockMix r _

theorem length_roMix
    {r N : ℕ} {B : List UInt8}
    (hN : 0 < N) :
    (roMix r N B).length = 128 * r := by
  obtain ⟨m, rfl⟩ := Nat.exists_eq_add_one.mpr hN
  rw [roMix, Function.iterate_succ_apply']
  exact length_blockMix r _

/-- A number up to `2 ^ 64` that is a power of two sees the first word of the last block
only. -/
theorem integerify_mod
    {r k : ℕ} {X : List UInt8}
    (hk : k ≤ 64)
    (hX : 64 * (2 * r - 1) + 64 ≤ X.length) :
    integerify r X % 2 ^ k = LittleEndian.value (slice X (64 * (2 * r - 1)) 8) % 2 ^ k := by
  obtain ⟨d, hd⟩ : 2 ^ k ∣ 256 ^ 8 := (pow_dvd_pow 2 hk).trans (by norm_num)
  rw [integerify, block, show 64 = 8 + 56 from rfl, Segment.slice_add, LittleEndian.value_append,
    length_slice (by omega), hd, Nat.mul_assoc, Nat.add_mul_mod_self_left]

end Scrypt
