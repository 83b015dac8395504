import BreadwalletCore.Data.BlockHash
import BreadwalletCore.Data.RootConstants

/-!
# RIPEMD-160

The hash function RIPEMD-160: two lines of five rounds over the words of a block (`line`).
The order of the words comes from a permutation `rho`, on the right behind `pi`; how far a
turn rotates depends on its round and its word; the constants are roots of the first primes.
-/

namespace Ripemd160

open LittleEndian RootConstants

/-- The working variables, or a hash value. -/
@[ext] structure Vars (α : Type) where
  a : α
  b : α
  c : α
  d : α
  e : α

def Vars.map {α β : Type} (φ : α → β) (s : Vars α) : Vars β :=
  ⟨φ s.a, φ s.b, φ s.c, φ s.d, φ s.e⟩

def Vars.toList {α : Type} (s : Vars α) : List α :=
  [s.a, s.b, s.c, s.d, s.e]

def rho (i : ℕ) : ℕ :=
  [7, 4, 13, 1, 10, 6, 15, 3, 12, 0, 9, 5, 2, 14, 11, 8].getD i 0

def pi (i : ℕ) : ℕ :=
  (9 * i + 5) % 16

/-- How far a turn rotates, for each round and word. -/
def shift (j i : ℕ) : ℕ :=
  ([[11, 14, 15, 12, 5, 8, 7, 9, 11, 13, 14, 15, 6, 7, 9, 8],
    [12, 13, 11, 15, 6, 9, 9, 7, 12, 15, 11, 13, 7, 8, 7, 7],
    [13, 15, 14, 11, 7, 7, 6, 8, 13, 14, 13, 12, 5, 5, 6, 9],
    [14, 11, 12, 14, 8, 6, 5, 5, 15, 12, 15, 14, 9, 9, 8, 6],
    [15, 12, 13, 13, 9, 5, 8, 6, 14, 11, 12, 11, 8, 6, 5, 5]].getD j []).getD i 0

/-- The function of a round on the left; on the right they come the other way round. -/
def logical (j : ℕ) (x y z : BitVec 32) : BitVec 32 :=
  match j with
  | 0 => x ^^^ y ^^^ z
  | 1 => (x &&& y) ||| (~~~x &&& z)
  | 2 => (x ||| ~~~y) ^^^ z
  | 3 => (x &&& z) ||| (y &&& ~~~z)
  | _ => x ^^^ (y ||| ~~~z)

/-- The constants on the left: square roots with 30 bits behind the point, but for the
first. -/
noncomputable def leftConstant : ℕ → BitVec 32
  | 0 => 0
  | j + 1 => BitVec.ofNat 32 (rootBits 2 (Nat.nth Nat.Prime j) 30)

/-- The constants on the right: cube roots, but for the last. -/
noncomputable def rightConstant (j : ℕ) : BitVec 32 :=
  if j = 4 then 0 else BitVec.ofNat 32 (rootBits 3 (Nat.nth Nat.Prime j) 30)

/-- One turn, for the value `x` of the function, the constant `k`, the word `m` and the
rotation `r`. -/
def turn (x k m : BitVec 32) (r : ℕ) (s : Vars (BitVec 32)) : Vars (BitVec 32) :=
  { a := s.e, b := (s.a + x + m + k).rotateLeft r + s.e, c := s.b, d := s.c.rotateLeft 10, e := s.d }

/-- What the two lines differ in, by round. -/
structure Line where
  logical : ℕ → BitVec 32 → BitVec 32 → BitVec 32 → BitVec 32
  constant : ℕ → BitVec 32
  order : ℕ → ℕ → ℕ

noncomputable def left : Line where
  logical := Ripemd160.logical
  constant := leftConstant
  order := fun j i => rho^[j] i

noncomputable def right : Line where
  logical := fun j => Ripemd160.logical (4 - j)
  constant := rightConstant
  order := fun j i => rho^[j] (pi i)

/-- The first turns of a line; a round has sixteen. -/
noncomputable def line (L : Line) (m : ℕ → BitVec 32) (s : Vars (BitVec 32)) : ℕ → Vars (BitVec 32)
  | 0 => s
  | t + 1 =>
      let v := line L m s t
      let i := L.order (t / 16) (t % 16)
      turn (L.logical (t / 16) v.b v.c v.d) (L.constant (t / 16)) (m i) (shift (t / 16) i) v

/-- A word of a block, low byte first. -/
def messageWord (block : List UInt8) (t : ℕ) : BitVec 32 :=
  BitVec.ofNat 32 (value (Segment.slice block (4 * t) 4))

/-- The hash value behind a block. -/
noncomputable def compress (H : Vars (BitVec 32)) (block : List UInt8) : Vars (BitVec 32) :=
  let l := line left (messageWord block) H 80
  let r := line right (messageWord block) H 80
  { a := H.b + l.c + r.d, b := H.c + l.d + r.e, c := H.d + l.e + r.a, d := H.e + l.a + r.b
    e := H.a + l.b + r.c }

/-- RIPEMD-160. -/
noncomputable def ripemd160 : BlockHash (Vars (BitVec 32)) where
  size := 64
  field := fun len => bytes 8 (8 * len)
  init := ⟨0x67452301, 0xefcdab89, 0x98badcfe, 0x10325476, 0xc3d2e1f0⟩
  compress := compress
  output := fun H => H.toList.flatMap (fun x => bytes 4 x.toNat)

theorem left_constant
    (t : ℕ) (ht : t < primes.length) {p n : ℕ}
    (hp : primes[t] = p)
    (hle : n ^ 2 ≤ p * (2 ^ 30) ^ 2)
    (hlt : p * (2 ^ 30) ^ 2 < (n + 1) ^ 2) :
    left.constant (t + 1) = BitVec.ofNat 32 n := by
  have hroot := rootBits_eq (by decide) hle hlt
  change leftConstant (t + 1) = _
  rw [leftConstant, nth_prime ht, hp, hroot]

theorem right_constant
    (t : ℕ) (ht : t < 4) {p n : ℕ}
    (hp : primes.getD t 0 = p)
    (hle : n ^ 3 ≤ p * (2 ^ 30) ^ 3)
    (hlt : p * (2 ^ 30) ^ 3 < (n + 1) ^ 3) :
    right.constant t = BitVec.ofNat 32 n := by
  have hlen : t < primes.length := ht.trans (by decide)
  have hroot := rootBits_eq (by decide) hle hlt
  rw [List.getD_eq_getElem _ _ hlen] at hp
  change rightConstant t = _
  rw [rightConstant, if_neg ht.ne, nth_prime hlen, hp, hroot]

end Ripemd160
