import BreadwalletCore.Data.BlockHash
import BreadwalletCore.Data.RootConstants

/-!
# SHA-2

The hash functions of SHA-2 for words of `w` bits, in the words of their standard.

* A message is padded to blocks of sixteen words (`padded`), a word has its high byte first.
* The message schedule is a recurrence (`schedule`), the rounds are a recursion (`rounds`).
* The constants are bits of the roots of primes (`roundConstant`, `squareRoot`).
-/

namespace Sha2

open LittleEndian RootConstants

/-- The working variables, or a hash value. -/
@[ext] structure Vars (α : Type) where
  a : α
  b : α
  c : α
  d : α
  e : α
  f : α
  g : α
  h : α

/-- A function on each variable. -/
def Vars.map {α β : Type} (φ : α → β) (s : Vars α) : Vars β :=
  ⟨φ s.a, φ s.b, φ s.c, φ s.d, φ s.e, φ s.f, φ s.g, φ s.h⟩

def Vars.toList {α : Type} (s : Vars α) : List α :=
  [s.a, s.b, s.c, s.d, s.e, s.f, s.g, s.h]

def Vars.ofFn {α : Type} (f : ℕ → α) : Vars α :=
  ⟨f 0, f 1, f 2, f 3, f 4, f 5, f 6, f 7⟩

def Vars.add {α : Type} [Add α] (s s' : Vars α) : Vars α :=
  ⟨s.a + s'.a, s.b + s'.b, s.c + s'.c, s.d + s'.d, s.e + s'.e, s.f + s'.f, s.g + s'.g, s.h + s'.h⟩

theorem Vars.toList_map
    {α β : Type} (φ : α → β) (s : Vars α) :
    (s.map φ).toList = s.toList.map φ :=
  rfl

/-- What the two word sizes differ in. -/
structure Variant (w : ℕ) where
  bigSigma0 : BitVec w → BitVec w
  bigSigma1 : BitVec w → BitVec w
  sigma0 : BitVec w → BitVec w
  sigma1 : BitVec w → BitVec w
  turns : ℕ

/-- The functions on words of 32 bits. -/
def variant32 : Variant 32 where
  bigSigma0 := fun x => x.rotateRight 2 ^^^ x.rotateRight 13 ^^^ x.rotateRight 22
  bigSigma1 := fun x => x.rotateRight 6 ^^^ x.rotateRight 11 ^^^ x.rotateRight 25
  sigma0 := fun x => x.rotateRight 7 ^^^ x.rotateRight 18 ^^^ (x >>> 3)
  sigma1 := fun x => x.rotateRight 17 ^^^ x.rotateRight 19 ^^^ (x >>> 10)
  turns := 64

/-- The functions on words of 64 bits. -/
def variant64 : Variant 64 where
  bigSigma0 := fun x => x.rotateRight 28 ^^^ x.rotateRight 34 ^^^ x.rotateRight 39
  bigSigma1 := fun x => x.rotateRight 14 ^^^ x.rotateRight 18 ^^^ x.rotateRight 41
  sigma0 := fun x => x.rotateRight 1 ^^^ x.rotateRight 8 ^^^ (x >>> 7)
  sigma1 := fun x => x.rotateRight 19 ^^^ x.rotateRight 61 ^^^ (x >>> 6)
  turns := 80

section Compression

variable {w : ℕ} (v : Variant w)

/-- The constant of a turn: the first bits of the fraction of a cube root. -/
noncomputable def roundConstant (w t : ℕ) : BitVec w :=
  BitVec.ofNat w (rootBits 3 (Nat.nth Nat.Prime t) w)

/-- The last `w` of the first `n` bits of the fraction of a square root. -/
noncomputable def squareRoot (w n t : ℕ) : BitVec w :=
  BitVec.ofNat w (rootBits 2 (Nat.nth Nat.Prime t) n)

/-- The message schedule. -/
def schedule (m : ℕ → BitVec w) (t : ℕ) : BitVec w :=
  if t < 16 then m t
  else v.sigma1 (schedule m (t - 2)) + schedule m (t - 7) + v.sigma0 (schedule m (t - 15)) +
    schedule m (t - 16)
termination_by t
decreasing_by all_goals omega

def choose (x y z : BitVec w) : BitVec w :=
  (x &&& y) ^^^ (~~~x &&& z)

def majority (x y z : BitVec w) : BitVec w :=
  (x &&& y) ^^^ (x &&& z) ^^^ (y &&& z)

/-- One turn, for the constant `k` and the word `x`. -/
def turn (k x : BitVec w) (s : Vars (BitVec w)) : Vars (BitVec w) :=
  let t1 := s.h + v.bigSigma1 s.e + choose s.e s.f s.g + k + x
  let t2 := v.bigSigma0 s.a + majority s.a s.b s.c
  ⟨t1 + t2, s.a, s.b, s.c, s.d + t1, s.e, s.f, s.g⟩

/-- The first turns. -/
noncomputable def rounds (m : ℕ → BitVec w) (s : Vars (BitVec w)) : ℕ → Vars (BitVec w)
  | 0 => s
  | t + 1 => turn v (roundConstant w t) (schedule v m t) (rounds m s t)

/-- A word of a block. -/
def messageWord (w : ℕ) (block : List UInt8) (t : ℕ) : BitVec w :=
  BitVec.ofNat w (value (Segment.slice block (w / 8 * t) (w / 8)).reverse)

/-- The hash value behind a block. -/
noncomputable def compress (H : Vars (BitVec w)) (block : List UInt8) : Vars (BitVec w) :=
  (rounds v (messageWord w block) H v.turns).add H

/-- The hash function that begins with `init` and ends with `n` words. -/
noncomputable def hash (init : Vars (BitVec w)) (n : ℕ) : BlockHash (Vars (BitVec w)) where
  size := 2 * w
  field := fun len => reversed (w / 4) (8 * len)
  init := init
  compress := compress v
  output := fun H => (H.toList.take n).flatMap (fun x => reversed (w / 8) x.toNat)

end Compression

/-- SHA-224. -/
noncomputable def sha224 : BlockHash (Vars (BitVec 32)) :=
  hash variant32 (Vars.ofFn fun t => squareRoot 32 64 (t + 8)) 7

/-- SHA-256. -/
noncomputable def sha256 : BlockHash (Vars (BitVec 32)) :=
  hash variant32 (Vars.ofFn (squareRoot 32 32)) 8

/-- SHA-384. -/
noncomputable def sha384 : BlockHash (Vars (BitVec 64)) :=
  hash variant64 (Vars.ofFn fun t => squareRoot 64 64 (t + 8)) 6

/-- SHA-512. -/
noncomputable def sha512 : BlockHash (Vars (BitVec 64)) :=
  hash variant64 (Vars.ofFn (squareRoot 64 64)) 8

section Lemmas

variable {w : ℕ} {v : Variant w} {m : ℕ → BitVec w}

theorem schedule_lt
    {t : ℕ}
    (ht : t < 16) :
    schedule v m t = m t := by
  rw [schedule, if_pos ht]

theorem schedule_ge
    {t : ℕ}
    (ht : 16 ≤ t) :
    schedule v m t = v.sigma1 (schedule v m (t - 2)) + schedule v m (t - 7) +
      v.sigma0 (schedule v m (t - 15)) + schedule v m (t - 16) := by
  rw [schedule, if_neg (Nat.not_lt.mpr ht)]

/-- A constant is known from its inequalities. -/
theorem ofNat_rootBits
    {k t n c : ℕ} {x : BitVec w}
    (hk : k ≠ 0)
    (ht : t < primes.length)
    (h : IsFraction k (primes.getD t 0) n c)
    (hw : w ≤ n)
    (hx : x.toNat = c % 2 ^ w) :
    BitVec.ofNat w (rootBits k (Nat.nth Nat.Prime t) n) = x := by
  apply BitVec.eq_of_toNat_eq
  rw [BitVec.toNat_ofNat, nth_prime ht, hx, ← rootBits_mod hk h, List.getD_eq_getElem _ _ ht,
    Nat.mod_mod_of_dvd _ (Nat.pow_dvd_pow 2 hw)]

end Lemmas

end Sha2
