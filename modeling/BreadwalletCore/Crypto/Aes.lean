import BreadwalletCore.Data.RoundCipher
import Mathlib.Data.List.GetD
import Mathlib.Tactic

/-!
# AES-256

`_BRAES256ECBEncrypt` and `_BRAES256ECBDecrypt`, on a block of four columns and a
key of eight.  Neither keeps a table of round keys: the one expands its key as it
goes, the other expands it seven times and takes that back
(`unexpandKey_expandKey`), so that they add the same keys in opposite orders.
-/

namespace BreadwalletCore

namespace AES

/-- `sbox`. -/
def sboxTable : List UInt8 :=
  [0x63, 0x7c, 0x77, 0x7b, 0xf2, 0x6b, 0x6f, 0xc5, 0x30, 0x01, 0x67, 0x2b, 0xfe, 0xd7, 0xab, 0x76,
    0xca, 0x82, 0xc9, 0x7d, 0xfa, 0x59, 0x47, 0xf0, 0xad, 0xd4, 0xa2, 0xaf, 0x9c, 0xa4, 0x72, 0xc0,
    0xb7, 0xfd, 0x93, 0x26, 0x36, 0x3f, 0xf7, 0xcc, 0x34, 0xa5, 0xe5, 0xf1, 0x71, 0xd8, 0x31, 0x15,
    0x04, 0xc7, 0x23, 0xc3, 0x18, 0x96, 0x05, 0x9a, 0x07, 0x12, 0x80, 0xe2, 0xeb, 0x27, 0xb2, 0x75,
    0x09, 0x83, 0x2c, 0x1a, 0x1b, 0x6e, 0x5a, 0xa0, 0x52, 0x3b, 0xd6, 0xb3, 0x29, 0xe3, 0x2f, 0x84,
    0x53, 0xd1, 0x00, 0xed, 0x20, 0xfc, 0xb1, 0x5b, 0x6a, 0xcb, 0xbe, 0x39, 0x4a, 0x4c, 0x58, 0xcf,
    0xd0, 0xef, 0xaa, 0xfb, 0x43, 0x4d, 0x33, 0x85, 0x45, 0xf9, 0x02, 0x7f, 0x50, 0x3c, 0x9f, 0xa8,
    0x51, 0xa3, 0x40, 0x8f, 0x92, 0x9d, 0x38, 0xf5, 0xbc, 0xb6, 0xda, 0x21, 0x10, 0xff, 0xf3, 0xd2,
    0xcd, 0x0c, 0x13, 0xec, 0x5f, 0x97, 0x44, 0x17, 0xc4, 0xa7, 0x7e, 0x3d, 0x64, 0x5d, 0x19, 0x73,
    0x60, 0x81, 0x4f, 0xdc, 0x22, 0x2a, 0x90, 0x88, 0x46, 0xee, 0xb8, 0x14, 0xde, 0x5e, 0x0b, 0xdb,
    0xe0, 0x32, 0x3a, 0x0a, 0x49, 0x06, 0x24, 0x5c, 0xc2, 0xd3, 0xac, 0x62, 0x91, 0x95, 0xe4, 0x79,
    0xe7, 0xc8, 0x37, 0x6d, 0x8d, 0xd5, 0x4e, 0xa9, 0x6c, 0x56, 0xf4, 0xea, 0x65, 0x7a, 0xae, 0x08,
    0xba, 0x78, 0x25, 0x2e, 0x1c, 0xa6, 0xb4, 0xc6, 0xe8, 0xdd, 0x74, 0x1f, 0x4b, 0xbd, 0x8b, 0x8a,
    0x70, 0x3e, 0xb5, 0x66, 0x48, 0x03, 0xf6, 0x0e, 0x61, 0x35, 0x57, 0xb9, 0x86, 0xc1, 0x1d, 0x9e,
    0xe1, 0xf8, 0x98, 0x11, 0x69, 0xd9, 0x8e, 0x94, 0x9b, 0x1e, 0x87, 0xe9, 0xce, 0x55, 0x28, 0xdf,
    0x8c, 0xa1, 0x89, 0x0d, 0xbf, 0xe6, 0x42, 0x68, 0x41, 0x99, 0x2d, 0x0f, 0xb0, 0x54, 0xbb, 0x16]

/-- `sboxi`. -/
def sboxiTable : List UInt8 :=
  [0x52, 0x09, 0x6a, 0xd5, 0x30, 0x36, 0xa5, 0x38, 0xbf, 0x40, 0xa3, 0x9e, 0x81, 0xf3, 0xd7, 0xfb,
    0x7c, 0xe3, 0x39, 0x82, 0x9b, 0x2f, 0xff, 0x87, 0x34, 0x8e, 0x43, 0x44, 0xc4, 0xde, 0xe9, 0xcb,
    0x54, 0x7b, 0x94, 0x32, 0xa6, 0xc2, 0x23, 0x3d, 0xee, 0x4c, 0x95, 0x0b, 0x42, 0xfa, 0xc3, 0x4e,
    0x08, 0x2e, 0xa1, 0x66, 0x28, 0xd9, 0x24, 0xb2, 0x76, 0x5b, 0xa2, 0x49, 0x6d, 0x8b, 0xd1, 0x25,
    0x72, 0xf8, 0xf6, 0x64, 0x86, 0x68, 0x98, 0x16, 0xd4, 0xa4, 0x5c, 0xcc, 0x5d, 0x65, 0xb6, 0x92,
    0x6c, 0x70, 0x48, 0x50, 0xfd, 0xed, 0xb9, 0xda, 0x5e, 0x15, 0x46, 0x57, 0xa7, 0x8d, 0x9d, 0x84,
    0x90, 0xd8, 0xab, 0x00, 0x8c, 0xbc, 0xd3, 0x0a, 0xf7, 0xe4, 0x58, 0x05, 0xb8, 0xb3, 0x45, 0x06,
    0xd0, 0x2c, 0x1e, 0x8f, 0xca, 0x3f, 0x0f, 0x02, 0xc1, 0xaf, 0xbd, 0x03, 0x01, 0x13, 0x8a, 0x6b,
    0x3a, 0x91, 0x11, 0x41, 0x4f, 0x67, 0xdc, 0xea, 0x97, 0xf2, 0xcf, 0xce, 0xf0, 0xb4, 0xe6, 0x73,
    0x96, 0xac, 0x74, 0x22, 0xe7, 0xad, 0x35, 0x85, 0xe2, 0xf9, 0x37, 0xe8, 0x1c, 0x75, 0xdf, 0x6e,
    0x47, 0xf1, 0x1a, 0x71, 0x1d, 0x29, 0xc5, 0x89, 0x6f, 0xb7, 0x62, 0x0e, 0xaa, 0x18, 0xbe, 0x1b,
    0xfc, 0x56, 0x3e, 0x4b, 0xc6, 0xd2, 0x79, 0x20, 0x9a, 0xdb, 0xc0, 0xfe, 0x78, 0xcd, 0x5a, 0xf4,
    0x1f, 0xdd, 0xa8, 0x33, 0x88, 0x07, 0xc7, 0x31, 0xb1, 0x12, 0x10, 0x59, 0x27, 0x80, 0xec, 0x5f,
    0x60, 0x51, 0x7f, 0xa9, 0x19, 0xb5, 0x4a, 0x0d, 0x2d, 0xe5, 0x7a, 0x9f, 0x93, 0xc9, 0x9c, 0xef,
    0xa0, 0xe0, 0x3b, 0x4d, 0xae, 0x2a, 0xf5, 0xb0, 0xc8, 0xeb, 0xbb, 0x3c, 0x83, 0x53, 0x99, 0x61,
    0x17, 0x2b, 0x04, 0x7e, 0xba, 0x77, 0xd6, 0x26, 0xe1, 0x69, 0x14, 0x63, 0x55, 0x21, 0x0c, 0x7d]

def sbox (b : UInt8) : UInt8 :=
  sboxTable.getD b.toNat 0

def sboxi (b : UInt8) : UInt8 :=
  sboxiTable.getD b.toNat 0

/-- `(x & 1) * g`. -/
def lowBit (x g : UInt8) : UInt8 :=
  (x &&& 1) * g

/-- The macro `xt`, cut to a byte: only the lowest eight bits of what it gives
are ever used. -/
def xt (x : UInt8) : UInt8 :=
  (x <<< 1) ^^^ lowBit (x >>> 7) 0x1b

/-- The inverse of `xt`, as `_BRAES256ECBDecrypt` has it. -/
def xtInv (r : UInt8) : UInt8 :=
  (r >>> 1) ^^^ lowBit r 0x8d

/-- Four bytes of a block or of a key. -/
@[ext] structure Column where
  b0 : UInt8
  b1 : UInt8
  b2 : UInt8
  b3 : UInt8
  deriving DecidableEq

namespace Column

def map (f : UInt8 → UInt8) (c : Column) : Column :=
  ⟨f c.b0, f c.b1, f c.b2, f c.b3⟩

instance : XorOp Column where
  xor u v := ⟨u.b0 ^^^ v.b0, u.b1 ^^^ v.b1, u.b2 ^^^ v.b2, u.b3 ^^^ v.b3⟩

/-- The bytes that are substituted for the first word of a key. -/
def rotate (c : Column) : Column :=
  ⟨c.b1, c.b2, c.b3, c.b0⟩

/-- One turn of the loop that mixes columns. -/
def mix (x : Column) : Column :=
  let e := x.b0 ^^^ x.b1 ^^^ x.b2 ^^^ x.b3
  ⟨x.b0 ^^^ (e ^^^ xt (x.b0 ^^^ x.b1)), x.b1 ^^^ (e ^^^ xt (x.b1 ^^^ x.b2)),
    x.b2 ^^^ (e ^^^ xt (x.b2 ^^^ x.b3)), x.b3 ^^^ (e ^^^ xt (x.b3 ^^^ x.b0))⟩

/-- One turn of the loop that unmixes columns. -/
def unmix (x : Column) : Column :=
  let e := x.b0 ^^^ x.b1 ^^^ x.b2 ^^^ x.b3
  let h := xt e
  let f := e ^^^ xt (xt (h ^^^ x.b0 ^^^ x.b2))
  let g := e ^^^ xt (xt (h ^^^ x.b1 ^^^ x.b3))
  ⟨x.b0 ^^^ (f ^^^ xt (x.b0 ^^^ x.b1)), x.b1 ^^^ (g ^^^ xt (x.b1 ^^^ x.b2)),
    x.b2 ^^^ (f ^^^ xt (x.b2 ^^^ x.b3)), x.b3 ^^^ (g ^^^ xt (x.b3 ^^^ x.b0))⟩

end Column

/-- A block, or half of a key. -/
@[ext] structure Block where
  c0 : Column
  c1 : Column
  c2 : Column
  c3 : Column
  deriving DecidableEq

namespace Block

def map (f : Column → Column) (x : Block) : Block :=
  ⟨f x.c0, f x.c1, f x.c2, f x.c3⟩

instance : XorOp Block where
  xor x y := ⟨x.c0 ^^^ y.c0, x.c1 ^^^ y.c1, x.c2 ^^^ y.c2, x.c3 ^^^ y.c3⟩

def shiftRows (x : Block) : Block :=
  ⟨⟨x.c0.b0, x.c1.b1, x.c2.b2, x.c3.b3⟩, ⟨x.c1.b0, x.c2.b1, x.c3.b2, x.c0.b3⟩,
    ⟨x.c2.b0, x.c3.b1, x.c0.b2, x.c1.b3⟩, ⟨x.c3.b0, x.c0.b1, x.c1.b2, x.c2.b3⟩⟩

def unshiftRows (x : Block) : Block :=
  ⟨⟨x.c0.b0, x.c3.b1, x.c2.b2, x.c1.b3⟩, ⟨x.c1.b0, x.c0.b1, x.c3.b2, x.c2.b3⟩,
    ⟨x.c2.b0, x.c1.b1, x.c0.b2, x.c3.b3⟩, ⟨x.c3.b0, x.c2.b1, x.c1.b2, x.c0.b3⟩⟩

/-- The words of half a key, each xored with the one before it, the first with
`u`. -/
def chain (k : Block) (u : Column) : Block :=
  let c0 := k.c0 ^^^ u
  let c1 := k.c1 ^^^ c0
  let c2 := k.c2 ^^^ c1
  ⟨c0, c1, c2, k.c3 ^^^ c2⟩

/-- The same taken back, from the last word on, but for the first word. -/
def unchain (k : Block) : Block :=
  ⟨k.c0, k.c1 ^^^ k.c0, k.c2 ^^^ k.c1, k.c3 ^^^ k.c2⟩

end Block

/-- `k` and `r`. -/
@[ext] structure Schedule where
  lo : Block
  hi : Block
  r : UInt8
  deriving DecidableEq

/-- Expand the key. -/
def expandKey (s : Schedule) : Schedule :=
  let lo := s.lo.chain (s.hi.c3.rotate.map sbox ^^^ ⟨s.r, 0, 0, 0⟩)
  ⟨lo, s.hi.chain (lo.c3.map sbox), xt s.r⟩

/-- Unexpand the key. -/
def unexpandKey (s : Schedule) : Schedule :=
  let hi := s.hi.unchain
  let hi := { hi with c0 := hi.c0 ^^^ s.lo.c3.map sbox }
  let lo := s.lo.unchain
  let r := xtInv s.r
  ⟨{ lo with c0 := lo.c0 ^^^ (hi.c3.rotate.map sbox ^^^ ⟨r, 0, 0, 0⟩) }, hi, r⟩

/-- The words of the key for round `i`. -/
def roundKey (s : Schedule) (i : ℕ) : Block :=
  if i % 2 = 1 then s.hi else s.lo

/-- A turn of the loop of `_BRAES256ECBEncrypt`. -/
def encryptRound (s : Block × Schedule) (i : ℕ) : Block × Schedule :=
  let x := s.1 ^^^ roundKey s.2 i
  let x := x.map (Column.map sbox)
  let x := x.shiftRows
  let x := if i < 13 then x.map Column.mix else x
  (x, if i % 2 ≠ 0 then expandKey s.2 else s.2)

/-- `_BRAES256ECBEncrypt`, of a block. -/
def encrypt (lo hi x : Block) : Block :=
  let s := (List.range 14).foldl encryptRound (x, ⟨lo, hi, 1⟩)
  s.1 ^^^ s.2.lo

/-- A turn of the loop of `_BRAES256ECBDecrypt`. -/
def decryptRound (s : Block × Schedule) (i : ℕ) : Block × Schedule :=
  let x := s.1 ^^^ roundKey s.2 i
  let x := if i > 0 then x.map Column.unmix else x
  let x := x.unshiftRows
  let x := x.map (Column.map sboxi)
  (x, if i % 2 = 0 then unexpandKey s.2 else s.2)

/-- `_BRAES256ECBDecrypt`, of a block. -/
def decrypt (lo hi x : Block) : Block :=
  let k := (List.range 7).foldl (fun k _ => expandKey k) ⟨lo, hi, 1⟩
  let s := (List.range 14).foldl decryptRound (x, k)
  s.1 ^^^ s.2.lo

/-- Four bytes of memory. -/
def columnAt (l : List UInt8) (i : ℕ) : Column :=
  ⟨l.getD i 0, l.getD (i + 1) 0, l.getD (i + 2) 0, l.getD (i + 3) 0⟩

/-- Sixteen bytes of memory. -/
def blockAt (l : List UInt8) (i : ℕ) : Block :=
  ⟨columnAt l i, columnAt l (i + 4), columnAt l (i + 8), columnAt l (i + 12)⟩

def Column.bytes (c : Column) : List UInt8 :=
  [c.b0, c.b1, c.b2, c.b3]

def Block.bytes (x : Block) : List UInt8 :=
  x.c0.bytes ++ x.c1.bytes ++ x.c2.bytes ++ x.c3.bytes

/-- `_BRAES256ECBEncrypt`. -/
def BRAES256ECBEncrypt (key32 buf16 : List UInt8) : List UInt8 :=
  (encrypt (blockAt key32 0) (blockAt key32 16) (blockAt buf16 0)).bytes

/-- `_BRAES256ECBDecrypt`. -/
def BRAES256ECBDecrypt (key32 buf16 : List UInt8) : List UInt8 :=
  (decrypt (blockAt key32 0) (blockAt key32 16) (blockAt buf16 0)).bytes

/-! ## Bytes -/

theorem sboxi_sbox_ofNat :
    ∀ n < 256, sboxi (sbox (UInt8.ofNat n)) = UInt8.ofNat n := by
  decide +kernel

theorem sboxi_sbox
    (b : UInt8) :
    sboxi (sbox b) = b := by
  have h := sboxi_sbox_ofNat b.toNat b.toNat_lt
  rwa [UInt8.ofNat_toNat] at h

theorem xtInv_xt_ofNat :
    ∀ n < 256, xtInv (xt (UInt8.ofNat n)) = UInt8.ofNat n := by
  decide +kernel

theorem xtInv_xt
    (r : UInt8) :
    xtInv (xt r) = r := by
  have h := xtInv_xt_ofNat r.toNat r.toNat_lt
  rwa [UInt8.ofNat_toNat] at h

theorem and_one_cases
    (x : UInt8) :
    x &&& 1 = 0 ∨ x &&& 1 = 1 := by
  have hmod : (x &&& 1).toNat = x.toNat % 2 := by
    rw [UInt8.toNat_and]
    exact Nat.and_one_is_mod _
  rcases Nat.mod_two_eq_zero_or_one x.toNat with h | h
  · exact .inl (UInt8.toNat_inj.mp (by rw [hmod, h]; rfl))
  · exact .inr (UInt8.toNat_inj.mp (by rw [hmod, h]; rfl))

theorem lowBit_xor
    (a b g : UInt8) :
    lowBit (a ^^^ b) g = lowBit a g ^^^ lowBit b g := by
  have hand : (a ^^^ b) &&& 1 = (a &&& 1) ^^^ (b &&& 1) := by
    refine UInt8.toNat_inj.mp ?_
    simp only [UInt8.toNat_and, UInt8.toNat_xor, Nat.and_xor_distrib_right]
  rw [lowBit, lowBit, lowBit, hand]
  rcases and_one_cases a with ha | ha <;> rcases and_one_cases b with hb | hb <;> rw [ha, hb]
  · rw [UInt8.xor_self, UInt8.zero_mul, UInt8.xor_self]
  · rw [UInt8.zero_xor, UInt8.zero_mul, UInt8.zero_xor]
  · rw [UInt8.xor_zero, UInt8.zero_mul, UInt8.xor_zero]
  · rw [UInt8.xor_self, UInt8.zero_mul, UInt8.xor_self]

/-- Doubling is linear. -/
theorem xt_xor
    (a b : UInt8) :
    xt (a ^^^ b) = xt a ^^^ xt b := by
  rw [xt, xt, xt, UInt8.shiftLeft_xor, UInt8.shiftRight_xor, lowBit_xor]
  ac_rfl

theorem xor_cancel_left
    (a b : UInt8) :
    a ^^^ (a ^^^ b) = b := by
  rw [← UInt8.xor_assoc, UInt8.xor_self, UInt8.zero_xor]

theorem xor_cancel_right
    (a b : UInt8) :
    a ^^^ b ^^^ b = a := by
  rw [UInt8.xor_assoc, UInt8.xor_self, UInt8.xor_zero]

theorem xor_left_comm
    (a b c : UInt8) :
    a ^^^ (b ^^^ c) = b ^^^ (a ^^^ c) := by
  rw [← UInt8.xor_assoc, UInt8.xor_comm a b, UInt8.xor_assoc]

/-! ## Columns and blocks -/

theorem Column.xor_cancel
    (u v : Column) :
    u ^^^ v ^^^ v = u :=
  Column.ext (xor_cancel_right _ _) (xor_cancel_right _ _) (xor_cancel_right _ _)
    (xor_cancel_right _ _)

theorem Block.xor_cancel
    (x y : Block) :
    x ^^^ y ^^^ y = x :=
  Block.ext (Column.xor_cancel _ _) (Column.xor_cancel _ _) (Column.xor_cancel _ _)
    (Column.xor_cancel _ _)

/-- The sum of a column that was mixed. -/
theorem mix_sum
    (a b c d e p q r s : UInt8) :
    a ^^^ (e ^^^ (p ^^^ q)) ^^^ (b ^^^ (e ^^^ (q ^^^ r))) ^^^ (c ^^^ (e ^^^ (r ^^^ s))) ^^^
        (d ^^^ (e ^^^ (s ^^^ p))) = a ^^^ b ^^^ c ^^^ d := by
  simp only [UInt8.xor_comm, xor_left_comm, xor_cancel_left, UInt8.xor_self, UInt8.xor_zero]

/-- The sum of two bytes next to each other. -/
theorem mix_next
    (a b e p q r : UInt8) :
    a ^^^ (e ^^^ (p ^^^ q)) ^^^ (b ^^^ (e ^^^ (q ^^^ r))) = a ^^^ b ^^^ (p ^^^ r) := by
  simp only [UInt8.xor_comm, xor_left_comm, xor_cancel_left]

/-- The sum of two bytes two places apart. -/
theorem mix_apart
    (a c e p q r s : UInt8) :
    p ^^^ q ^^^ r ^^^ s ^^^ (a ^^^ (e ^^^ (p ^^^ q))) ^^^ (c ^^^ (e ^^^ (r ^^^ s))) =
      a ^^^ c := by
  simp only [UInt8.xor_comm, xor_left_comm, xor_cancel_left, UInt8.xor_self, UInt8.xor_zero]

theorem mix_undo
    (a e p q t u : UInt8) :
    a ^^^ (e ^^^ (p ^^^ q)) ^^^ (e ^^^ (t ^^^ u) ^^^ (p ^^^ q ^^^ (t ^^^ u))) = a := by
  simp only [UInt8.xor_comm, xor_left_comm, UInt8.xor_self, UInt8.xor_zero]

theorem Column.unmix_mix
    (x : Column) :
    x.mix.unmix = x := by
  obtain ⟨a, b, c, d⟩ := x
  obtain ⟨e, he⟩ : ∃ e, a ^^^ b ^^^ c ^^^ d = e := ⟨_, rfl⟩
  have hxe : xt e = xt a ^^^ xt b ^^^ xt c ^^^ xt d := by
    rw [← he, xt_xor, xt_xor, xt_xor]
  have hsum := mix_sum a b c d e (xt a) (xt b) (xt c) (xt d)
  rw [he] at hsum
  have hac := mix_apart a c e (xt a) (xt b) (xt c) (xt d)
  rw [← hxe] at hac
  have hbd := mix_apart b d e (xt b) (xt c) (xt d) (xt a)
  rw [show xt b ^^^ xt c ^^^ xt d ^^^ xt a = xt e by rw [hxe]; ac_rfl] at hbd
  simp only [mix, unmix, he, xt_xor a b, xt_xor b c, xt_xor c d, xt_xor d a]
  simp only [hsum, hac, hbd]
  simp only [mix_next, xt_xor]
  refine Column.ext (mix_undo a e _ _ _ _) (mix_undo b e _ _ _ _) ?_ ?_
  · rw [UInt8.xor_comm (xt (xt c))]
    exact mix_undo c e _ _ _ _
  · rw [UInt8.xor_comm (xt (xt d))]
    exact mix_undo d e _ _ _ _

theorem Block.unmix_mix
    (x : Block) :
    (x.map Column.mix).map Column.unmix = x :=
  Block.ext (Column.unmix_mix _) (Column.unmix_mix _) (Column.unmix_mix _) (Column.unmix_mix _)

theorem Column.sboxi_sbox
    (x : Column) :
    (x.map sbox).map sboxi = x :=
  Column.ext (AES.sboxi_sbox _) (AES.sboxi_sbox _) (AES.sboxi_sbox _) (AES.sboxi_sbox _)

theorem Block.sboxi_sbox
    (x : Block) :
    (x.map (Column.map sbox)).map (Column.map sboxi) = x :=
  Block.ext (Column.sboxi_sbox _) (Column.sboxi_sbox _) (Column.sboxi_sbox _)
    (Column.sboxi_sbox _)

theorem Block.unshiftRows_shiftRows
    (x : Block) :
    x.shiftRows.unshiftRows = x := by
  rfl

/-- All words but the first are as they were. -/
theorem Block.unchain_chain
    (k : Block) (u : Column) :
    (k.chain u).unchain = ⟨k.c0 ^^^ u, k.c1, k.c2, k.c3⟩ :=
  Block.ext rfl (Column.xor_cancel _ _) (Column.xor_cancel _ _) (Column.xor_cancel _ _)

/-- The words are taken back in the opposite order. -/
theorem unexpandKey_expandKey
    (s : Schedule) :
    unexpandKey (expandKey s) = s := by
  simp only [unexpandKey, expandKey, Block.unchain_chain, Column.xor_cancel, xtInv_xt]

/-! ## The rounds -/

/-- The key after it was expanded `n` times. -/
def expanded (lo hi : Block) (n : ℕ) : Schedule :=
  expandKey^[n] ⟨lo, hi, 1⟩

/-- The key that round `i` adds. -/
def keyOf (lo hi : Block) (i : ℕ) : Block :=
  roundKey (expanded lo hi (i / 2)) i

/-- What round `i` of `_BRAES256ECBEncrypt` does to a block with the key added. -/
def permute (i : ℕ) (x : Block) : Block :=
  let x := (x.map (Column.map sbox)).shiftRows
  if i < 13 then x.map Column.mix else x

/-- What undoes round `i`. -/
def unpermute (i : ℕ) (x : Block) : Block :=
  ((if i < 13 then x.map Column.unmix else x).unshiftRows).map (Column.map sboxi)

theorem unpermute_permute
    (i : ℕ) (x : Block) :
    unpermute i (permute i x) = x := by
  rw [unpermute, permute]
  by_cases hi : i < 13
  · rw [if_pos hi, if_pos hi, Block.unmix_mix, Block.unshiftRows_shiftRows, Block.sboxi_sbox]
  · rw [if_neg hi, if_neg hi, Block.unshiftRows_shiftRows, Block.sboxi_sbox]

/-- The key is expanded at the end of every other round. -/
theorem encryptRound_range
    (lo hi x : Block) (n : ℕ) :
    (List.range n).foldl encryptRound (x, ⟨lo, hi, 1⟩) =
      (RoundCipher.rounds (fun i x => x ^^^ keyOf lo hi i) permute x n,
        expanded lo hi (n / 2)) := by
  induction n with
  | zero =>
      rfl
  | succ n ih =>
      rw [List.range_succ, List.foldl_append, ih, List.foldl_cons, List.foldl_nil, encryptRound]
      refine Prod.ext rfl ?_
      change (if n % 2 ≠ 0 then expandKey (expanded lo hi (n / 2)) else expanded lo hi (n / 2)) =
        expanded lo hi ((n + 1) / 2)
      by_cases hodd : n % 2 ≠ 0
      · rw [if_pos hodd, show (n + 1) / 2 = n / 2 + 1 by omega, expanded, expanded,
          Function.iterate_succ_apply']
      · rw [if_neg hodd, show (n + 1) / 2 = n / 2 by omega]

theorem encrypt_eq
    (lo hi x : Block) :
    encrypt lo hi x = RoundCipher.encipher (fun i x => x ^^^ keyOf lo hi i) permute 14 x := by
  rw [encrypt, encryptRound_range]
  rfl

theorem foldl_expandKey
    (lo hi : Block) (n : ℕ) :
    (List.range n).foldl (fun k _ => expandKey k) ⟨lo, hi, 1⟩ = expanded lo hi n := by
  induction n with
  | zero =>
      rfl
  | succ n ih =>
      rw [List.range_succ, List.foldl_append, ih, List.foldl_cons, List.foldl_nil, expanded,
        expanded, Function.iterate_succ_apply']

/-- The key is taken back at the end of every other round, so that each round
adds the key of the round that it undoes. -/
theorem decryptRound_range
    (lo hi x : Block) {n : ℕ}
    (hn : n ≤ 14) :
    (List.range n).foldl decryptRound (x, expanded lo hi 7) =
      (RoundCipher.unrounds (fun i x => x ^^^ keyOf lo hi i) unpermute 14 x n,
        expanded lo hi (7 - (n + 1) / 2)) := by
  induction n with
  | zero =>
      rfl
  | succ n ih =>
      rw [List.range_succ, List.foldl_append, ih (by omega), List.foldl_cons, List.foldl_nil,
        decryptRound]
      have hkey : roundKey (expanded lo hi (7 - (n + 1) / 2)) n = keyOf lo hi (14 - n) := by
        rw [keyOf, show (14 - n) / 2 = 7 - (n + 1) / 2 by omega, roundKey, roundKey,
          show (14 - n) % 2 = n % 2 by omega]
      refine Prod.ext ?_ ?_
      · -- no columns were mixed in the last round
        change ((if n > 0 then _ else _ : Block).unshiftRows).map (Column.map sboxi) = _
        rw [hkey, RoundCipher.unrounds, unpermute]
        by_cases hzero : n > 0
        · rw [if_pos hzero, if_pos (by omega)]
        · rw [if_neg hzero, if_neg (by omega)]
      · change (if n % 2 = 0 then unexpandKey (expanded lo hi (7 - (n + 1) / 2))
          else expanded lo hi (7 - (n + 1) / 2)) = expanded lo hi (7 - (n + 1 + 1) / 2)
        by_cases heven : n % 2 = 0
        · obtain ⟨k, hk⟩ : ∃ k, 7 - (n + 1) / 2 = k + 1 := ⟨6 - (n + 1) / 2, by omega⟩
          rw [if_pos heven, hk, show 7 - (n + 1 + 1) / 2 = k by omega, expanded,
            Function.iterate_succ_apply', unexpandKey_expandKey]
          rfl
        · rw [if_neg heven, show (n + 1 + 1) / 2 = (n + 1) / 2 by omega]

theorem decrypt_eq
    (lo hi x : Block) :
    decrypt lo hi x = RoundCipher.decipher (fun i x => x ^^^ keyOf lo hi i) unpermute 14 x := by
  rw [decrypt, foldl_expandKey, decryptRound_range lo hi x le_rfl]
  rfl

theorem decrypt_encrypt
    (lo hi x : Block) :
    decrypt lo hi (encrypt lo hi x) = x := by
  rw [decrypt_eq, encrypt_eq]
  exact RoundCipher.decipher_encipher (fun i x => Block.xor_cancel x _)
    (fun i _ x => unpermute_permute i x) x

/-! ## Memory -/

theorem blockAt_bytes
    (x : Block) :
    blockAt x.bytes 0 = x := by
  rfl

theorem bytes_blockAt
    {l : List UInt8}
    (hl : l.length = 16) :
    (blockAt l 0).bytes = l := by
  have hrange : (blockAt l 0).bytes = (List.range 16).map (fun i => l.getD i 0) := rfl
  rw [hrange]
  refine List.ext_getElem (by rw [List.length_map, List.length_range, hl]) (fun i _ hi => ?_)
  rw [List.getElem_map, List.getElem_range, List.getD_eq_getElem _ _ hi]

@[simp] theorem length_BRAES256ECBEncrypt
    (key32 buf16 : List UInt8) :
    (BRAES256ECBEncrypt key32 buf16).length = 16 := by
  rfl

/-- Decrypting with a key undoes encrypting with it. -/
theorem BRAES256ECBDecrypt_encrypt
    (key32 : List UInt8) {buf16 : List UInt8}
    (hbuf : buf16.length = 16) :
    BRAES256ECBDecrypt key32 (BRAES256ECBEncrypt key32 buf16) = buf16 := by
  rw [BRAES256ECBDecrypt, BRAES256ECBEncrypt, blockAt_bytes, decrypt_encrypt, bytes_blockAt hbuf]

end AES

end BreadwalletCore
