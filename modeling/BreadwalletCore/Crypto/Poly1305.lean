import BreadwalletCore.Crypto

/-!
# The limbs of Poly1305

`_BRPoly1305Compress` keeps a number in five limbs of 26 bits, in words of 32
bits, and multiplies them in words of 64 bits.  Next to it stands the same
arithmetic on natural numbers, which has no width: the words hold exactly these
numbers, block after block, and their value is the polynomial modulo 2^130 - 5.
-/

namespace BreadwalletCore

namespace Poly1305

/-! ## Words -/

/-- The low bits of one word behind the high bits of another. -/
theorem toNat_shift_or
    (lo hi s k : UInt32)
    (hs : s.toNat < 32) (hk : k.toNat < 32)
    (hlo : lo.toNat / 2 ^ s.toNat < 2 ^ k.toNat) :
    ((lo >>> s) ||| (hi <<< k)).toNat =
      lo.toNat / 2 ^ s.toNat + hi.toNat * 2 ^ k.toNat % 2 ^ 32 := by
  have hsplit : (2 : ℕ) ^ 32 = 2 ^ (32 - k.toNat) * 2 ^ k.toNat := by
    rw [← pow_add]
    congr 1
    omega
  rw [UInt32.toNat_or, UInt32.toNat_shiftRight, UInt32.toNat_shiftLeft, Nat.mod_eq_of_lt hs,
    Nat.mod_eq_of_lt hk, Nat.shiftRight_eq_div_pow, Nat.shiftLeft_eq, hsplit,
    Nat.mul_mod_mul_right, ← Nat.shiftLeft_eq, Nat.or_comm, ← Nat.shiftLeft_add_eq_or_of_lt hlo,
    Nat.add_comm]

/-- A mask of 26 bits sees 26 bits. -/
theorem toNat_and_mask
    {w m : UInt32} {n : ℕ}
    (hm : m.toNat < 2 ^ 26)
    (hw : w.toNat % 2 ^ 26 = n % 2 ^ 26) :
    (w &&& m).toNat = n % 2 ^ 26 &&& m.toNat := by
  have hlt : w.toNat &&& m.toNat < 2 ^ 26 := lt_of_le_of_lt Nat.and_le_right hm
  rw [UInt32.toNat_and, ← Nat.mod_eq_of_lt hlt, Nat.and_mod_two_pow, hw, Nat.mod_eq_of_lt hm]

theorem and_mask26
    (n : ℕ) :
    n &&& 0x03ffffff = n % 2 ^ 26 :=
  Nat.and_two_pow_sub_one_eq_mod n 26

/-- The number in the first 16 bytes is that of their words. -/
theorem value_words
    {x : List UInt8}
    (hlen : 16 ≤ x.length) :
    LittleEndian.value (x.take 16) = (word32 x 0).toNat + 2 ^ 32 * (word32 x 1).toNat +
      2 ^ 64 * (word32 x 2).toNat + 2 ^ 96 * (word32 x 3).toNat := by
  have hword : ∀ i < 4, (word32 x i).toNat = LittleEndian.value ((x.drop (4 * i)).take 4) := by
    intro i hi
    have hslice : ((x.drop (4 * i)).take 4).length = 4 := by
      rw [List.length_take, List.length_drop]
      omega
    have hlt := LittleEndian.value_lt ((x.drop (4 * i)).take 4)
    rw [hslice] at hlt
    rw [word32, UInt32.toNat_ofNat', Nat.mod_eq_of_lt (by omega)]
  have hsplit : x.take 16 = (x.drop 0).take 4 ++ ((x.drop 4).take 4 ++ ((x.drop 8).take 4 ++
      (x.drop 12).take 4)) := by
    rw [show (16 : ℕ) = 4 + (4 + (4 + 4)) from rfl, List.take_add, List.take_add, List.take_add,
      List.drop_drop, List.drop_drop, List.drop_zero]
  have hlens : ∀ i < 4, ((x.drop (4 * i)).take 4).length = 4 := by
    intro i hi
    rw [List.length_take, List.length_drop]
    omega
  rw [hsplit, LittleEndian.value_append, LittleEndian.value_append, LittleEndian.value_append,
    hlens 0 (by omega), hlens 1 (by omega), hlens 2 (by omega), hword 0 (by omega),
    hword 1 (by omega), hword 2 (by omega), hword 3 (by omega)]
  ring

/-- What the masks and shifts of `t0` to `t3` see of a number of 16 bytes. -/
structure LimbsOf (X : ℕ) (t0 t1 t2 t3 : UInt32) : Prop where
  first : t0.toNat % 2 ^ 26 = X % 2 ^ 26
  second : ((t0 >>> 26) ||| (t1 <<< 6)).toNat % 2 ^ 26 = X / 2 ^ 26 % 2 ^ 26
  third : ((t1 >>> 20) ||| (t2 <<< 12)).toNat % 2 ^ 26 = X / 2 ^ 52 % 2 ^ 26
  fourth : ((t2 >>> 14) ||| (t3 <<< 18)).toNat % 2 ^ 26 = X / 2 ^ 78 % 2 ^ 26
  fifth : (t3 >>> 8).toNat = X / 2 ^ 104

theorem limbsOf_words
    {t0 t1 t2 t3 : UInt32} {X : ℕ}
    (hX : X = t0.toNat + 2 ^ 32 * t1.toNat + 2 ^ 64 * t2.toNat + 2 ^ 96 * t3.toNat) :
    LimbsOf X t0 t1 t2 t3 := by
  have h0 := t0.toNat_lt
  have h1 := t1.toNat_lt
  have h2 := t2.toNat_lt
  have h3 := t3.toNat_lt
  constructor
  · omega
  · rw [toNat_shift_or _ _ _ _ (by decide) (by decide)
      (show t0.toNat / 2 ^ 26 < 2 ^ 6 by omega)]
    change (t0.toNat / 2 ^ 26 + t1.toNat * 2 ^ 6 % 2 ^ 32) % 2 ^ 26 = _
    omega
  · rw [toNat_shift_or _ _ _ _ (by decide) (by decide)
      (show t1.toNat / 2 ^ 20 < 2 ^ 12 by omega)]
    change (t1.toNat / 2 ^ 20 + t2.toNat * 2 ^ 12 % 2 ^ 32) % 2 ^ 26 = _
    omega
  · rw [toNat_shift_or _ _ _ _ (by decide) (by decide)
      (show t2.toNat / 2 ^ 14 < 2 ^ 18 by omega)]
    change (t2.toNat / 2 ^ 14 + t3.toNat * 2 ^ 18 % 2 ^ 32) % 2 ^ 26 = _
    omega
  · rw [UInt32.toNat_shiftRight, Nat.shiftRight_eq_div_pow]
    change t3.toNat / 2 ^ 8 = _
    omega

/-! ## Limbs without a width -/

/-- 2^130 - 5. -/
def prime : ℕ := 2 ^ 130 - 5

/-- A number in limbs of 26 bits, which may be larger. -/
structure NatLimbs where
  h0 : ℕ
  h1 : ℕ
  h2 : ℕ
  h3 : ℕ
  h4 : ℕ

/-- The number in the limbs. -/
def NatLimbs.value (h : NatLimbs) : ℕ :=
  h.h0 + 2 ^ 26 * h.h1 + 2 ^ 52 * h.h2 + 2 ^ 78 * h.h3 + 2 ^ 104 * h.h4

/-- The limbs of a number. -/
def NatLimbs.ofNat (n : ℕ) : NatLimbs where
  h0 := n % 2 ^ 26
  h1 := n / 2 ^ 26 % 2 ^ 26
  h2 := n / 2 ^ 52 % 2 ^ 26
  h3 := n / 2 ^ 78 % 2 ^ 26
  h4 := n / 2 ^ 104

theorem NatLimbs.value_ofNat
    (n : ℕ) :
    (NatLimbs.ofNat n).value = n := by
  rw [NatLimbs.value, NatLimbs.ofNat]
  dsimp only
  omega

/-- `h += x`. -/
def NatLimbs.add (h x : NatLimbs) : NatLimbs :=
  ⟨h.h0 + x.h0, h.h1 + x.h1, h.h2 + x.h2, h.h3 + x.h3, h.h4 + x.h4⟩

theorem NatLimbs.value_add
    (h x : NatLimbs) :
    (h.add x).value = h.value + x.value := by
  rw [NatLimbs.value, NatLimbs.value, NatLimbs.value, NatLimbs.add]
  dsimp only
  ring

/-- The sums `d0` to `d4` of products. -/
structure Columns where
  d0 : ℕ
  d1 : ℕ
  d2 : ℕ
  d3 : ℕ
  d4 : ℕ

/-- The products of limbs, those above 2^130 five times below. -/
def columns (h r : NatLimbs) : Columns where
  d0 := h.h0 * r.h0 + h.h1 * r.h4 * 5 + h.h2 * r.h3 * 5 + h.h3 * r.h2 * 5 + h.h4 * r.h1 * 5
  d1 := h.h0 * r.h1 + h.h1 * r.h0 + h.h2 * r.h4 * 5 + h.h3 * r.h3 * 5 + h.h4 * r.h2 * 5
  d2 := h.h0 * r.h2 + h.h1 * r.h1 + h.h2 * r.h0 + h.h3 * r.h4 * 5 + h.h4 * r.h3 * 5
  d3 := h.h0 * r.h3 + h.h1 * r.h2 + h.h2 * r.h1 + h.h3 * r.h0 + h.h4 * r.h4 * 5
  d4 := h.h0 * r.h4 + h.h1 * r.h3 + h.h2 * r.h2 + h.h3 * r.h1 + h.h4 * r.h0

/-- The sums with the carries from one to the next. -/
def Columns.carry (d : Columns) : Columns :=
  let d1 := d.d1 + d.d0 / 2 ^ 26
  let d2 := d.d2 + d1 / 2 ^ 26
  let d3 := d.d3 + d2 / 2 ^ 26
  let d4 := d.d4 + d3 / 2 ^ 26
  ⟨d.d0, d1, d2, d3, d4⟩

/-- The lowest limb with the carry out of the highest one. -/
def Columns.low (d : Columns) : ℕ :=
  d.d0 % 2 ^ 26 + d.d4 / 2 ^ 26 * 5

/-- The limbs that are left of the sums. -/
def Columns.limbs (d : Columns) : NatLimbs where
  h0 := d.low % 2 ^ 26
  h1 := d.d1 % 2 ^ 26 + d.low / 2 ^ 26
  h2 := d.d2 % 2 ^ 26
  h3 := d.d3 % 2 ^ 26
  h4 := d.d4 % 2 ^ 26

/-- `h *= r`, with a partial `h %= p`. -/
def NatLimbs.mul (h r : NatLimbs) : NatLimbs :=
  (columns h r).carry.limbs

/-- The products are those of the numbers, modulo 2^130 - 5. -/
theorem columns_value
    (h r : NatLimbs) :
    ∃ k, h.value * r.value =
      (columns h r).d0 + 2 ^ 26 * (columns h r).d1 + 2 ^ 52 * (columns h r).d2 +
        2 ^ 78 * (columns h r).d3 + 2 ^ 104 * (columns h r).d4 + prime * k := by
  refine ⟨h.h1 * r.h4 + h.h2 * r.h3 + h.h3 * r.h2 + h.h4 * r.h1 +
    2 ^ 26 * (h.h2 * r.h4 + h.h3 * r.h3 + h.h4 * r.h2) +
    2 ^ 52 * (h.h3 * r.h4 + h.h4 * r.h3) + 2 ^ 78 * (h.h4 * r.h4), ?_⟩
  rw [NatLimbs.value, NatLimbs.value, columns, prime]
  dsimp only
  ring

/-- The carries keep the number, modulo 2^130 - 5. -/
theorem Columns.value_limbs
    (d : Columns) :
    d.d0 + 2 ^ 26 * d.d1 + 2 ^ 52 * d.d2 + 2 ^ 78 * d.d3 + 2 ^ 104 * d.d4 =
      d.carry.limbs.value + prime * (d.carry.d4 / 2 ^ 26) := by
  rw [NatLimbs.value, Columns.limbs, Columns.low, Columns.carry, prime]
  dsimp only
  omega

/-- **One multiplication** in limbs. -/
theorem NatLimbs.value_mul
    (h r : NatLimbs) :
    (h.mul r).value ≡ h.value * r.value [MOD prime] := by
  obtain ⟨k, hk⟩ := columns_value h r
  rw [hk, Columns.value_limbs, Nat.ModEq, Nat.add_mul_mod_self_left, Nat.add_mul_mod_self_left,
    NatLimbs.mul]

/-! ## The widths -/

/-- The limbs between two blocks. -/
structure NatLimbs.Reduced (h : NatLimbs) : Prop where
  h0 : h.h0 < 2 ^ 26
  h1 : h.h1 < 2 ^ 26 + 64
  h2 : h.h2 < 2 ^ 26
  h3 : h.h3 < 2 ^ 26
  h4 : h.h4 < 2 ^ 26

/-- The limbs of a block. -/
structure NatLimbs.Below (x : NatLimbs) : Prop where
  h0 : x.h0 < 2 ^ 26
  h1 : x.h1 < 2 ^ 26
  h2 : x.h2 < 2 ^ 26
  h3 : x.h3 < 2 ^ 26
  h4 : x.h4 < 2 ^ 26

/-- The limbs behind an addition. -/
structure NatLimbs.Loaded (h : NatLimbs) : Prop where
  h0 : h.h0 < 2 ^ 27
  h1 : h.h1 < 2 ^ 27 + 64
  h2 : h.h2 < 2 ^ 27
  h3 : h.h3 < 2 ^ 27
  h4 : h.h4 < 2 ^ 27

theorem NatLimbs.Reduced.add
    {h x : NatLimbs}
    (hh : h.Reduced) (hx : x.Below) :
    (h.add x).Loaded := by
  obtain ⟨h0, h1, h2, h3, h4⟩ := hh
  obtain ⟨x0, x1, x2, x3, x4⟩ := hx
  constructor <;> rw [NatLimbs.add] <;> dsimp only <;> omega

/-- The sums have 64 bits, what is shifted out of them is cast to 32 bits, and the
sum in `h[0]` has 32 bits. -/
structure Columns.Fits (d : Columns) : Prop where
  d0 : d.d0 < 2 ^ 58
  d1 : d.d1 < 2 ^ 58
  d2 : d.d2 < 2 ^ 58
  d3 : d.d3 < 2 ^ 58
  d4 : d.d4 < 2 ^ 58
  low : d.low < 2 ^ 32

/-- The size of one product. -/
theorem product_le
    {a b : ℕ}
    (ha : a < 2 ^ 27 + 64) (hb : b < 2 ^ 26) :
    a * b ≤ 2 ^ 53 + 2 ^ 32 := by
  calc a * b ≤ (2 ^ 27 + 64) * 2 ^ 26 := Nat.mul_le_mul ha.le hb.le
    _ = 2 ^ 53 + 2 ^ 32 := by norm_num

variable {h r : NatLimbs}

/-- The sums of products, without the carries. -/
theorem columns_le
    (hh : h.Loaded) (hr : r.Below) :
    (columns h r).d0 ≤ 21 * (2 ^ 53 + 2 ^ 32) ∧ (columns h r).d1 ≤ 17 * (2 ^ 53 + 2 ^ 32) ∧
      (columns h r).d2 ≤ 13 * (2 ^ 53 + 2 ^ 32) ∧ (columns h r).d3 ≤ 9 * (2 ^ 53 + 2 ^ 32) ∧
      (columns h r).d4 ≤ 5 * (2 ^ 53 + 2 ^ 32) := by
  obtain ⟨h0, h1, h2, h3, h4⟩ := hh
  have hrow : ∀ a, a < 2 ^ 27 + 64 → a * r.h0 ≤ 2 ^ 53 + 2 ^ 32 ∧ a * r.h1 ≤ 2 ^ 53 + 2 ^ 32 ∧
      a * r.h2 ≤ 2 ^ 53 + 2 ^ 32 ∧ a * r.h3 ≤ 2 ^ 53 + 2 ^ 32 ∧ a * r.h4 ≤ 2 ^ 53 + 2 ^ 32 :=
    fun a ha => ⟨product_le ha hr.h0, product_le ha hr.h1, product_le ha hr.h2,
      product_le ha hr.h3, product_le ha hr.h4⟩
  obtain ⟨p00, p01, p02, p03, p04⟩ := hrow h.h0 (by omega)
  obtain ⟨p10, p11, p12, p13, p14⟩ := hrow h.h1 (by omega)
  obtain ⟨p20, p21, p22, p23, p24⟩ := hrow h.h2 (by omega)
  obtain ⟨p30, p31, p32, p33, p34⟩ := hrow h.h3 (by omega)
  obtain ⟨p40, p41, p42, p43, p44⟩ := hrow h.h4 (by omega)
  rw [columns]
  dsimp only
  omega

/-- **Nothing is lost** in a multiplication. -/
theorem columns_fits
    (hh : h.Loaded) (hr : r.Below) :
    (columns h r).carry.Fits := by
  obtain ⟨d0, d1, d2, d3, d4⟩ := columns_le hh hr
  constructor
  all_goals
    simp only [Columns.low, Columns.carry]
    omega

theorem Columns.Fits.reduced
    {d : Columns}
    (hd : d.Fits) :
    d.limbs.Reduced := by
  have hlow := hd.low
  constructor
  all_goals
    rw [Columns.limbs]
    dsimp only
    omega

/-! ## The machine words -/

end Poly1305

open Poly1305

/-- The numbers in the words of the limbs. -/
def Limbs.toNat (h : Limbs) : NatLimbs :=
  ⟨h.h0.toNat, h.h1.toNat, h.h2.toNat, h.h3.toNat, h.h4.toNat⟩

namespace Poly1305

/-- A sum of five products. -/
theorem toNat_column
    {a b c d e : UInt64} {na nb nc nd ne bound : ℕ}
    (ha : a.toNat = na) (hb : b.toNat = nb) (hc : c.toNat = nc) (hd : d.toNat = nd)
    (he : e.toNat = ne)
    (hle : na + nb + nc + nd + ne ≤ bound) (hbound : bound < 2 ^ 64) :
    (a + b + c + d + e).toNat = na + nb + nc + nd + ne := by
  simp only [UInt64.toNat_add]
  omega

theorem toNat_product
    (a b : UInt32) :
    (a.toUInt64 * b.toUInt64).toNat = a.toNat * b.toNat := by
  have hlt : a.toNat * b.toNat < 2 ^ 32 * 2 ^ 32 := Nat.mul_lt_mul'' a.toNat_lt b.toNat_lt
  rw [UInt64.toNat_mul, UInt32.toNat_toUInt64, UInt32.toNat_toUInt64]
  exact Nat.mod_eq_of_lt hlt

theorem toNat_product_five
    {a b : UInt32}
    (ha : a.toNat < 2 ^ 27 + 64) (hb : b.toNat < 2 ^ 26) :
    (a.toUInt64 * b.toUInt64 * 5).toNat = a.toNat * b.toNat * 5 := by
  have hle := product_le ha hb
  rw [UInt64.toNat_mul, toNat_product]
  change a.toNat * b.toNat * 5 % 2 ^ 64 = _
  omega

/-- What is shifted out of a sum survives the cast. -/
theorem toNat_carry
    {d : UInt64}
    (hd : d.toNat < 2 ^ 58) :
    (d >>> 26).toUInt32.toUInt64.toNat = d.toNat / 2 ^ 26 ∧
      (d >>> 26).toUInt32.toNat = d.toNat / 2 ^ 26 := by
  have hshift : (d >>> 26).toNat = d.toNat / 2 ^ 26 := by
    rw [UInt64.toNat_shiftRight, Nat.shiftRight_eq_div_pow]
    rfl
  have hcast : (d >>> 26).toUInt32.toNat = d.toNat / 2 ^ 26 := by
    rw [UInt64.toNat_toUInt32, hshift]
    omega
  exact ⟨by rw [UInt32.toNat_toUInt64, hcast], hcast⟩

theorem toNat_low
    (d : UInt64) :
    (d &&& 0x03ffffff).toUInt32.toNat = d.toNat % 2 ^ 26 := by
  rw [UInt64.toNat_toUInt32, UInt64.toNat_and]
  change (d.toNat &&& 0x03ffffff) % 2 ^ 32 = _
  rw [and_mask26]
  omega

/-- A sum with the carry out of the one before. -/
theorem toNat_add_carry
    (d d' : UInt64)
    (hd : d.toNat < 2 ^ 58) (hsum : d'.toNat + d.toNat / 2 ^ 26 < 2 ^ 58) :
    (d' + (d >>> 26).toUInt32.toUInt64).toNat = d'.toNat + d.toNat / 2 ^ 26 := by
  rw [UInt64.toNat_add, (toNat_carry hd).1]
  omega

/-- The carries in words. -/
def carryWords (d0 d1 d2 d3 d4 : UInt64) : Limbs :=
  let d1 := d1 + (d0 >>> 26).toUInt32.toUInt64
  let d2 := d2 + (d1 >>> 26).toUInt32.toUInt64
  let d3 := d3 + (d2 >>> 26).toUInt32.toUInt64
  let d4 := d4 + (d3 >>> 26).toUInt32.toUInt64
  let h0 := (d0 &&& 0x03ffffff).toUInt32 + (d4 >>> 26).toUInt32 * 5
  { h0 := h0 &&& 0x03ffffff
    h1 := (d1 &&& 0x03ffffff).toUInt32 + (h0 >>> 26)
    h2 := (d2 &&& 0x03ffffff).toUInt32
    h3 := (d3 &&& 0x03ffffff).toUInt32
    h4 := (d4 &&& 0x03ffffff).toUInt32 }

theorem carryWords_toNat
    {d0 d1 d2 d3 d4 : UInt64}
    (hfits : (Columns.mk d0.toNat d1.toNat d2.toNat d3.toNat d4.toNat).carry.Fits) :
    (carryWords d0 d1 d2 d3 d4).toNat =
      (Columns.mk d0.toNat d1.toNat d2.toNat d3.toNat d4.toNat).carry.limbs := by
  obtain ⟨f0, f1, f2, f3, f4, flow⟩ := hfits
  have e1 := toNat_add_carry _ _ f0 f1
  obtain ⟨d1', hd1⟩ : ∃ d, d = d1 + (d0 >>> 26).toUInt32.toUInt64 := ⟨_, rfl⟩
  rw [← hd1] at e1
  have e2 := toNat_add_carry d1' d2 (by rw [e1]; exact f1) (by rw [e1]; exact f2)
  obtain ⟨d2', hd2⟩ : ∃ d, d = d2 + (d1' >>> 26).toUInt32.toUInt64 := ⟨_, rfl⟩
  rw [← hd2, e1] at e2
  have e3 := toNat_add_carry d2' d3 (by rw [e2]; exact f2) (by rw [e2]; exact f3)
  obtain ⟨d3', hd3⟩ : ∃ d, d = d3 + (d2' >>> 26).toUInt32.toUInt64 := ⟨_, rfl⟩
  rw [← hd3, e2] at e3
  have e4 := toNat_add_carry d3' d4 (by rw [e3]; exact f3) (by rw [e3]; exact f4)
  obtain ⟨d4', hd4⟩ : ∃ d, d = d4 + (d3' >>> 26).toUInt32.toUInt64 := ⟨_, rfl⟩
  rw [← hd4, e3] at e4
  have hlow : ((d0 &&& 0x03ffffff).toUInt32 + (d4' >>> 26).toUInt32 * 5).toNat =
      d0.toNat % 2 ^ 26 + d4'.toNat / 2 ^ 26 * 5 := by
    have flow' : d0.toNat % 2 ^ 26 + d4'.toNat / 2 ^ 26 * 5 < 2 ^ 32 := by
      rw [e4]
      exact flow
    rw [UInt32.toNat_add, UInt32.toNat_mul, toNat_low, (toNat_carry (by rw [e4]; exact f4)).2]
    change (d0.toNat % 2 ^ 26 + d4'.toNat / 2 ^ 26 * 5 % 2 ^ 32) % 2 ^ 32 = _
    omega
  obtain ⟨low, hlowWord⟩ : ∃ w, w = (d0 &&& 0x03ffffff).toUInt32 + (d4' >>> 26).toUInt32 * 5 :=
    ⟨_, rfl⟩
  rw [← hlowWord] at hlow
  have hshift : (low >>> 26).toNat = low.toNat / 2 ^ 26 := by
    rw [UInt32.toNat_shiftRight, Nat.shiftRight_eq_div_pow]
    rfl
  have hfirst : (low &&& 0x03ffffff).toNat = low.toNat % 2 ^ 26 := by
    rw [UInt32.toNat_and]
    exact and_mask26 _
  have hsecond : ((d1' &&& 0x03ffffff).toUInt32 + (low >>> 26)).toNat =
      d1'.toNat % 2 ^ 26 + low.toNat / 2 ^ 26 := by
    have hlt := low.toNat_lt
    rw [UInt32.toNat_add, toNat_low, hshift]
    omega
  rw [carryWords, ← hd1, ← hd2, ← hd3, ← hd4, ← hlowWord, Limbs.toNat, hfirst, hsecond,
    toNat_low, toNat_low, toNat_low, hlow, e1, e2, e3, e4]
  rfl

/-- **One multiplication** of the machine is that of the numbers in its words. -/
theorem mulR_toNat
    {h r : Limbs}
    (hh : h.toNat.Loaded) (hr : r.toNat.Below) :
    (mulR h r).toNat = h.toNat.mul r.toNat := by
  obtain ⟨c0, c1, c2, c3, c4⟩ := columns_le hh hr
  obtain ⟨-, h1, h2, h3, h4⟩ := id hh
  obtain ⟨-, r1, r2, r3, r4⟩ := id hr
  have hone := toNat_product
  have hfive : ∀ a b : UInt32, a.toNat < 2 ^ 27 + 64 → b.toNat < 2 ^ 26 →
      (a.toUInt64 * b.toUInt64 * 5).toNat = a.toNat * b.toNat * 5 :=
    fun a b ha hb => toNat_product_five ha hb
  have h2' : h.h2.toNat < 2 ^ 27 + 64 := lt_trans h2 (by norm_num)
  have h3' : h.h3.toNat < 2 ^ 27 + 64 := lt_trans h3 (by norm_num)
  have h4' : h.h4.toNat < 2 ^ 27 + 64 := lt_trans h4 (by norm_num)
  have e0 := toNat_column (hone h.h0 r.h0) (hfive h.h1 r.h4 h1 r4) (hfive h.h2 r.h3 h2' r3)
    (hfive h.h3 r.h2 h3' r2) (hfive h.h4 r.h1 h4' r1) c0 (by norm_num)
  have e1 := toNat_column (hone h.h0 r.h1) (hone h.h1 r.h0) (hfive h.h2 r.h4 h2' r4)
    (hfive h.h3 r.h3 h3' r3) (hfive h.h4 r.h2 h4' r2) c1 (by norm_num)
  have e2 := toNat_column (hone h.h0 r.h2) (hone h.h1 r.h1) (hone h.h2 r.h0)
    (hfive h.h3 r.h4 h3' r4) (hfive h.h4 r.h3 h4' r3) c2 (by norm_num)
  have e3 := toNat_column (hone h.h0 r.h3) (hone h.h1 r.h2) (hone h.h2 r.h1) (hone h.h3 r.h0)
    (hfive h.h4 r.h4 h4' r4) c3 (by norm_num)
  have e4 := toNat_column (hone h.h0 r.h4) (hone h.h1 r.h3) (hone h.h2 r.h2) (hone h.h3 r.h1)
    (hone h.h4 r.h0) c4 (by norm_num)
  have hcolumns : Columns.mk _ _ _ _ _ = columns h.toNat r.toNat :=
    congr (congr (congr (congr (congrArg Columns.mk e0) e1) e2) e3) e4
  have hwords := carryWords_toNat (hcolumns ▸ columns_fits hh hr)
  rw [hcolumns] at hwords
  exact hwords

/-! ## The blocks -/

/-- The number of a block: its bytes and a one behind them. -/
def blockNumber (block : List UInt8) : ℕ :=
  LittleEndian.value block + 2 ^ (8 * block.length)

/-- The clamped `r`. -/
def clamped (key32 : List UInt8) : ℕ :=
  LittleEndian.value (key32.take 16) &&& 0x0ffffffc0ffffffc0ffffffc0fffffff

/-- What a mask sees of a part of a number. -/
theorem and_div_mod
    (n m k : ℕ) :
    (n &&& m) / 2 ^ k % 2 ^ 26 = n / 2 ^ k % 2 ^ 26 &&& m / 2 ^ k % 2 ^ 26 := by
  rw [Nat.and_div_two_pow, Nat.and_mod_two_pow]

/-- The limbs of the clamped `r`. -/
theorem clampR_toNat
    {key32 : List UInt8}
    (hlen : 16 ≤ key32.length) :
    (clampR key32).toNat = NatLimbs.ofNat (clamped key32) ∧ (clampR key32).toNat.Below := by
  have hlimbs := limbsOf_words (value_words hlen)
  have hvalue : LittleEndian.value (key32.take 16) < 2 ^ 128 := by
    have hlt := LittleEndian.value_lt (key32.take 16)
    rw [List.length_take, Nat.min_eq_left hlen] at hlt
    omega
  generalize hX : LittleEndian.value (key32.take 16) = X at hlimbs hvalue
  have hlast : (X &&& 0x0ffffffc0ffffffc0ffffffc0fffffff) / 2 ^ 104 =
      X / 2 ^ 104 &&& 0x000fffff := Nat.and_div_two_pow
  have heq : (clampR key32).toNat = NatLimbs.ofNat (clamped key32) := by
    rw [Limbs.toNat, clampR, NatLimbs.ofNat, clamped, hX, and_div_mod X _ 26, and_div_mod X _ 52,
      and_div_mod X _ 78, hlast, Nat.and_mod_two_pow]
    dsimp only
    rw [toNat_and_mask (n := X) (by decide) hlimbs.first,
      toNat_and_mask (n := X / 2 ^ 26) (by decide) hlimbs.second,
      toNat_and_mask (n := X / 2 ^ 52) (by decide) hlimbs.third,
      toNat_and_mask (n := X / 2 ^ 78) (by decide) hlimbs.fourth,
      UInt32.toNat_and, hlimbs.fifth]
    rfl
  refine ⟨heq, ?_⟩
  rw [heq, NatLimbs.ofNat]
  have hle : clamped key32 ≤ X := hX ▸ Nat.and_le_left
  constructor
  all_goals
    dsimp only
    omega

/-- The 16 bytes of a block. -/
def padded (block : List UInt8) : List UInt8 :=
  if 16 ≤ block.length then block else block ++ 1 :: List.replicate (15 - block.length) 0

/-- The bit behind a block of 16 bytes is set in the last limb. -/
theorem value_padded
    {block : List UInt8}
    (hlen : block.length ≤ 16) :
    (padded block).length = 16 ∧
      blockNumber block = LittleEndian.value (padded block) +
        (if 16 ≤ block.length then 2 ^ 128 else 0) := by
  by_cases hfull : 16 ≤ block.length
  · have hsixteen : block.length = 16 := by omega
    rw [padded, if_pos hfull, if_pos hfull, blockNumber, hsixteen]
    exact ⟨rfl, rfl⟩
  · rw [padded, if_neg hfull, if_neg hfull, blockNumber, LittleEndian.value_append,
      LittleEndian.value, LittleEndian.value_replicate_zero, pow_mul]
    refine ⟨?_, ?_⟩
    · rw [List.length_append, List.length_cons, List.length_replicate]
      omega
    · change _ = LittleEndian.value block + 256 ^ block.length * (1 + 256 * 0) + 0
      ring

/-- A sum of limbs. -/
theorem toNat_limb_add
    {h w : UInt32} {n : ℕ}
    (hh : h.toNat < 2 ^ 26 + 64)
    (hw : w.toNat % 2 ^ 26 = n % 2 ^ 26) :
    (h + (w &&& 0x03ffffff)).toNat = h.toNat + n % 2 ^ 26 := by
  rw [UInt32.toNat_add, toNat_and_mask (by decide) hw]
  change (h.toNat + (n % 2 ^ 26 &&& 0x03ffffff)) % 2 ^ 32 = _
  rw [and_mask26, Nat.mod_mod]
  omega

/-- **One addition** of a block is that of the numbers in the words. -/
theorem addBlock_toNat
    {h : Limbs} {block : List UInt8}
    (hh : h.toNat.Reduced)
    (hlen : block.length ≤ 16) :
    (addBlock h block).toNat = h.toNat.add (NatLimbs.ofNat (blockNumber block)) ∧
      (NatLimbs.ofNat (blockNumber block)).Below := by
  obtain ⟨hpadded, hnumber⟩ := value_padded hlen
  have hlimbs := limbsOf_words (value_words hpadded.ge)
  have hvalue := LittleEndian.value_lt (padded block)
  rw [List.take_of_length_le hpadded.le] at hlimbs
  rw [hpadded] at hvalue
  obtain ⟨r0, r1, r2, r3, r4⟩ := hh
  obtain ⟨bit, hbit⟩ : ∃ bit : UInt32,
      bit = if 16 ≤ block.length then (1 : UInt32) <<< 24 else 0 := ⟨_, rfl⟩
  generalize hX : LittleEndian.value (padded block) = X at hlimbs hvalue hnumber
  have hlast : ((word32 (padded block) 3 >>> 8) ||| bit).toNat = blockNumber block / 2 ^ 104 := by
    have hsmall : X / 2 ^ 104 < 2 ^ 24 := by omega
    rw [UInt32.toNat_or, hlimbs.fifth, hnumber, hbit]
    split
    · change X / 2 ^ 104 ||| 1 <<< 24 = _
      rw [Nat.or_comm, ← Nat.shiftLeft_add_eq_or_of_lt hsmall]
      omega
    · change X / 2 ^ 104 ||| 0 = _
      rw [Nat.or_zero, Nat.add_zero]
  have hnumberLt : blockNumber block < 2 ^ 129 := by
    rw [hnumber]
    split <;> omega
  have e0 : blockNumber block % 2 ^ 26 = X % 2 ^ 26 := by
    rw [hnumber]
    split <;> omega
  have e1 : blockNumber block / 2 ^ 26 % 2 ^ 26 = X / 2 ^ 26 % 2 ^ 26 := by
    rw [hnumber]
    split <;> omega
  have e2 : blockNumber block / 2 ^ 52 % 2 ^ 26 = X / 2 ^ 52 % 2 ^ 26 := by
    rw [hnumber]
    split <;> omega
  have e3 : blockNumber block / 2 ^ 78 % 2 ^ 26 = X / 2 ^ 78 % 2 ^ 26 := by
    rw [hnumber]
    split <;> omega
  have hfifth : (h.h4 + ((word32 (padded block) 3 >>> 8) ||| bit)).toNat =
      h.h4.toNat + ((word32 (padded block) 3 >>> 8) ||| bit).toNat := by
    have h4 : h.h4.toNat < 2 ^ 26 := r4
    rw [UInt32.toNat_add, hlast]
    omega
  constructor
  · rw [NatLimbs.add, NatLimbs.ofNat, e0, e1, e2, e3, ← hlast]
    subst hbit
    refine congr (congr (congr (congr (congrArg NatLimbs.mk ?_) ?_) ?_) ?_) ?_
    · exact toNat_limb_add (lt_trans r0 (by norm_num)) hlimbs.first
    · exact toNat_limb_add r1 hlimbs.second
    · exact toNat_limb_add (lt_trans r2 (by norm_num)) hlimbs.third
    · exact toNat_limb_add (lt_trans r3 (by norm_num)) hlimbs.fourth
    · exact hfifth
  · rw [NatLimbs.ofNat]
    constructor
    all_goals
      dsimp only
      omega

/-! ## The polynomial -/

/-- The blocks of a message. -/
def blocks (data : List UInt8) : List (List UInt8) :=
  (List.range ((data.length + 15) / 16)).map (fun i => (data.drop (16 * i)).take 16)

/-- The sum over the blocks: the first one has the highest power. -/
def polynomial (r : ℕ) : List ℕ → ℕ
  | [] => 0
  | n :: ns => n * r ^ (ns.length + 1) + polynomial r ns

/-- The limbs without a width behind some blocks. -/
def compressNat (h r : NatLimbs) (ns : List ℕ) : NatLimbs :=
  ns.foldl (fun h n => (h.add (NatLimbs.ofNat n)).mul r) h

theorem compressNat_value
    (h r : NatLimbs) (ns : List ℕ) :
    (compressNat h r ns).value ≡
      h.value * r.value ^ ns.length + polynomial r.value ns [MOD prime] := by
  induction ns generalizing h with
  | nil =>
      rw [polynomial, List.length_nil, pow_zero, Nat.mul_one, Nat.add_zero]
      rfl
  | cons n ns ih =>
      have hstep : ((h.add (NatLimbs.ofNat n)).mul r).value ≡ (h.value + n) * r.value
          [MOD prime] := by
        have hmul := NatLimbs.value_mul (h.add (NatLimbs.ofNat n)) r
        rwa [NatLimbs.value_add, NatLimbs.value_ofNat] at hmul
      refine (ih _).trans ?_
      have hpow : ∀ a : ℕ, (h.value + n) * r.value * r.value ^ ns.length + a =
          h.value * r.value ^ (ns.length + 1) + (n * r.value ^ (ns.length + 1) + a) := by
        intro a
        ring
      rw [polynomial, List.length_cons, ← hpow]
      exact (hstep.mul_right _).add_right _

/-- **A run** over blocks: the words hold the numbers of the run without a width. -/
theorem foldl_toNat
    {key32 : List UInt8} {h : Limbs} {l : List (List UInt8)}
    (hkey : 16 ≤ key32.length)
    (hh : h.toNat.Reduced)
    (hl : ∀ block ∈ l, block.length ≤ 16) :
    (l.foldl (fun h block => mulR (addBlock h block) (clampR key32)) h).toNat =
        compressNat h.toNat (NatLimbs.ofNat (clamped key32)) (l.map blockNumber) ∧
      (l.foldl (fun h block => mulR (addBlock h block) (clampR key32)) h).toNat.Reduced := by
  induction l generalizing h with
  | nil =>
      exact ⟨rfl, hh⟩
  | cons block l ih =>
      obtain ⟨hr, hbelow⟩ := clampR_toNat hkey
      obtain ⟨hadd, hblock⟩ := addBlock_toNat hh (hl block List.mem_cons_self)
      have hloaded : (addBlock h block).toNat.Loaded := by
        rw [hadd]
        exact hh.add hblock
      have hmul := mulR_toNat hloaded hbelow
      have hreduced : (mulR (addBlock h block) (clampR key32)).toNat.Reduced := by
        rw [hmul]
        exact (columns_fits hloaded hbelow).reduced
      obtain ⟨hrun, hend⟩ := ih hreduced (fun b hb => hl b (List.mem_cons_of_mem _ hb))
      refine ⟨?_, hend⟩
      rw [List.foldl_cons, hrun, hmul, hadd, hr]
      rfl

theorem poly1305Compress_eq
    (h : Limbs) (key32 data : List UInt8) :
    poly1305Compress h key32 data =
      (blocks data).foldl (fun h block => mulR (addBlock h block) (clampR key32)) h := by
  rw [blocks, List.foldl_map]
  rfl

theorem length_blocks_le
    (data : List UInt8) :
    ∀ block ∈ blocks data, block.length ≤ 16 := by
  intro block hblock
  obtain ⟨i, -, rfl⟩ := List.mem_map.mp hblock
  exact List.length_take_le _ _

/-- A message in two parts, the first one in whole blocks. -/
theorem blocks_append
    {a : List UInt8}
    (ha : 16 ∣ a.length) (b : List UInt8) :
    blocks (a ++ b) = blocks a ++ blocks b := by
  obtain ⟨k, hk⟩ := ha
  have hcount : ((a ++ b).length + 15) / 16 = k + (b.length + 15) / 16 := by
    rw [List.length_append]
    omega
  have hfront : (a.length + 15) / 16 = k := by omega
  rw [blocks, blocks, blocks, hcount, hfront, List.range_add, List.map_append, List.map_map]
  congr 1
  · refine List.map_congr_left (fun i hi => ?_)
    have hlt := List.mem_range.mp hi
    rw [List.drop_append_of_le_length (by omega), List.take_append_of_le_length]
    rw [List.length_drop]
    omega
  · refine List.map_congr_left (fun i _ => ?_)
    rw [Function.comp_apply, List.drop_append, List.drop_of_length_le (by omega), List.nil_append]
    congr 2
    omega

/-- Feeding the message in two calls. -/
theorem poly1305Compress_append
    {a : List UInt8}
    (ha : 16 ∣ a.length) (h : Limbs) (key32 b : List UInt8) :
    poly1305Compress h key32 (a ++ b) =
      poly1305Compress (poly1305Compress h key32 a) key32 b := by
  rw [poly1305Compress_eq, blocks_append ha, List.foldl_append, ← poly1305Compress_eq,
    ← poly1305Compress_eq]

/-! ## The tag -/

/-- The carries that are left, in words. -/
def carryFully (h : Limbs) : Limbs :=
  let h2 := h.h2 + (h.h1 >>> 26)
  let h1 := h.h1 &&& 0x03ffffff
  let h3 := h.h3 + (h2 >>> 26)
  let h2 := h2 &&& 0x03ffffff
  let h4 := h.h4 + (h3 >>> 26)
  let h3 := h3 &&& 0x03ffffff
  let h0 := h.h0 + (h4 >>> 26) * 5
  let h4 := h4 &&& 0x03ffffff
  let h1 := h1 + (h0 >>> 26)
  let h0 := h0 &&& 0x03ffffff
  ⟨h0, h1, h2, h3, h4⟩

/-- `h + -p`, in words. -/
def minusPrime (h : Limbs) : Limbs :=
  let t0 := h.h0 + 5
  let t1 := h.h1 + (t0 >>> 26)
  let t0 := t0 &&& 0x03ffffff
  let t2 := h.h2 + (t1 >>> 26)
  let t1 := t1 &&& 0x03ffffff
  let t3 := h.h3 + (t2 >>> 26)
  let t2 := t2 &&& 0x03ffffff
  let t4 := h.h4 + (t3 >>> 26) - ((1 : UInt32) <<< 26)
  let t3 := t3 &&& 0x03ffffff
  ⟨t0, t1, t2, t3, t4⟩

/-- The choice between `h` and `t`, in words. -/
def selectLimbs (h t : Limbs) : Limbs :=
  let b := (t.h4 >>> 31) - 1
  ⟨(h.h0 &&& ~~~b) ||| (t.h0 &&& b), (h.h1 &&& ~~~b) ||| (t.h1 &&& b),
    (h.h2 &&& ~~~b) ||| (t.h2 &&& b), (h.h3 &&& ~~~b) ||| (t.h3 &&& b),
    (h.h4 &&& ~~~b) ||| (t.h4 &&& b)⟩

/-- The limbs in words of 32 bits. -/
def packLimbs (h : Limbs) : Words4 :=
  ⟨h.h0 ||| (h.h1 <<< 26), (h.h1 >>> 6) ||| (h.h2 <<< 20), (h.h2 >>> 12) ||| (h.h3 <<< 14),
    (h.h3 >>> 18) ||| (h.h4 <<< 8)⟩

/-- A sum of two numbers of 16 bytes. -/
def addWords (h x : Words4) : Words4 :=
  let d0 := h.w0.toUInt64 + x.w0.toUInt64
  let d1 := h.w1.toUInt64 + x.w1.toUInt64 + (d0 >>> 32)
  let d2 := h.w2.toUInt64 + x.w2.toUInt64 + (d1 >>> 32)
  let d3 := h.w3.toUInt64 + x.w3.toUInt64 + (d2 >>> 32)
  ⟨d0.toUInt32, d1.toUInt32, d2.toUInt32, d3.toUInt32⟩

theorem finishPoly1305_eq
    (h : Limbs) (key32 : List UInt8) :
    finishPoly1305 h key32 =
      addWords (packLimbs (selectLimbs (carryFully h) (minusPrime (carryFully h))))
        ⟨word32 key32 4, word32 key32 5, word32 key32 6, word32 key32 7⟩ :=
  rfl

/-- The number in four words. -/
def wordsValue (w : Words4) : ℕ :=
  w.w0.toNat + 2 ^ 32 * w.w1.toNat + 2 ^ 64 * w.w2.toNat + 2 ^ 96 * w.w3.toNat

theorem toNat_shift26
    (w : UInt32) :
    (w >>> 26).toNat = w.toNat / 2 ^ 26 := by
  rw [UInt32.toNat_shiftRight, Nat.shiftRight_eq_div_pow]
  rfl

theorem toNat_mask26
    (w : UInt32) :
    (w &&& 0x03ffffff).toNat = w.toNat % 2 ^ 26 := by
  rw [UInt32.toNat_and]
  exact and_mask26 _

theorem toNat_mul_five
    (w : UInt32) :
    (w * 5).toNat = w.toNat * 5 % 2 ^ 32 := by
  rw [UInt32.toNat_mul]
  rfl

/-- A sum with a carry in one word. -/
theorem toNat_add_shift26
    {a b : UInt32}
    (ha : a.toNat < 2 ^ 27) (hb : b.toNat < 2 ^ 32) :
    (a + (b >>> 26)).toNat = a.toNat + b.toNat / 2 ^ 26 := by
  rw [UInt32.toNat_add, toNat_shift26]
  omega

/-- The second limb only carries when the fifth one has, and then it is small. -/
theorem carryFully_toNat
    {h : Limbs}
    (hh : h.toNat.Reduced) :
    (carryFully h).toNat.Below ∧ (carryFully h).toNat.value ≡ h.toNat.value [MOD prime] := by
  obtain ⟨r0, r1, r2, r3, r4⟩ := hh
  rw [Limbs.toNat] at r0 r1 r2 r3 r4
  dsimp only at r0 r1 r2 r3 r4
  have e2 := toNat_add_shift26 (a := h.h2) (b := h.h1) (by omega) h.h1.toNat_lt
  obtain ⟨w2, hw2⟩ : ∃ w, w = h.h2 + (h.h1 >>> 26) := ⟨_, rfl⟩
  rw [← hw2] at e2
  have e3 := toNat_add_shift26 (a := h.h3) (b := w2) (by omega) w2.toNat_lt
  obtain ⟨w3, hw3⟩ : ∃ w, w = h.h3 + (w2 >>> 26) := ⟨_, rfl⟩
  rw [← hw3] at e3
  have e4 := toNat_add_shift26 (a := h.h4) (b := w3) (by omega) w3.toNat_lt
  obtain ⟨w4, hw4⟩ : ∃ w, w = h.h4 + (w3 >>> 26) := ⟨_, rfl⟩
  rw [← hw4] at e4
  have e0 : (h.h0 + (w4 >>> 26) * 5).toNat = h.h0.toNat + w4.toNat / 2 ^ 26 * 5 := by
    rw [UInt32.toNat_add, toNat_mul_five, toNat_shift26]
    omega
  obtain ⟨w0, hw0⟩ : ∃ w, w = h.h0 + (w4 >>> 26) * 5 := ⟨_, rfl⟩
  rw [← hw0] at e0
  have e1 : ((h.h1 &&& 0x03ffffff : UInt32) + (w0 >>> 26)).toNat =
      h.h1.toNat % 2 ^ 26 + w0.toNat / 2 ^ 26 := by
    rw [toNat_add_shift26 (by rw [toNat_mask26]; omega) w0.toNat_lt, toNat_mask26]
  have hlimbs : (carryFully h).toNat = ⟨w0.toNat % 2 ^ 26, h.h1.toNat % 2 ^ 26 + w0.toNat / 2 ^ 26,
      w2.toNat % 2 ^ 26, w3.toNat % 2 ^ 26, w4.toNat % 2 ^ 26⟩ := by
    rw [Limbs.toNat, carryFully, ← hw2, ← hw3, ← hw4, ← hw0, e1, toNat_mask26, toNat_mask26,
      toNat_mask26, toNat_mask26]
  rw [hlimbs]
  refine ⟨?_, ?_⟩
  · constructor
    all_goals
      dsimp only
      omega
  · have hvalue : h.toNat.value = w0.toNat % 2 ^ 26 +
        2 ^ 26 * (h.h1.toNat % 2 ^ 26 + w0.toNat / 2 ^ 26) + 2 ^ 52 * (w2.toNat % 2 ^ 26) +
          2 ^ 78 * (w3.toNat % 2 ^ 26) + 2 ^ 104 * (w4.toNat % 2 ^ 26) +
            prime * (w4.toNat / 2 ^ 26) := by
      rw [NatLimbs.value, Limbs.toNat, prime]
      dsimp only
      omega
    rw [hvalue, Nat.ModEq, Nat.add_mul_mod_self_left, NatLimbs.value]

theorem and_not_or
    (h t b : UInt32) :
    (b = 0 → (h &&& ~~~b) ||| (t &&& b) = h) ∧ (b = -1 → (h &&& ~~~b) ||| (t &&& b) = t) := by
  constructor
  · rintro rfl
    simp
  · rintro rfl
    simp

/-- The sum `h + 5`, without the bit of 2^130. -/
theorem minusPrime_toNat
    {h : Limbs}
    (hh : h.toNat.Below) :
    ∃ carry, h.toNat.value + 5 = (minusPrime h).h0.toNat + 2 ^ 26 * (minusPrime h).h1.toNat +
        2 ^ 52 * (minusPrime h).h2.toNat + 2 ^ 78 * (minusPrime h).h3.toNat +
          2 ^ 104 * (h.h4.toNat + carry) ∧ carry ≤ 1 ∧
      (minusPrime h).h0.toNat < 2 ^ 26 ∧ (minusPrime h).h1.toNat < 2 ^ 26 ∧
      (minusPrime h).h2.toNat < 2 ^ 26 ∧ (minusPrime h).h3.toNat < 2 ^ 26 ∧
      (minusPrime h).h4.toNat = (h.h4.toNat + carry + (2 ^ 32 - 2 ^ 26)) % 2 ^ 32 := by
  obtain ⟨r0, r1, r2, r3, r4⟩ := hh
  rw [Limbs.toNat] at r0 r1 r2 r3 r4
  dsimp only at r0 r1 r2 r3 r4
  have e0 : (h.h0 + 5).toNat = h.h0.toNat + 5 := by
    rw [UInt32.toNat_add]
    change (h.h0.toNat + 5) % 2 ^ 32 = _
    omega
  obtain ⟨w0, hw0⟩ : ∃ w, w = h.h0 + 5 := ⟨_, rfl⟩
  rw [← hw0] at e0
  have e1 := toNat_add_shift26 (a := h.h1) (b := w0) (by omega) w0.toNat_lt
  obtain ⟨w1, hw1⟩ : ∃ w, w = h.h1 + (w0 >>> 26) := ⟨_, rfl⟩
  rw [← hw1] at e1
  have e2 := toNat_add_shift26 (a := h.h2) (b := w1) (by omega) w1.toNat_lt
  obtain ⟨w2, hw2⟩ : ∃ w, w = h.h2 + (w1 >>> 26) := ⟨_, rfl⟩
  rw [← hw2] at e2
  have e3 := toNat_add_shift26 (a := h.h3) (b := w2) (by omega) w2.toNat_lt
  obtain ⟨w3, hw3⟩ : ∃ w, w = h.h3 + (w2 >>> 26) := ⟨_, rfl⟩
  rw [← hw3] at e3
  have e4 := toNat_add_shift26 (a := h.h4) (b := w3) (by omega) w3.toNat_lt
  have htop : (h.h4 + (w3 >>> 26) - ((1 : UInt32) <<< 26)).toNat =
      (h.h4.toNat + w3.toNat / 2 ^ 26 + (2 ^ 32 - 2 ^ 26)) % 2 ^ 32 := by
    rw [UInt32.toNat_sub, e4]
    change (2 ^ 32 - 2 ^ 26 + (h.h4.toNat + w3.toNat / 2 ^ 26)) % 2 ^ 32 = _
    rw [Nat.add_comm]
  refine ⟨w3.toNat / 2 ^ 26, ?_⟩
  rw [minusPrime, ← hw0, ← hw1, ← hw2, ← hw3]
  dsimp only
  rw [htop, toNat_mask26, toNat_mask26, toNat_mask26, toNat_mask26, NatLimbs.value, Limbs.toNat]
  dsimp only
  refine ⟨?_, ?_, ?_, ?_, ?_, ?_, rfl⟩ <;> omega

/-- **The choice** between `h` and `h - p` is the remainder. -/
theorem selectLimbs_toNat
    {h : Limbs}
    (hh : h.toNat.Below) :
    (selectLimbs h (minusPrime h)).toNat.Below ∧
      (selectLimbs h (minusPrime h)).toNat.value = h.toNat.value % prime := by
  obtain ⟨carry, hsum, hcarry, t0, t1, t2, t3, t4⟩ := minusPrime_toNat hh
  have hbelow := hh
  obtain ⟨r0, r1, r2, r3, r4⟩ := hh
  have h4 : h.h4.toNat < 2 ^ 26 := r4
  have hlt : h.toNat.value < 2 ^ 130 := by
    rw [NatLimbs.value]
    omega
  have hshift : ((minusPrime h).h4 >>> 31).toNat = (minusPrime h).h4.toNat / 2 ^ 31 := by
    rw [UInt32.toNat_shiftRight, Nat.shiftRight_eq_div_pow]
    rfl
  by_cases htop : h.h4.toNat + carry = 2 ^ 26
  · -- `h + 5` reaches 2^130
    have hb : ((minusPrime h).h4 >>> 31) - 1 = -1 := by
      have hzero : (minusPrime h).h4 >>> 31 = 0 := by
        apply UInt32.toNat_inj.mp
        rw [hshift, t4]
        change _ = 0
        omega
      rw [hzero]
      rfl
    have hselect : selectLimbs h (minusPrime h) = minusPrime h := by
      rw [selectLimbs, (and_not_or _ _ _).2 hb, (and_not_or _ _ _).2 hb,
        (and_not_or _ _ _).2 hb, (and_not_or _ _ _).2 hb, (and_not_or _ _ _).2 hb]
    have hzero : (minusPrime h).h4.toNat = 0 := by
      rw [t4]
      omega
    have hvalue : (minusPrime h).toNat.value + prime = h.toNat.value := by
      rw [NatLimbs.value, Limbs.toNat, prime]
      dsimp only
      omega
    rw [hselect]
    refine ⟨⟨t0, t1, t2, t3, ?_⟩, ?_⟩
    · exact lt_of_eq_of_lt hzero (by norm_num)
    · rw [← hvalue, Nat.add_mod_right, Nat.mod_eq_of_lt]
      rw [prime] at hvalue ⊢
      omega
  · have hb : ((minusPrime h).h4 >>> 31) - 1 = 0 := by
      have hone : (minusPrime h).h4 >>> 31 = 1 := by
        apply UInt32.toNat_inj.mp
        rw [hshift, t4]
        change _ = 1
        omega
      rw [hone]
      rfl
    have hselect : selectLimbs h (minusPrime h) = h := by
      rw [selectLimbs, (and_not_or _ _ _).1 hb, (and_not_or _ _ _).1 hb,
        (and_not_or _ _ _).1 hb, (and_not_or _ _ _).1 hb, (and_not_or _ _ _).1 hb]
    rw [hselect]
    refine ⟨hbelow, (Nat.mod_eq_of_lt ?_).symm⟩
    rw [prime]
    omega

/-- The limbs in words, without what is above 2^128. -/
theorem packLimbs_value
    {h : Limbs}
    (hh : h.toNat.Below) :
    wordsValue (packLimbs h) = h.toNat.value % 2 ^ 128 := by
  obtain ⟨r0, r1, r2, r3, r4⟩ := hh
  rw [Limbs.toNat] at r0 r1 r2 r3 r4
  dsimp only at r0 r1 r2 r3 r4
  have e0 : (h.h0 ||| (h.h1 <<< 26)).toNat = h.h0.toNat + h.h1.toNat * 2 ^ 26 % 2 ^ 32 := by
    have hzero := toNat_shift_or h.h0 h.h1 0 26 (by decide)
      (by decide) (show h.h0.toNat / 2 ^ 0 < 2 ^ 26 by omega)
    rw [UInt32.shiftRight_zero] at hzero
    refine hzero.trans ?_
    change h.h0.toNat / 2 ^ 0 + h.h1.toNat * 2 ^ 26 % 2 ^ 32 = _
    rw [pow_zero, Nat.div_one]
  have e1 := toNat_shift_or h.h1 h.h2 6 20 (by decide)
    (by decide) (show h.h1.toNat / 2 ^ 6 < 2 ^ 20 by omega)
  have e2 := toNat_shift_or h.h2 h.h3 12 14 (by decide)
    (by decide) (show h.h2.toNat / 2 ^ 12 < 2 ^ 14 by omega)
  have e3 := toNat_shift_or h.h3 h.h4 18 8 (by decide)
    (by decide) (show h.h3.toNat / 2 ^ 18 < 2 ^ 8 by omega)
  rw [wordsValue, packLimbs]
  dsimp only
  rw [e0, e1, e2, e3, NatLimbs.value, Limbs.toNat]
  change h.h0.toNat + h.h1.toNat * 2 ^ 26 % 2 ^ 32 +
    2 ^ 32 * (h.h1.toNat / 2 ^ 6 + h.h2.toNat * 2 ^ 20 % 2 ^ 32) +
    2 ^ 64 * (h.h2.toNat / 2 ^ 12 + h.h3.toNat * 2 ^ 14 % 2 ^ 32) +
    2 ^ 96 * (h.h3.toNat / 2 ^ 18 + h.h4.toNat * 2 ^ 8 % 2 ^ 32) = _
  dsimp only
  omega

/-- The sum of words, without the carry out of 2^128. -/
theorem addWords_value
    (h x : Words4) :
    wordsValue (addWords h x) = (wordsValue h + wordsValue x) % 2 ^ 128 := by
  have hsum : ∀ (a b : UInt32) (c : UInt64), c.toNat < 2 →
      (a.toUInt64 + b.toUInt64 + c).toNat = a.toNat + b.toNat + c.toNat := by
    intro a b c hc
    have ha := a.toNat_lt
    have hb := b.toNat_lt
    rw [UInt64.toNat_add, UInt64.toNat_add, UInt32.toNat_toUInt64, UInt32.toNat_toUInt64]
    omega
  have hshift : ∀ d : UInt64, (d >>> 32).toNat = d.toNat / 2 ^ 32 := by
    intro d
    rw [UInt64.toNat_shiftRight, Nat.shiftRight_eq_div_pow]
    rfl
  have hw : ∀ w : UInt32, w.toNat < 2 ^ 32 := fun w => w.toNat_lt
  have e0 := hsum h.w0 x.w0 0 (by decide)
  rw [UInt64.add_zero] at e0
  obtain ⟨d0, hd0⟩ : ∃ d, d = h.w0.toUInt64 + x.w0.toUInt64 := ⟨_, rfl⟩
  rw [← hd0] at e0
  change d0.toNat = h.w0.toNat + x.w0.toNat + 0 at e0
  have b0 := hw h.w0
  have b0' := hw x.w0
  have e1 := hsum h.w1 x.w1 (d0 >>> 32) (by rw [hshift]; omega)
  obtain ⟨d1, hd1⟩ : ∃ d, d = h.w1.toUInt64 + x.w1.toUInt64 + (d0 >>> 32) := ⟨_, rfl⟩
  rw [← hd1, hshift] at e1
  have b1 := hw h.w1
  have b1' := hw x.w1
  have e2 := hsum h.w2 x.w2 (d1 >>> 32) (by rw [hshift]; omega)
  obtain ⟨d2, hd2⟩ : ∃ d, d = h.w2.toUInt64 + x.w2.toUInt64 + (d1 >>> 32) := ⟨_, rfl⟩
  rw [← hd2, hshift] at e2
  have b2 := hw h.w2
  have b2' := hw x.w2
  have e3 := hsum h.w3 x.w3 (d2 >>> 32) (by rw [hshift]; omega)
  obtain ⟨d3, hd3⟩ : ∃ d, d = h.w3.toUInt64 + x.w3.toUInt64 + (d2 >>> 32) := ⟨_, rfl⟩
  rw [← hd3, hshift] at e3
  have hcast : ∀ d : UInt64, d.toUInt32.toNat = d.toNat % 2 ^ 32 :=
    fun d => UInt64.toNat_toUInt32 d
  rw [addWords, ← hd0, ← hd1, ← hd2, ← hd3, wordsValue, hcast, hcast, hcast, hcast, wordsValue,
    wordsValue]
  omega

/-! ## The tag of a message -/

theorem word32_drop
    (x : List UInt8) (i : ℕ) :
    word32 (x.drop 16) i = word32 x (4 + i) := by
  rw [word32, word32, List.drop_drop]
  congr 4
  omega

/-- The number in the bytes of four words. -/
theorem value_bytes
    (w : Words4) :
    LittleEndian.value w.bytes = wordsValue w := by
  have hwords := value_words w.length_bytes.ge
  have hread := w.ofBytes_bytes
  rw [List.take_of_length_le w.length_bytes.le] at hwords
  rw [Words4.ofBytes] at hread
  rw [hwords, wordsValue, ← hread]
  simp only [hread]

/-- **The tag** of a number in limbs. -/
theorem finishPoly1305_value
    {h : Limbs} {key32 : List UInt8}
    (hh : h.toNat.Reduced)
    (hkey : key32.length = 32) :
    LittleEndian.value (finishPoly1305 h key32).bytes =
      (h.toNat.value % prime + LittleEndian.value (key32.drop 16)) % 2 ^ 128 := by
  obtain ⟨hbelow, hmod⟩ := carryFully_toNat hh
  obtain ⟨hselect, hvalue⟩ := selectLimbs_toNat hbelow
  have hpad : (key32.drop 16).length = 16 := by
    rw [List.length_drop, hkey]
  have hwords := value_words hpad.ge
  rw [List.take_of_length_le hpad.le, word32_drop, word32_drop, word32_drop, word32_drop] at hwords
  rw [value_bytes, finishPoly1305_eq, addWords_value, packLimbs_value hselect, hvalue, hmod,
    Nat.mod_add_mod, hwords]
  rfl

end Poly1305

/-- `BRPoly1305`. -/
def BRPoly1305 (key32 data : List UInt8) : List UInt8 :=
  (finishPoly1305 (poly1305Compress ⟨0, 0, 0, 0, 0⟩ key32 data) key32).bytes

namespace Poly1305

theorem reduced_zero :
    (Limbs.toNat ⟨0, 0, 0, 0, 0⟩).Reduced := by
  constructor <;> decide

/-- Behind any number of blocks the words hold the numbers of the run without a width. -/
theorem poly1305Compress_toNat
    {key32 : List UInt8} (data : List UInt8)
    (hkey : key32.length = 32) :
    (poly1305Compress ⟨0, 0, 0, 0, 0⟩ key32 data).toNat =
        compressNat ⟨0, 0, 0, 0, 0⟩ (NatLimbs.ofNat (clamped key32))
          ((blocks data).map blockNumber) ∧
      (poly1305Compress ⟨0, 0, 0, 0, 0⟩ key32 data).toNat.Reduced := by
  rw [poly1305Compress_eq]
  exact foldl_toNat (by omega) reduced_zero (length_blocks_le data)

/-- The operations on one block are those on unbounded numbers. -/
structure BlockExact (h r : Limbs) (block : List UInt8) : Prop where
  add : (addBlock h block).toNat = h.toNat.add (NatLimbs.ofNat (blockNumber block))
  fits : (columns (addBlock h block).toNat r.toNat).carry.Fits
  mul : (mulR (addBlock h block) r).toNat = (addBlock h block).toNat.mul r.toNat

theorem blockExact
    {h : Limbs} {key32 block : List UInt8}
    (hkey : key32.length = 32)
    (hh : h.toNat.Reduced)
    (hblock : block.length ≤ 16) :
    BlockExact h (clampR key32) block := by
  obtain ⟨-, hbelow⟩ := clampR_toNat (show 16 ≤ key32.length by omega)
  obtain ⟨hadd, hnumber⟩ := addBlock_toNat hh hblock
  have hloaded : (addBlock h block).toNat.Loaded := by
    rw [hadd]
    exact hh.add hnumber
  exact ⟨hadd, columns_fits hloaded hbelow, mulR_toNat hloaded hbelow⟩

/-- Calls with whole blocks are one call. -/
theorem foldl_poly1305Compress
    (h : Limbs) (key32 : List UInt8) {parts : List (List UInt8)}
    (hparts : ∀ part ∈ parts, 16 ∣ part.length) (last : List UInt8) :
    poly1305Compress (parts.foldl (fun h part => poly1305Compress h key32 part) h) key32 last =
      poly1305Compress h key32 (parts.flatten ++ last) := by
  induction parts generalizing h with
  | nil =>
      rfl
  | cons part parts ih =>
      rw [List.foldl_cons, ih _ (fun p hp => hparts p (List.mem_cons_of_mem _ hp)),
        List.flatten_cons, List.append_assoc,
        poly1305Compress_append (hparts part List.mem_cons_self)]

/-- **Poly1305.**  The tag is the polynomial over the blocks modulo 2^130 - 5, plus
the pad; no operation on a block or in the tag loses a carry; and the calls of a
message in whole blocks are one call. -/
theorem poly1305_spec :
    (∀ key32 data : List UInt8, key32.length = 32 →
      LittleEndian.value (BRPoly1305 key32 data) =
        (polynomial (clamped key32) ((blocks data).map blockNumber) % prime +
          LittleEndian.value (key32.drop 16)) % 2 ^ 128) ∧
    (∀ key32 data block : List UInt8, key32.length = 32 → block.length ≤ 16 →
      let h := poly1305Compress ⟨0, 0, 0, 0, 0⟩ key32 data
      BlockExact h (clampR key32) block ∧
      LittleEndian.value (finishPoly1305 h key32).bytes =
        (h.toNat.value % prime + LittleEndian.value (key32.drop 16)) % 2 ^ 128) ∧
    (∀ (key32 : List UInt8) (parts : List (List UInt8)) (last : List UInt8),
      (∀ part ∈ parts, 16 ∣ part.length) →
      (finishPoly1305 (poly1305Compress (parts.foldl
        (fun h part => poly1305Compress h key32 part) ⟨0, 0, 0, 0, 0⟩) key32 last) key32).bytes =
          BRPoly1305 key32 (parts.flatten ++ last)) := by
  refine ⟨?_, ?_, ?_⟩
  · intro key32 data hkey
    obtain ⟨hrun, hreduced⟩ := poly1305Compress_toNat data hkey
    have hvalue := compressNat_value ⟨0, 0, 0, 0, 0⟩ (NatLimbs.ofNat (clamped key32))
      ((blocks data).map blockNumber)
    rw [← hrun, NatLimbs.value_ofNat] at hvalue
    rw [BRPoly1305, finishPoly1305_value hreduced hkey, hvalue]
    change ((0 * clamped key32 ^ _ + _) % prime + _) % 2 ^ 128 = _
    rw [Nat.zero_mul, Nat.zero_add]
  · intro key32 data block hkey hblock h
    have hreduced := (poly1305Compress_toNat data hkey).2
    exact ⟨blockExact hkey hreduced hblock, finishPoly1305_value hreduced hkey⟩
  · intro key32 parts last hparts
    rw [foldl_poly1305Compress _ _ hparts, BRPoly1305]

theorem poly1305_spec_zero :
    LittleEndian.value (BRPoly1305 (List.replicate 32 1) [0]) =
      (polynomial (clamped (List.replicate 32 1)) ((blocks [0]).map blockNumber) % prime +
        LittleEndian.value ((List.replicate 32 1).drop 16)) % 2 ^ 128 :=
  poly1305_spec.1 (List.replicate 32 1) [0] (by decide)

end Poly1305

end BreadwalletCore
