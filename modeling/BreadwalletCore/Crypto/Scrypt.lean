import BreadwalletCore.Crypto
import BreadwalletCore.Crypto.Pbkdf2
import BreadwalletCore.Data.Scrypt

/-!
# scrypt

`_salsa20_8`, `_blockmix_salsa8` and `BRScrypt` of `BRCrypto.c` on a little endian machine.

* An array is the list of its bytes, and an offset is one in bytes.
* The sizes are those of the code, in its 32 bits; an offset inside of an array does not
  wrap.
* `y` and `z` hold zeros until they are written; no byte is read before.
-/

namespace BreadwalletCore

open Segment (slice)
open KeyedHash (xorBytes length_flatMap_range slice_flatMap_range)
open Scrypt (Words16)

/-! ## The core -/

/-- A turn of the loop of `_salsa20_8`. -/
def salsaTurn (w : Words16) : Words16 :=
  let (⟨x0, x1, x2, x3, x4, x5, x6, x7, x8, x9, xa, xb, xc, xd, xe, xf⟩ : Words16) := w
  -- operate on columns
  let x4 := x4 ^^^ rol32 (x0 + xc) 7
  let x8 := x8 ^^^ rol32 (x4 + x0) 9
  let xc := xc ^^^ rol32 (x8 + x4) 13
  let x0 := x0 ^^^ rol32 (xc + x8) 18
  let x9 := x9 ^^^ rol32 (x5 + x1) 7
  let xd := xd ^^^ rol32 (x9 + x5) 9
  let x1 := x1 ^^^ rol32 (xd + x9) 13
  let x5 := x5 ^^^ rol32 (x1 + xd) 18
  let xe := xe ^^^ rol32 (xa + x6) 7
  let x2 := x2 ^^^ rol32 (xe + xa) 9
  let x6 := x6 ^^^ rol32 (x2 + xe) 13
  let xa := xa ^^^ rol32 (x6 + x2) 18
  let x3 := x3 ^^^ rol32 (xf + xb) 7
  let x7 := x7 ^^^ rol32 (x3 + xf) 9
  let xb := xb ^^^ rol32 (x7 + x3) 13
  let xf := xf ^^^ rol32 (xb + x7) 18
  -- operate on rows
  let x1 := x1 ^^^ rol32 (x0 + x3) 7
  let x2 := x2 ^^^ rol32 (x1 + x0) 9
  let x3 := x3 ^^^ rol32 (x2 + x1) 13
  let x0 := x0 ^^^ rol32 (x3 + x2) 18
  let x6 := x6 ^^^ rol32 (x5 + x4) 7
  let x7 := x7 ^^^ rol32 (x6 + x5) 9
  let x4 := x4 ^^^ rol32 (x7 + x6) 13
  let x5 := x5 ^^^ rol32 (x4 + x7) 18
  let xb := xb ^^^ rol32 (xa + x9) 7
  let x8 := x8 ^^^ rol32 (xb + xa) 9
  let x9 := x9 ^^^ rol32 (x8 + xb) 13
  let xa := xa ^^^ rol32 (x9 + x8) 18
  let xc := xc ^^^ rol32 (xf + xe) 7
  let xd := xd ^^^ rol32 (xc + xf) 9
  let xe := xe ^^^ rol32 (xd + xc) 13
  let xf := xf ^^^ rol32 (xe + xd) 18
  ⟨x0, x1, x2, x3, x4, x5, x6, x7, x8, x9, xa, xb, xc, xd, xe, xf⟩

/-- `_salsa20_8` -/
def salsa20_8 (b : List UInt8) : List UInt8 :=
  ((Words16.ofBytes b).add (salsaTurn^[4] (Words16.ofBytes b))).bytes

theorem salsaTurn_eq
    (w : Words16) :
    salsaTurn w = Scrypt.doubleround w :=
  rfl

theorem salsa20_8_eq
    (b : List UInt8) :
    salsa20_8 b = Scrypt.salsa20Core b := by
  rw [salsa20_8, Scrypt.salsa20Core, funext salsaTurn_eq]

/-! ## Block mixing -/

/-- `x[j] ^= y[off + j]` for `n` words of 8 bytes; `off` is in bytes. -/
def xorFrom (n : ℕ) (x y : List UInt8) (off : ℕ) : Except CryptoFault (List UInt8) := do
  let _ ← peek x 0 (8 * n)
  let part ← peek y off (8 * n)
  .ok (xorInto 8 n x part)

/-- A turn of the loop of `_blockmix_salsa8`: `dest` and `b`. -/
def blockmixTurn (r : ℕ) (src : List UInt8) (st : List UInt8 × List UInt8) (i : ℕ) :
    Except CryptoFault (List UInt8 × List UInt8) := do
  let b ← xorFrom 8 st.2 src (8 * (i * 8))
  let b := salsa20_8 b
  let dest ← poke st.1.length st.1 (8 * (i * 4)) b
  let b ← xorFrom 8 b src (8 * (i * 8 + 8))
  let b := salsa20_8 b
  let dest ← poke dest.length dest (8 * (i * 4 + r * 8)) b
  .ok (dest, b)

/-- `_blockmix_salsa8`: `dest` and `b`.  The loop counts in twos. -/
def blockmix_salsa8 (dest src b : List UInt8) (r : ℕ) :
    Except CryptoFault (List UInt8 × List UInt8) := do
  let last ← peek src (8 * ((2 * r - 1) * 8)) 64
  let b ← poke b.length b 0 last
  (List.range r).foldlM (fun st k => blockmixTurn r src st (2 * k)) (dest, b)

/-- A write leaves the size of an array. -/
theorem length_poke
    {off : ℕ} {x l y : List UInt8}
    (h : poke x.length x off l = .ok y) :
    y.length = x.length := by
  rw [poke] at h
  split_ifs at h with hend
  cases h
  rw [List.length_append, List.length_append, List.length_take, List.length_drop]
  omega

/-- A write over a whole array. -/
theorem poke_whole
    {x l : List UInt8}
    (h : l.length = x.length) :
    poke x.length x 0 l = .ok l := by
  rw [poke_eq (by omega), List.take_zero, List.nil_append, List.drop_eq_nil_of_le (by omega),
    List.append_nil]

theorem xorFrom_eq
    {n off : ℕ} {x y : List UInt8}
    (hx : x.length = 8 * n)
    (hy : off + 8 * n ≤ y.length) :
    xorFrom n x y off = .ok (xorBytes x (slice y off (8 * n))) := by
  rw [xorFrom, peek_eq (by omega), Machine.ok_bind, peek_eq hy, Machine.ok_bind,
    xorInto_eq hx (Segment.length_slice hy)]

/-- `dest` and `b` behind a number of turns: the two halves of `dest` are filled from their
beginnings. -/
structure BlockmixState (r : ℕ) (src : List UInt8) (k : ℕ) (st : List UInt8 × List UInt8) :
    Prop where
  b : st.2 = Scrypt.chain r src (2 * k)
  dest : ∃ gap rest, gap.length = 64 * (r - k) ∧ rest.length = 64 * (r - k) ∧
    st.1 = (List.range k).flatMap (fun i => Scrypt.chain r src (2 * i + 1)) ++ (gap ++
      ((List.range k).flatMap (fun i => Scrypt.chain r src (2 * i + 2)) ++ rest))

theorem length_chain
    {r : ℕ} {src : List UInt8}
    (hr : 1 ≤ r)
    (hsrc : src.length = 128 * r)
    (i : ℕ) :
    (Scrypt.chain r src i).length = 64 := by
  cases i with
  | zero =>
      exact Segment.length_slice (by omega)
  | succ i =>
      exact Scrypt.length_chain r src i

/-- A step of the chain, as the code makes it. -/
theorem xorFrom_chain
    {r off i : ℕ} {src : List UInt8}
    (hr : 1 ≤ r)
    (hsrc : src.length = 128 * r)
    (hoff : off = 64 * i)
    (hi : i < 2 * r) :
    ∃ b, xorFrom 8 (Scrypt.chain r src i) src off = .ok b ∧
      salsa20_8 b = Scrypt.chain r src (i + 1) := by
  rw [hoff]
  exact ⟨_, xorFrom_eq (length_chain hr hsrc i) (by omega), salsa20_8_eq _⟩

/-- The first half gets a block. -/
theorem poke_even
    {r k : ℕ} {src gap back : List UInt8}
    (hk : k < r)
    (hgap : 64 ≤ gap.length) :
    poke (128 * r) ((List.range k).flatMap (fun i => Scrypt.chain r src (2 * i + 1)) ++
        (gap ++ back)) (8 * (2 * k * 4)) (Scrypt.chain r src (2 * k + 1)) =
      .ok ((List.range (k + 1)).flatMap (fun i => Scrypt.chain r src (2 * i + 1)) ++
        (gap.drop 64 ++ back)) := by
  have hlen := Scrypt.length_chain r src
  have hevens := length_flatMap_range (fun i => hlen (2 * i)) k
  rw [poke_next (hevens.trans (by omega)) (by rw [hlen]; omega), hlen,
    List.drop_append_of_le_length hgap, List.range_succ, List.flatMap_append,
    List.flatMap_singleton]

/-- The second half gets a block. -/
theorem poke_odd
    {r k : ℕ} {src front rest : List UInt8}
    (hk : k < r)
    (hfront : front.length = 64 * r) :
    poke (128 * r) (front ++
        ((List.range k).flatMap (fun i => Scrypt.chain r src (2 * i + 2)) ++ rest))
        (8 * (2 * k * 4 + r * 8)) (Scrypt.chain r src (2 * k + 2)) =
      .ok (front ++ ((List.range (k + 1)).flatMap (fun i => Scrypt.chain r src (2 * i + 2)) ++
        rest.drop 64)) := by
  have hlen := Scrypt.length_chain r src
  have hodds := length_flatMap_range (fun i => hlen (2 * i + 1)) k
  have hboth : (front ++ (List.range k).flatMap
      (fun i => Scrypt.chain r src (2 * i + 2))).length = 8 * (2 * k * 4 + r * 8) := by
    rw [List.length_append, hfront, hodds]
    omega
  rw [← List.append_assoc, poke_next hboth (by rw [hlen]; omega), hlen, List.range_succ,
    List.flatMap_append, List.flatMap_singleton]
  simp only [List.append_assoc]

theorem blockmixTurn_eq
    {r k : ℕ} {src : List UInt8} {st : List UInt8 × List UInt8}
    (hsrc : src.length = 128 * r)
    (hk : k < r)
    (hst : BlockmixState r src k st) :
    ∃ st', blockmixTurn r src st (2 * k) = .ok st' ∧ BlockmixState r src (k + 1) st' := by
  obtain ⟨dest, b⟩ := st
  obtain ⟨hb, gap, rest, hgap, hrest, hdest⟩ := hst
  dsimp only at hb hdest
  have hr : 1 ≤ r := by omega
  have hlen := Scrypt.length_chain r src
  obtain ⟨b₁, hxor₁, hb₁⟩ := @xorFrom_chain r (8 * (2 * k * 8)) (2 * k) src hr hsrc (by omega)
    (by omega)
  obtain ⟨b₂, hxor₂, hb₂⟩ := @xorFrom_chain r (8 * (2 * k * 8 + 8)) (2 * k + 1) src hr hsrc
    (by omega) (by omega)
  have hsize : dest.length = 128 * r := by
    rw [hdest, List.length_append, List.length_append, List.length_append,
      length_flatMap_range (fun i => hlen (2 * i)), length_flatMap_range (fun i => hlen (2 * i + 1)),
      hgap, hrest]
    omega
  have hfirst := @poke_even r k src gap
    ((List.range k).flatMap (fun i => Scrypt.chain r src (2 * i + 2)) ++ rest) hk (by omega)
  rw [← hdest, ← hsize] at hfirst
  have hfront : ((List.range (k + 1)).flatMap (fun i => Scrypt.chain r src (2 * i + 1)) ++
      gap.drop 64).length = 64 * r := by
    rw [List.length_append, List.length_drop, hgap, length_flatMap_range (fun i => hlen (2 * i))]
    omega
  have hsecond := @poke_odd r k src _ rest hk hfront
  rw [List.append_assoc, List.append_assoc] at hsecond
  refine ⟨(_, Scrypt.chain r src (2 * k + 2)), ?_, ⟨rfl, gap.drop 64, rest.drop 64, ?_, ?_, rfl⟩⟩
  · rw [blockmixTurn]
    dsimp only
    rw [hb, hxor₁, Machine.ok_bind, hb₁, hfirst, Machine.ok_bind, hxor₂, Machine.ok_bind, hb₂,
      (length_poke hfirst).trans hsize, hsecond, Machine.ok_bind]
  · rw [List.length_drop]
    omega
  · rw [List.length_drop]
    omega

theorem blockmix_salsa8_eq
    {r : ℕ} {dest src b : List UInt8}
    (hr : 1 ≤ r)
    (hdest : dest.length = 128 * r)
    (hsrc : src.length = 128 * r)
    (hb : b.length = 64) :
    ∃ b', blockmix_salsa8 dest src b r = .ok (Scrypt.blockMix r src, b') ∧ b'.length = 64 := by
  have hlast := length_chain hr hsrc 0
  have hread : peek src (8 * ((2 * r - 1) * 8)) 64 = .ok (Scrypt.chain r src 0) := by
    rw [peek_eq (by omega), (by omega : 8 * ((2 * r - 1) * 8) = 64 * (2 * r - 1))]
    rfl
  have hpoke := poke_whole (hlast.trans hb.symm)
  have hstart : BlockmixState r src 0 (dest, Scrypt.chain r src 0) :=
    ⟨rfl, dest.take (64 * r), dest.drop (64 * r), by rw [List.length_take]; omega,
      by rw [List.length_drop]; omega, (List.take_append_drop _ _).symm⟩
  obtain ⟨⟨dest', b'⟩, hrun, hb', gap, rest, hgap, hrest, hdest'⟩ :=
    foldlM_range hstart (fun k st hk => blockmixTurn_eq hsrc hk)
  rw [Nat.sub_self, Nat.mul_zero, List.length_eq_zero_iff] at hgap hrest
  dsimp only at hb' hdest'
  rw [hgap, hrest, List.nil_append, List.append_nil] at hdest'
  refine ⟨b', ?_, ?_⟩
  · rw [blockmix_salsa8, hread, Machine.ok_bind, hpoke, Machine.ok_bind, hrun, hdest']
    rfl
  · rw [hb']
    exact length_chain hr hsrc _

/-! ## The arrays -/

/-- The arrays of `BRScrypt` that a turn for a block works on. -/
structure ScryptArrays where
  x : List UInt8
  y : List UInt8
  z : List UInt8
  v : List UInt8

/-- A turn of the loop that fills `v`. -/
def fillTurn (r : ℕ) (a : ScryptArrays) (j : ℕ) : Except CryptoFault ScryptArrays := do
  let part ← peek a.x 0 (128 * r)
  let v ← poke a.v.length a.v (8 * (j * (16 * r))) part
  let (y, z) ← blockmix_salsa8 a.y a.x a.z r
  let part ← peek y 0 (128 * r)
  let v ← poke v.length v (8 * ((j + 1) * (16 * r))) part
  let (x, z) ← blockmix_salsa8 a.x y z r
  .ok ⟨x, y, z, v⟩

/-- `x[k] ^= v[m*(16*r) + k]`, where `m` is taken from the last block of `x`. -/
def xorEntry (n r : ℕ) (x v : List UInt8) : Except CryptoFault (List UInt8) := do
  let word ← peek x (8 * ((2 * r - 1) * 8)) 8
  let m := LittleEndian.value word &&& (n - 1)
  xorFrom (16 * r) x v (8 * (m * (16 * r)))

/-- A turn of the loop that reads `v`. -/
def mixTurn (n r : ℕ) (a : ScryptArrays) : Except CryptoFault ScryptArrays := do
  let x ← xorEntry n r a.x a.v
  let (y, z) ← blockmix_salsa8 a.y x a.z r
  let y ← xorEntry n r y a.v
  let (x, z) ← blockmix_salsa8 x y z r
  .ok ⟨x, y, z, a.v⟩

/-- A turn for a block of `b`.  The inner loops count in twos. -/
def scryptTurn (n r : ℕ) (st : List UInt8 × ScryptArrays) (i : ℕ) :
    Except CryptoFault (List UInt8 × ScryptArrays) := do
  let part ← peek st.1 (4 * (i * 32 * r)) (4 * (32 * r))
  let x ← poke st.2.x.length st.2.x 0 part
  let a ← (List.range ((n + 1) / 2)).foldlM (fun a k => fillTurn r a (2 * k)) { st.2 with x := x }
  let a ← (List.range ((n + 1) / 2)).foldlM (fun a _ => mixTurn n r a) a
  let part ← peek a.x 0 (4 * (32 * r))
  let b ← poke st.1.length st.1 (4 * (i * 32 * r)) part
  .ok (b, a)

/-- `BRScrypt`: the derived key. -/
def BRScrypt (sha256 : HashAlgorithm) (dkLen : ℕ) (pw salt : List UInt8) (n r p : ℕ) :
    Except CryptoFault (List UInt8) := do
  let b ← BRPBKDF2 sha256 (4 * (32 * r * p % 2 ^ 32)) pw salt 1
  let (b, _) ← (List.range p).foldlM (scryptTurn n r)
    (b, { x := List.replicate (8 * (16 * r % 2 ^ 32)) 0
          y := List.replicate (8 * (16 * r % 2 ^ 32)) 0
          z := List.replicate 64 0
          v := List.replicate (128 * r * n % 2 ^ 32) 0 })
  BRPBKDF2 sha256 dkLen pw b 1

/-- The arrays have their sizes. -/
structure ScryptArrays.Sized (n r : ℕ) (a : ScryptArrays) : Prop where
  x : a.x.length = 128 * r
  y : a.y.length = 128 * r
  z : a.z.length = 64
  v : a.v.length = 128 * r * n

/-! ## The loop that fills `v` -/

/-- The beginning of `v` behind a number of entries. -/
def table (r : ℕ) (B : List UInt8) (k : ℕ) : List UInt8 :=
  (List.range k).flatMap (fun j => (Scrypt.blockMix r)^[j] B)

theorem length_table
    {r : ℕ} {B : List UInt8}
    (hB : B.length = 128 * r)
    (k : ℕ) :
    (table r B k).length = 128 * r * k :=
  length_flatMap_range (Scrypt.length_blockMix_iterate hB) k

/-- An entry is written behind the entries so far. -/
theorem poke_table
    {n r k off : ℕ} {B rest : List UInt8}
    (hB : B.length = 128 * r)
    (hoff : off = 128 * r * k)
    (hk : k < n) :
    poke (128 * r * n) (table r B k ++ rest) off ((Scrypt.blockMix r)^[k] B) =
      .ok (table r B (k + 1) ++ rest.drop (128 * r)) := by
  have hlen := Scrypt.length_blockMix_iterate hB k
  have hcap := Nat.mul_le_mul_left (128 * r) (Nat.succ_le_of_lt hk)
  rw [hoff, poke_next (length_table hB k) (by rw [hlen]; rwa [Nat.mul_succ] at hcap),
    hlen, table, table, List.range_succ, List.flatMap_append, List.flatMap_singleton]

/-- A whole array. -/
theorem peek_all
    {n : ℕ} {x : List UInt8}
    (hx : x.length = n) :
    peek x 0 n = .ok x := by
  rw [peek_eq (by omega), slice, List.drop_zero, List.take_of_length_le hx.le]

/-- The arrays behind a number of entries of `v`. -/
structure FillState (n r : ℕ) (B : List UInt8) (k : ℕ) (a : ScryptArrays) : Prop where
  sized : a.Sized n r
  x : a.x = (Scrypt.blockMix r)^[k] B
  v : ∃ rest, a.v = table r B k ++ rest

theorem fillTurn_eq
    {n r k : ℕ} {B : List UInt8} {a : ScryptArrays}
    (hr : 1 ≤ r)
    (hB : B.length = 128 * r)
    (hk : 2 * k + 1 < n)
    (hst : FillState n r B (2 * k) a) :
    ∃ a', fillTurn r a (2 * k) = .ok a' ∧ FillState n r B (2 * (k + 1)) a' := by
  obtain ⟨x, y, z, v⟩ := a
  obtain ⟨⟨hx, hy, hz, hv⟩, hxval, rest, hvval⟩ := hst
  dsimp only at hx hy hz hv hxval hvval
  obtain ⟨z₁, hmix₁, hz₁⟩ := blockmix_salsa8_eq hr hy hx hz
  have hynext := Scrypt.length_blockMix r x
  obtain ⟨z₂, hmix₂, hz₂⟩ := blockmix_salsa8_eq hr hx hynext hz₁
  have hfirst : poke v.length v (8 * (2 * k * (16 * r))) x =
      .ok (table r B (2 * k + 1) ++ rest.drop (128 * r)) := by
    rw [hv, hvval, hxval, poke_table hB (by ring) (by omega)]
  have hsize := (length_poke hfirst).trans hv
  have hsecond : poke (128 * r * n) (table r B (2 * k + 1) ++ rest.drop (128 * r))
      (8 * ((2 * k + 1) * (16 * r))) (Scrypt.blockMix r x) =
      .ok (table r B (2 * k + 2) ++ (rest.drop (128 * r)).drop (128 * r)) := by
    rw [hxval, ← Function.iterate_succ_apply' (Scrypt.blockMix r), poke_table hB (by ring) hk]
  have hvnext := length_poke (hsize.symm ▸ hsecond)
  refine ⟨⟨Scrypt.blockMix r (Scrypt.blockMix r x), Scrypt.blockMix r x, z₂, _⟩, ?_,
    ⟨Scrypt.length_blockMix r _, hynext, hz₂, hvnext.trans hsize⟩, ?_, _, rfl⟩
  · rw [fillTurn]
    dsimp only
    rw [peek_all hx, Machine.ok_bind, hfirst, Machine.ok_bind, hmix₁, Machine.ok_bind]
    dsimp only
    rw [peek_all hynext, Machine.ok_bind, hsize, hsecond, Machine.ok_bind, hmix₂, Machine.ok_bind]
  · dsimp only
    rw [hxval, ← Function.iterate_succ_apply' (Scrypt.blockMix r),
      ← Function.iterate_succ_apply' (Scrypt.blockMix r)]
    rfl

/-! ## The loop that reads `v` -/

/-- The entry is the one of the standard. -/
theorem xorEntry_eq
    {n r k : ℕ} {B X : List UInt8}
    (hr : 1 ≤ r)
    (hn : n = 2 ^ k)
    (hk : k ≤ 64)
    (hB : B.length = 128 * r)
    (hX : X.length = 128 * r) :
    xorEntry n r X (table r B n) =
      .ok (xorBytes X ((Scrypt.blockMix r)^[Scrypt.integerify r X % n] B)) := by
  have hpos : 0 < n := by rw [hn]; exact Nat.two_pow_pos k
  have hlt := Nat.mod_lt (Scrypt.integerify r X) hpos
  have hm : LittleEndian.value (slice X (8 * ((2 * r - 1) * 8)) 8) &&& (n - 1) =
      Scrypt.integerify r X % n := by
    rw [hn, Nat.and_two_pow_sub_one_eq_mod, Scrypt.integerify_mod hk (by omega),
      (by omega : 8 * ((2 * r - 1) * 8) = 64 * (2 * r - 1))]
  have hend : 8 * (Scrypt.integerify r X % n * (16 * r)) + 8 * (16 * r) ≤
      (table r B n).length := by
    have hle := Nat.mul_le_mul_left (128 * r) (Nat.succ_le_of_lt hlt)
    rw [length_table hB]
    calc 8 * (Scrypt.integerify r X % n * (16 * r)) + 8 * (16 * r)
        = 128 * r * (Scrypt.integerify r X % n + 1) := by ring
      _ ≤ 128 * r * n := hle
  have hentry := slice_flatMap_range (Scrypt.length_blockMix_iterate hB) hlt
  rw [xorEntry, peek_eq (by omega), Machine.ok_bind, hm, xorFrom_eq (by omega) hend, table,
    (by ring : 8 * (Scrypt.integerify r X % n * (16 * r)) =
      128 * r * (Scrypt.integerify r X % n)), (by ring : 8 * (16 * r) = 128 * r), hentry]

/-- The arrays behind a number of steps of ROMix. -/
structure MixState (n r : ℕ) (B : List UInt8) (k : ℕ) (a : ScryptArrays) : Prop where
  sized : a.Sized n r
  x : a.x = (Scrypt.mixStep r n B)^[k] ((Scrypt.blockMix r)^[n] B)
  v : a.v = table r B n

theorem mixTurn_eq
    {n r e k : ℕ} {B : List UInt8} {a : ScryptArrays}
    (hr : 1 ≤ r)
    (hn : n = 2 ^ e)
    (he : e ≤ 64)
    (hB : B.length = 128 * r)
    (hst : MixState n r B (2 * k) a) :
    ∃ a', mixTurn n r a = .ok a' ∧ MixState n r B (2 * (k + 1)) a' := by
  obtain ⟨x, y, z, v⟩ := a
  obtain ⟨⟨hx, hy, hz, hv⟩, hxval, hvval⟩ := hst
  dsimp only at hx hy hz hv hxval hvval
  have hxor : ∀ X : List UInt8, X.length = 128 * r →
      (xorBytes X ((Scrypt.blockMix r)^[Scrypt.integerify r X % n] B)).length = 128 * r := by
    intro X hX
    rw [KeyedHash.length_xorBytes, hX, Scrypt.length_blockMix_iterate hB, Nat.min_self]
  have hynext := Scrypt.length_blockMix r
    (xorBytes x ((Scrypt.blockMix r)^[Scrypt.integerify r x % n] B))
  obtain ⟨z₁, hmix₁, hz₁⟩ := blockmix_salsa8_eq hr hy (hxor x hx) hz
  obtain ⟨z₂, hmix₂, hz₂⟩ := blockmix_salsa8_eq hr (hxor x hx) (hxor _ hynext) hz₁
  refine ⟨⟨Scrypt.mixStep r n B (Scrypt.mixStep r n B x), _, z₂, v⟩, ?_,
    ⟨Scrypt.length_blockMix r _, hxor _ hynext, hz₂, hv⟩, ?_, hvval⟩
  · rw [mixTurn]
    dsimp only
    rw [hvval, xorEntry_eq hr hn he hB hx, Machine.ok_bind, hmix₁, Machine.ok_bind]
    dsimp only
    rw [xorEntry_eq hr hn he hB hynext, Machine.ok_bind, hmix₂, Machine.ok_bind]
    rfl
  · dsimp only
    rw [hxval, ← Function.iterate_succ_apply' (Scrypt.mixStep r n B),
      ← Function.iterate_succ_apply' (Scrypt.mixStep r n B)]
    rfl

/-- Both loops together are ROMix. -/
theorem roMix_eq
    {n r e : ℕ} {X : List UInt8} {a : ScryptArrays}
    (hr : 1 ≤ r)
    (hn : n = 2 ^ e)
    (hpos : 1 ≤ e)
    (he : e ≤ 64)
    (hX : X.length = 128 * r)
    (hsized : a.Sized n r)
    (hx : a.x = X) :
    ∃ a₁ a₂, (List.range ((n + 1) / 2)).foldlM (fun a k => fillTurn r a (2 * k)) a = .ok a₁ ∧
      (List.range ((n + 1) / 2)).foldlM (fun a _ => mixTurn n r a) a₁ = .ok a₂ ∧
      a₂.Sized n r ∧ a₂.x = Scrypt.roMix r n X := by
  obtain ⟨half, hhalf⟩ : ∃ half, n = 2 * half :=
    ⟨2 ^ (e - 1), by rw [hn, ← pow_succ', Nat.sub_add_cancel hpos]⟩
  have hturns : (n + 1) / 2 = half := by omega
  have hfill : FillState n r X (2 * 0) a := ⟨hsized, hx, a.v, rfl⟩
  obtain ⟨a₁, hrun₁, hsized₁, hx₁, rest, hv₁⟩ :=
    @foldlM_range _ _ _ (fun k => FillState n r X (2 * k)) half _ hfill
      (fun k a hk => fillTurn_eq hr hX (by omega))
  rw [← hhalf] at hx₁ hv₁
  have hrest : rest = [] := by
    have hlen := hsized₁.v
    rw [hv₁, List.length_append, length_table hX] at hlen
    exact List.eq_nil_of_length_eq_zero (by omega)
  rw [hrest, List.append_nil] at hv₁
  obtain ⟨a₂, hrun₂, hsized₂, hx₂, -⟩ :=
    @foldlM_range _ _ _ (fun k => MixState n r X (2 * k)) half _ ⟨hsized₁, hx₁, hv₁⟩
      (fun k a _ => mixTurn_eq hr hn he hX)
  rw [← hhalf] at hx₂
  rw [hturns]
  exact ⟨a₁, a₂, hrun₁, hrun₂, hsized₂, hx₂⟩

/-! ## The loop over the blocks of `b` -/

/-- `b` behind a number of blocks: these are mixed, the others are as they were. -/
structure ScryptState (n r : ℕ) (B : List UInt8) (i : ℕ) (st : List UInt8 × ScryptArrays) :
    Prop where
  b : st.1 = (List.range i).flatMap (fun k =>
    Scrypt.roMix r n (slice B (128 * r * k) (128 * r))) ++ B.drop (128 * r * i)
  sized : st.2.Sized n r

theorem scryptTurn_eq
    {n r p e i : ℕ} {B : List UInt8} {st : List UInt8 × ScryptArrays}
    (hr : 1 ≤ r)
    (hn : n = 2 ^ e)
    (hpos : 1 ≤ e)
    (he : e ≤ 64)
    (hB : B.length = 128 * r * p)
    (hi : i < p)
    (hst : ScryptState n r B i st) :
    ∃ st', scryptTurn n r st i = .ok st' ∧ ScryptState n r B (i + 1) st' := by
  obtain ⟨b, a⟩ := st
  obtain ⟨hb, hsized⟩ := hst
  dsimp only at hb hsized
  have hnpos : 0 < n := by rw [hn]; exact Nat.two_pow_pos e
  have hfit := Nat.mul_le_mul_left (128 * r) (Nat.succ_le_of_lt hi)
  rw [Nat.mul_succ, ← hB] at hfit
  have hXlen : (slice B (128 * r * i) (128 * r)).length = 128 * r := Segment.length_slice hfit
  have hfront := length_flatMap_range (fun k => @Scrypt.length_roMix r n
    (slice B (128 * r * k) (128 * r)) hnpos) i
  have hblen : b.length = B.length := by
    rw [hb, List.length_append, hfront, List.length_drop]
    omega
  have hoff : 4 * (i * 32 * r) = 128 * r * i := by ring
  have hsize : 4 * (32 * r) = 128 * r := by ring
  have hread : peek b (128 * r * i) (128 * r) = .ok (slice B (128 * r * i) (128 * r)) := by
    rw [peek_eq (by rw [hblen]; exact hfit), hb, slice, List.drop_left' hfront, slice]
  obtain ⟨a₁, a₂, hfill, hmix, hsized₂, hx₂⟩ :=
    @roMix_eq n r e _ { a with x := slice B (128 * r * i) (128 * r) } hr hn hpos he hXlen
      ⟨hXlen, hsized.y, hsized.z, hsized.v⟩ rfl
  have hwrite : poke b.length b (128 * r * i) a₂.x =
      .ok ((List.range (i + 1)).flatMap (fun k =>
        Scrypt.roMix r n (slice B (128 * r * k) (128 * r))) ++ B.drop (128 * r * (i + 1))) := by
    rw [hblen, hb, poke_next hfront (by rw [hsized₂.x]; exact hfit), hsized₂.x, List.drop_drop,
      Nat.mul_succ, List.range_succ, List.flatMap_append, List.flatMap_singleton, hx₂]
  refine ⟨(_, a₂), ?_, rfl, hsized₂⟩
  rw [scryptTurn]
  dsimp only
  rw [hoff, hsize, hread, Machine.ok_bind, poke_whole (hXlen.trans hsized.x.symm),
    Machine.ok_bind, hfill, Machine.ok_bind, hmix, Machine.ok_bind, peek_all hsized₂.x,
    Machine.ok_bind, hwrite, Machine.ok_bind]

theorem BRScrypt_eq
    (sha256 : HashAlgorithm) {dkLen n r p e : ℕ} {pw salt : List UInt8}
    (hr : 1 ≤ r)
    (hn : n = 2 ^ e)
    (hpos : 1 ≤ e)
    (hv : 128 * r * n < 2 ^ 32)
    (hb : 128 * r * p < 2 ^ 32) :
    BRScrypt sha256 dkLen pw salt n r p =
      .ok (Scrypt.scrypt (fun pw salt => sha256.pbkdf2 pw salt 1) pw salt n r p dkLen) := by
  have hnpos : 0 < n := by rw [hn]; exact Nat.two_pow_pos e
  have hrow := Nat.le_mul_of_pos_right (128 * r) hnpos
  have he : e ≤ 64 := by
    have hle : n ≤ 128 * r * n := Nat.le_mul_of_pos_left n (by omega)
    rw [hn] at hle hv
    exact ((Nat.pow_lt_pow_iff_right (by decide)).mp (hle.trans_lt hv)).le.trans (by decide)
  obtain ⟨B, hB⟩ : ∃ B, sha256.pbkdf2 pw salt 1 (128 * r * p) = B := ⟨_, rfl⟩
  have hlen : B.length = 128 * r * p := by
    rw [← hB]
    exact KeyedHash.length_pbkdf2 (sha256.length_hmac pw) sha256.pos salt 1 _
  have hsizeB : 4 * (32 * r * p % 2 ^ 32) = 128 * r * p := by
    have hassoc : 4 * (32 * r * p) = 128 * r * p := by ring
    omega
  have hsizeX : 8 * (16 * r % 2 ^ 32) = 128 * r := by omega
  have hstart : ScryptState n r B 0 (B, { x := List.replicate (128 * r) 0
                                          y := List.replicate (128 * r) 0
                                          z := List.replicate 64 0
                                          v := List.replicate (128 * r * n) 0 }) :=
    ⟨rfl, List.length_replicate, List.length_replicate, List.length_replicate,
      List.length_replicate⟩
  obtain ⟨⟨b, a⟩, hrun, hfinal, -⟩ :=
    foldlM_range hstart (fun i st hi => scryptTurn_eq hr hn hpos he hlen hi)
  rw [List.drop_eq_nil_of_le hlen.le, List.append_nil] at hfinal
  dsimp only at hfinal
  rw [BRScrypt, hsizeB, hsizeX, Nat.mod_eq_of_lt hv, BRPBKDF2_eq, Machine.ok_bind, hB, hrun,
    Machine.ok_bind]
  dsimp only
  rw [BRPBKDF2_eq, hfinal, Scrypt.scrypt, ← hB]

/-! ## Keys from passwords -/

/-- The three functions are those of their standards, and no read or write leaves an
array. -/
theorem key_derivation :
    (∀ (hash : HashAlgorithm) (key data : List UInt8),
      BRHMAC hash key data =
        .ok (KeyedHash.hmac hash.run (if hash.hashLen > 32 then 128 else 64) key data)) ∧
    (∀ (hash : HashAlgorithm) (dkLen rounds : ℕ) (pw salt : List UInt8),
      dkLen < 2 ^ 32 → 1 ≤ rounds →
        BRPBKDF2 hash dkLen pw salt rounds = .ok (hash.pbkdf2 pw salt rounds dkLen)) ∧
    (∀ (sha256 : HashAlgorithm) (dkLen n r p : ℕ) (pw salt : List UInt8),
      dkLen < 2 ^ 32 → 1 ≤ r → 1 ≤ p → 2 ≤ n → (∃ e, n = 2 ^ e) →
      128 * r * n < 2 ^ 32 → 128 * r * p < 2 ^ 32 →
        BRScrypt sha256 dkLen pw salt n r p =
          .ok (Scrypt.scrypt (fun pw salt => sha256.pbkdf2 pw salt 1) pw salt n r p dkLen)) := by
  refine ⟨BRHMAC_eq, fun hash dkLen rounds pw salt _ _ => BRPBKDF2_eq hash pw salt dkLen rounds, ?_⟩
  rintro sha256 dkLen n r p pw salt - hr - h2 ⟨e, hn⟩ hv hb
  have hpos : 1 ≤ e := by
    rcases Nat.eq_zero_or_pos e with rfl | h
    · rw [pow_zero] at hn
      omega
    · exact h
  exact BRScrypt_eq sha256 hr hn hpos hv hb

theorem key_derivation_two :
    BRPBKDF2 headHash 40 [1] [2] 3 = .ok (headHash.pbkdf2 [1] [2] 3 40) ∧
      BRScrypt headHash 16 [1] [2] 2 1 1 =
        .ok (Scrypt.scrypt (fun pw salt => headHash.pbkdf2 pw salt 1) [1] [2] 2 1 1 16) :=
  ⟨key_derivation.2.1 headHash 40 3 [1] [2] (by decide) (by decide),
    key_derivation.2.2 headHash 16 2 1 1 [1] [2] (by decide) (by decide) (by decide) (by decide)
      ⟨1, rfl⟩ (by decide) (by decide)⟩

end BreadwalletCore
