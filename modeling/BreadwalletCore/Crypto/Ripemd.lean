import BreadwalletCore.Crypto.Hash
import BreadwalletCore.Crypto.Words
import BreadwalletCore.Data.Ripemd160

/-!
# The compression of RIPEMD-160

`_BRRMDCompress` of `BRCrypto.c` on a little endian machine, where `le32` is the identity.
Its macros `f` to `j` are `rmdF` to `rmdJ`.
-/

namespace BreadwalletCore

open LittleEndian RootConstants
open Ripemd160 (Vars Line)

def rmdF (x y z : UInt32) : UInt32 :=
  x ^^^ y ^^^ z

def rmdG (x y z : UInt32) : UInt32 :=
  (x &&& y) ||| (~~~x &&& z)

def rmdH (x y z : UInt32) : UInt32 :=
  (x ||| ~~~y) ^^^ z

def rmdI (x y z : UInt32) : UInt32 :=
  (x &&& z) ||| (y &&& ~~~z)

def rmdJ (x y z : UInt32) : UInt32 :=
  x ^^^ (y ||| ~~~z)

/-- The macro `rmd`, for the variables of a line. -/
def rmdOp (b c d e : UInt32) (s : Vars UInt32) : Vars UInt32 :=
  let t := rol32 (s.a + b + c + d) e + s.e
  { a := s.e, e := s.d, d := rol32 s.c 10, c := s.b, b := t }

/-- The order of the words, and the rotations, in a round of a line. -/
structure RmdTables where
  r : List ℕ
  s : List UInt32

def left1 : RmdTables where
  r := [0, 1, 2, 3, 4, 5, 6, 7, 8, 9, 10, 11, 12, 13, 14, 15]
  s := [11, 14, 15, 12, 5, 8, 7, 9, 11, 13, 14, 15, 6, 7, 9, 8]

def left2 : RmdTables where
  r := [7, 4, 13, 1, 10, 6, 15, 3, 12, 0, 9, 5, 2, 14, 11, 8]
  s := [7, 6, 8, 13, 11, 9, 7, 15, 7, 12, 15, 9, 11, 7, 13, 12]

def left3 : RmdTables where
  r := [3, 10, 14, 4, 9, 15, 8, 1, 2, 7, 0, 6, 13, 11, 5, 12]
  s := [11, 13, 6, 7, 14, 9, 13, 15, 14, 8, 13, 6, 5, 12, 7, 5]

def left4 : RmdTables where
  r := [1, 9, 11, 10, 0, 8, 12, 4, 13, 3, 7, 15, 14, 5, 6, 2]
  s := [11, 12, 14, 15, 14, 15, 9, 8, 9, 14, 5, 6, 8, 6, 5, 12]

def left5 : RmdTables where
  r := [4, 0, 5, 9, 7, 12, 2, 10, 14, 1, 3, 8, 11, 6, 15, 13]
  s := [9, 15, 5, 11, 6, 8, 13, 12, 5, 12, 13, 14, 11, 8, 5, 6]

def right1 : RmdTables where
  r := [5, 14, 7, 0, 9, 2, 11, 4, 13, 6, 15, 8, 1, 10, 3, 12]
  s := [8, 9, 9, 11, 13, 15, 15, 5, 7, 7, 8, 11, 14, 14, 12, 6]

def right2 : RmdTables where
  r := [6, 11, 3, 7, 0, 13, 5, 10, 14, 15, 8, 12, 4, 9, 1, 2]
  s := [9, 13, 15, 7, 12, 8, 9, 11, 7, 7, 12, 7, 6, 15, 13, 11]

def right3 : RmdTables where
  r := [15, 5, 1, 3, 7, 14, 6, 9, 11, 8, 12, 2, 10, 0, 4, 13]
  s := [9, 7, 15, 11, 8, 6, 6, 14, 12, 13, 5, 14, 13, 13, 7, 5]

def right4 : RmdTables where
  r := [8, 6, 4, 1, 3, 11, 15, 0, 5, 12, 2, 13, 9, 7, 10, 14]
  s := [15, 5, 8, 11, 14, 14, 6, 14, 6, 9, 12, 9, 12, 5, 15, 8]

def right5 : RmdTables where
  r := [12, 15, 10, 4, 1, 5, 8, 7, 6, 2, 13, 14, 0, 3, 9, 11]
  s := [8, 5, 12, 9, 12, 5, 14, 6, 8, 13, 6, 5, 15, 13, 11, 11]

/-- The loop of a round of a line. -/
def rmdRound (f : UInt32 → UInt32 → UInt32 → UInt32) (T : RmdTables) (k : UInt32) (x : List UInt8)
    (s : Vars UInt32) : Vars UInt32 :=
  (List.range' 0 16).foldl
    (fun s i => rmdOp (f s.b s.c s.d) (word32 x (T.r.getD i 0)) k (T.s.getD i 0) s) s

/-- `al = r[0], bl = r[1]` and so on. -/
def rmdVars (r : Vector UInt32 5) : Vars UInt32 :=
  ⟨r[0], r[1], r[2], r[3], r[4]⟩

/-- `_BRRMDCompress` -/
def rmdCompress (r : Vector UInt32 5) (x : List UInt8) : Vector UInt32 5 :=
  let left := rmdVars r
  let right := left
  let left := rmdRound rmdF left1 0x00000000 x left
  let right := rmdRound rmdJ right1 0x50a28be6 x right
  let left := rmdRound rmdG left2 0x5a827999 x left
  let right := rmdRound rmdI right2 0x5c4dd124 x right
  let left := rmdRound rmdH left3 0x6ed9eba1 x left
  let right := rmdRound rmdH right3 0x6d703ef3 x right
  let left := rmdRound rmdI left4 0x8f1bbcdc x left
  let right := rmdRound rmdG right4 0x7a6d76e9 x right
  let left := rmdRound rmdJ left5 0xa953fd4e x left
  let right := rmdRound rmdF right5 0x00000000 x right
  #v[r[1] + left.c + right.d, r[2] + left.d + right.e, r[3] + left.e + right.a,
    r[4] + left.a + right.b, r[0] + left.b + right.c]

/-! ## Rounds -/

/-- The function, the tables and the constant of a round are those of a line. -/
structure RoundOf (L : Line) (j : ℕ) (f : UInt32 → UInt32 → UInt32 → UInt32) (T : RmdTables)
    (k : UInt32) : Prop where
  logical : ∀ x y z, (f x y z).toBitVec = L.logical j x.toBitVec y.toBitVec z.toBitVec
  constant : k.toBitVec = L.constant j
  tables : ∀ i < 16, T.r.getD i 0 = L.order j i ∧ 0 < (T.s.getD i 0).toNat ∧
    (T.s.getD i 0).toNat < 32 ∧ (T.s.getD i 0).toNat = Ripemd160.shift j (T.r.getD i 0)

/-- A loop computes a round. -/
theorem map_rmdRound
    {L : Line} {j : ℕ} {f : UInt32 → UInt32 → UInt32 → UInt32} {T : RmdTables} {k : UInt32}
    (hL : RoundOf L j f T k) {block : List UInt8} {s : Vars UInt32} {s₀ : Vars (BitVec 32)}
    (hs : s.map UInt32.toBitVec = Ripemd160.line L (Ripemd160.messageWord block) s₀ (16 * j)) :
    (rmdRound f T k block s).map UInt32.toBitVec =
      Ripemd160.line L (Ripemd160.messageWord block) s₀ (16 * (j + 1)) := by
  refine BlockHash.foldl_range'_inv (fun t (s : Vars UInt32) => s.map UInt32.toBitVec =
    Ripemd160.line L (Ripemd160.messageWord block) s₀ (16 * j + t)) 16 (fun t s _ hlt h => ?_) hs
  have ht : t < 16 := by omega
  have hround : (16 * j + t) / 16 = j := by omega
  have hturn : (16 * j + t) % 16 = t := by omega
  obtain ⟨horder, hpos, hshort, hshift⟩ := hL.tables t ht
  have hrot := toBitVec_rol32 (s.a + f s.b s.c s.d + word32 block (T.r.getD t 0) + k) hpos hshort
  have h10 := toBitVec_rol32 s.c (b := 10) (by decide) (by decide)
  rw [← Nat.add_assoc, Ripemd160.line, ← h, hround, hturn, ← horder, ← hshift,
    ← hL.constant]
  simp only [rmdOp, Vars.map, Ripemd160.turn, UInt32.toBitVec_add, hrot, h10, hL.logical]
  rfl

theorem roundOf_left1 : RoundOf Ripemd160.left 0 rmdF left1 0x00000000 :=
  ⟨fun _ _ _ => rfl, rfl, by decide⟩

theorem roundOf_left2 : RoundOf Ripemd160.left 1 rmdG left2 0x5a827999 :=
  ⟨fun _ _ _ => rfl, (Ripemd160.left_constant 0 (by decide) (p := 2) rfl
    (n := 0x5a827999) (by norm_num) (by norm_num)).symm, by decide⟩

theorem roundOf_left3 : RoundOf Ripemd160.left 2 rmdH left3 0x6ed9eba1 :=
  ⟨fun _ _ _ => rfl, (Ripemd160.left_constant 1 (by decide) (p := 3) rfl
    (n := 0x6ed9eba1) (by norm_num) (by norm_num)).symm, by decide⟩

theorem roundOf_left4 : RoundOf Ripemd160.left 3 rmdI left4 0x8f1bbcdc :=
  ⟨fun _ _ _ => rfl, (Ripemd160.left_constant 2 (by decide) (p := 5) rfl
    (n := 0x8f1bbcdc) (by norm_num) (by norm_num)).symm, by decide⟩

theorem roundOf_left5 : RoundOf Ripemd160.left 4 rmdJ left5 0xa953fd4e :=
  ⟨fun _ _ _ => rfl, (Ripemd160.left_constant 3 (by decide) (p := 7) rfl
    (n := 0xa953fd4e) (by norm_num) (by norm_num)).symm, by decide⟩

theorem roundOf_right1 : RoundOf Ripemd160.right 0 rmdJ right1 0x50a28be6 :=
  ⟨fun _ _ _ => rfl, (Ripemd160.right_constant 0 (by decide) (p := 2) rfl
    (n := 0x50a28be6) (by norm_num) (by norm_num)).symm, by decide⟩

theorem roundOf_right2 : RoundOf Ripemd160.right 1 rmdI right2 0x5c4dd124 :=
  ⟨fun _ _ _ => rfl, (Ripemd160.right_constant 1 (by decide) (p := 3) rfl
    (n := 0x5c4dd124) (by norm_num) (by norm_num)).symm, by decide⟩

theorem roundOf_right3 : RoundOf Ripemd160.right 2 rmdH right3 0x6d703ef3 :=
  ⟨fun _ _ _ => rfl, (Ripemd160.right_constant 2 (by decide) (p := 5) rfl
    (n := 0x6d703ef3) (by norm_num) (by norm_num)).symm, by decide⟩

theorem roundOf_right4 : RoundOf Ripemd160.right 3 rmdG right4 0x7a6d76e9 :=
  ⟨fun _ _ _ => rfl, (Ripemd160.right_constant 3 (by decide) (p := 7) rfl
    (n := 0x7a6d76e9) (by norm_num) (by norm_num)).symm, by decide⟩

theorem roundOf_right5 : RoundOf Ripemd160.right 4 rmdF right5 0x00000000 :=
  ⟨fun _ _ _ => rfl, rfl, by decide⟩

/-- The compression is that of the standard. -/
theorem map_rmdCompress
    (block : List UInt8) (r : Vector UInt32 5) :
    (rmdVars (rmdCompress r block)).map UInt32.toBitVec =
      Ripemd160.compress ((rmdVars r).map UInt32.toBitVec) block := by
  have hstart (L : Line) : (rmdVars r).map UInt32.toBitVec = Ripemd160.line L
      (Ripemd160.messageWord block) ((rmdVars r).map UInt32.toBitVec) (16 * 0) := rfl
  have hleft := map_rmdRound roundOf_left5 (map_rmdRound roundOf_left4 (map_rmdRound roundOf_left3
    (map_rmdRound roundOf_left2 (map_rmdRound roundOf_left1 (hstart Ripemd160.left)))))
  have hright := map_rmdRound roundOf_right5 (map_rmdRound roundOf_right4
    (map_rmdRound roundOf_right3 (map_rmdRound roundOf_right2 (map_rmdRound roundOf_right1
      (hstart Ripemd160.right)))))
  change _ = Ripemd160.line Ripemd160.left _ _ 80 at hleft
  change _ = Ripemd160.line Ripemd160.right _ _ 80 at hright
  rw [Ripemd160.compress, ← hleft, ← hright]
  rfl

end BreadwalletCore
