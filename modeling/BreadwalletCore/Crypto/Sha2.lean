import BreadwalletCore.Crypto.Hash
import BreadwalletCore.Crypto.Words

/-!
# The compression of SHA-2

`_BRSHA256Compress` and `_BRSHA512Compress` of `BRCrypto.c`.  The macros `ch` and `maj` and
the loops are those of both, so the code is written once, for words of any type with the
operators of C.

An array that is filled from its front is a list that grows.
-/

namespace BreadwalletCore

open LittleEndian RootConstants
open Sha2 (Vars Variant)

/-- The macros on words of one size, and the table. -/
structure ShaMacros (α : Type) where
  s0 : α → α
  s1 : α → α
  s2 : α → α
  s3 : α → α
  k : List α

section Compress

variable {α : Type} [Zero α] [Add α] [AndOp α] [XorOp α] [Complement α]

def ch (x y z : α) : α :=
  (x &&& y) ^^^ (~~~x &&& z)

def maj (x y z : α) : α :=
  (x &&& y) ^^^ (x &&& z) ^^^ (y &&& z)

variable (S : ShaMacros α)

/-- A turn of the loop that fills `w`. -/
def expandTurn (w : List α) : List α :=
  let i := w.length
  w ++ [S.s3 (w.getD (i - 2) 0) + w.getD (i - 7) 0 + S.s2 (w.getD (i - 15) 0) + w.getD (i - 16) 0]

/-- A turn of the loop over `k` and `w`. -/
def roundTurn (w : List α) (s : Vars α) (i : ℕ) : Vars α :=
  let t1 := s.h + S.s1 s.e + ch s.e s.f s.g + S.k.getD i 0 + w.getD i 0
  let t2 := S.s0 s.a + maj s.a s.b s.c
  { h := s.g, g := s.f, f := s.e, e := s.d + t1, d := s.c, c := s.b, b := s.a, a := t1 + t2 }

/-- `a = r[0], b = r[1]` and so on. -/
def varsOf (r : Vector α 8) : Vars α :=
  ⟨r[0], r[1], r[2], r[3], r[4], r[5], r[6], r[7]⟩

/-- The compression with `n` turns, for the first sixteen words of `w`. -/
def shaCompress (n : ℕ) (r : Vector α 8) (x : List α) : Vector α 8 :=
  let w := (expandTurn S)^[n - 16] x
  let s := (List.range n).foldl (roundTurn S w) (varsOf r)
  #v[r[0] + s.a, r[1] + s.b, r[2] + s.c, r[3] + s.d, r[4] + s.e, r[5] + s.f, r[6] + s.g, r[7] + s.h]

end Compress

def sha256Macros : ShaMacros UInt32 where
  s0 := fun x => ror32 x 2 ^^^ ror32 x 13 ^^^ ror32 x 22
  s1 := fun x => ror32 x 6 ^^^ ror32 x 11 ^^^ ror32 x 25
  s2 := fun x => ror32 x 7 ^^^ ror32 x 18 ^^^ (x >>> 3)
  s3 := fun x => ror32 x 17 ^^^ ror32 x 19 ^^^ (x >>> 10)
  k :=
    [0x428a2f98, 0x71374491, 0xb5c0fbcf, 0xe9b5dba5, 0x3956c25b, 0x59f111f1, 0x923f82a4, 0xab1c5ed5,
      0xd807aa98, 0x12835b01, 0x243185be, 0x550c7dc3, 0x72be5d74, 0x80deb1fe, 0x9bdc06a7, 0xc19bf174,
      0xe49b69c1, 0xefbe4786, 0x0fc19dc6, 0x240ca1cc, 0x2de92c6f, 0x4a7484aa, 0x5cb0a9dc, 0x76f988da,
      0x983e5152, 0xa831c66d, 0xb00327c8, 0xbf597fc7, 0xc6e00bf3, 0xd5a79147, 0x06ca6351, 0x14292967,
      0x27b70a85, 0x2e1b2138, 0x4d2c6dfc, 0x53380d13, 0x650a7354, 0x766a0abb, 0x81c2c92e, 0x92722c85,
      0xa2bfe8a1, 0xa81a664b, 0xc24b8b70, 0xc76c51a3, 0xd192e819, 0xd6990624, 0xf40e3585, 0x106aa070,
      0x19a4c116, 0x1e376c08, 0x2748774c, 0x34b0bcb5, 0x391c0cb3, 0x4ed8aa4a, 0x5b9cca4f, 0x682e6ff3,
      0x748f82ee, 0x78a5636f, 0x84c87814, 0x8cc70208, 0x90befffa, 0xa4506ceb, 0xbef9a3f7, 0xc67178f2]

def sha512Macros : ShaMacros UInt64 where
  s0 := fun x => ror64 x 28 ^^^ ror64 x 34 ^^^ ror64 x 39
  s1 := fun x => ror64 x 14 ^^^ ror64 x 18 ^^^ ror64 x 41
  s2 := fun x => ror64 x 1 ^^^ ror64 x 8 ^^^ (x >>> 7)
  s3 := fun x => ror64 x 19 ^^^ ror64 x 61 ^^^ (x >>> 6)
  k :=
    [0x428a2f98d728ae22, 0x7137449123ef65cd, 0xb5c0fbcfec4d3b2f, 0xe9b5dba58189dbbc, 0x3956c25bf348b538,
      0x59f111f1b605d019, 0x923f82a4af194f9b, 0xab1c5ed5da6d8118, 0xd807aa98a3030242, 0x12835b0145706fbe,
      0x243185be4ee4b28c, 0x550c7dc3d5ffb4e2, 0x72be5d74f27b896f, 0x80deb1fe3b1696b1, 0x9bdc06a725c71235,
      0xc19bf174cf692694, 0xe49b69c19ef14ad2, 0xefbe4786384f25e3, 0x0fc19dc68b8cd5b5, 0x240ca1cc77ac9c65,
      0x2de92c6f592b0275, 0x4a7484aa6ea6e483, 0x5cb0a9dcbd41fbd4, 0x76f988da831153b5, 0x983e5152ee66dfab,
      0xa831c66d2db43210, 0xb00327c898fb213f, 0xbf597fc7beef0ee4, 0xc6e00bf33da88fc2, 0xd5a79147930aa725,
      0x06ca6351e003826f, 0x142929670a0e6e70, 0x27b70a8546d22ffc, 0x2e1b21385c26c926, 0x4d2c6dfc5ac42aed,
      0x53380d139d95b3df, 0x650a73548baf63de, 0x766a0abb3c77b2a8, 0x81c2c92e47edaee6, 0x92722c851482353b,
      0xa2bfe8a14cf10364, 0xa81a664bbc423001, 0xc24b8b70d0f89791, 0xc76c51a30654be30, 0xd192e819d6ef5218,
      0xd69906245565a910, 0xf40e35855771202a, 0x106aa07032bbd1b8, 0x19a4c116b8d2d0c8, 0x1e376c085141ab53,
      0x2748774cdf8eeb99, 0x34b0bcb5e19b48a8, 0x391c0cb3c5c95a63, 0x4ed8aa4ae3418acb, 0x5b9cca4f7763e373,
      0x682e6ff3d6b2b8a3, 0x748f82ee5defb2fc, 0x78a5636f43172f60, 0x84c87814a1f0ab72, 0x8cc702081a6439ec,
      0x90befffa23631e28, 0xa4506cebde82bde9, 0xbef9a3f7b2c67915, 0xc67178f2e372532b, 0xca273eceea26619c,
      0xd186b8c721c0c207, 0xeada7dd6cde0eb1e, 0xf57d4f7fee6ed178, 0x06f067aa72176fba, 0x0a637dc5a2c898a6,
      0x113f9804bef90dae, 0x1b710b35131c471b, 0x28db77f523047d84, 0x32caab7b40c72493, 0x3c9ebe0a15c9bebc,
      0x431d67c49c100d4c, 0x4cc5d4becb3e42b6, 0x597f299cfc657e2a, 0x5fcb6fab3ad6faec, 0x6c44198c4a475817]

/-- `_BRSHA256Compress` -/
def sha256Compress (r : Vector UInt32 8) (x : List UInt8) : Vector UInt32 8 :=
  shaCompress sha256Macros 64 r ((List.range 16).map (fun i => be32 (word32 x i)))

/-- `_BRSHA512Compress` -/
def sha512Compress (r : Vector UInt64 8) (x : List UInt8) : Vector UInt64 8 :=
  shaCompress sha512Macros 80 r ((List.range 16).map (fun i => be64 (word64 x i)))

/-! ## Loops and recurrences -/

section Loops

variable {α : Type} [Zero α] [Add α] [AndOp α] [XorOp α] [Complement α]
variable {w : ℕ} {φ : α → BitVec w} {S : ShaMacros α} {v : Variant w}

/-- The macros and the table are those of the standard. -/
structure Realizes (φ : α → BitVec w) (S : ShaMacros α) (v : Variant w) : Prop where
  words : WordMap φ
  s0 : ∀ x, φ (S.s0 x) = v.bigSigma0 (φ x)
  s1 : ∀ x, φ (S.s1 x) = v.bigSigma1 (φ x)
  s2 : ∀ x, φ (S.s2 x) = v.sigma0 (φ x)
  s3 : ∀ x, φ (S.s3 x) = v.sigma1 (φ x)
  k : ∀ t < v.turns, φ (S.k.getD t 0) = Sha2.roundConstant w t

/-- The loop that fills `w` computes the message schedule. -/
theorem expandTurn_iterate
    (hS : Realizes φ S v) {x : List α} {m : ℕ → BitVec w}
    (hlen : x.length = 16)
    (hx : ∀ t < 16, φ (x.getD t 0) = m t) (n : ℕ) :
    ((expandTurn S)^[n] x).length = 16 + n ∧
      ∀ t < 16 + n, φ (((expandTurn S)^[n] x).getD t 0) = Sha2.schedule v m t := by
  induction n with
  | zero =>
      refine ⟨hlen, fun t ht => ?_⟩
      rw [Sha2.schedule_lt ht]
      exact hx t ht
  | succ n ih =>
      obtain ⟨hcount, hw⟩ := ih
      rw [Function.iterate_succ_apply']
      refine ⟨by rw [expandTurn, List.length_append, hcount]; rfl, fun t ht => ?_⟩
      rw [expandTurn, hcount]
      by_cases hold : t < 16 + n
      · rw [List.getD_append _ _ _ _ (by omega), hw t hold]
      · have hlast : t = 16 + n := by omega
        subst hlast
        rw [List.getD_append_right _ _ _ _ (by omega), hcount, Nat.sub_self, List.getD_cons_zero,
          Sha2.schedule_ge (Nat.le_add_right 16 n), hS.words.add, hS.words.add, hS.words.add, hS.s3,
          hS.s2, hw (16 + n - 2) (by omega), hw (16 + n - 7) (by omega), hw (16 + n - 15) (by omega),
          hw (16 + n - 16) (by omega)]

/-- A turn of the loop over `k` and `w` is a turn of the standard. -/
theorem map_roundTurn
    (hS : Realizes φ S v) {l : List α} {m : ℕ → BitVec w} {t : ℕ}
    (ht : t < v.turns)
    (hl : φ (l.getD t 0) = Sha2.schedule v m t) (s : Vars α) :
    (roundTurn S l s t).map φ =
      Sha2.turn v (Sha2.roundConstant w t) (Sha2.schedule v m t) (s.map φ) := by
  have hch : φ (ch s.e s.f s.g) = Sha2.choose (φ s.e) (φ s.f) (φ s.g) := by
    rw [ch, hS.words.xor, hS.words.and, hS.words.and, hS.words.compl, Sha2.choose]
  have hmaj : φ (maj s.a s.b s.c) = Sha2.majority (φ s.a) (φ s.b) (φ s.c) := by
    rw [maj, hS.words.xor, hS.words.xor, hS.words.and, hS.words.and, hS.words.and, Sha2.majority]
  simp only [roundTurn, Vars.map, Sha2.turn, hS.words.add, hS.s0, hS.s1, hch, hmaj, hl, hS.k t ht]

/-- The loop computes the rounds. -/
theorem map_foldl_roundTurn
    (hS : Realizes φ S v) {l : List α} {m : ℕ → BitVec w} {n : ℕ}
    (hn : n ≤ v.turns)
    (hl : ∀ t < n, φ (l.getD t 0) = Sha2.schedule v m t) (s : Vars α) :
    ((List.range n).foldl (roundTurn S l) s).map φ = Sha2.rounds v m (s.map φ) n := by
  induction n with
  | zero =>
      rfl
  | succ n ih =>
      rw [List.range_succ, List.foldl_append, List.foldl_cons, List.foldl_nil,
        map_roundTurn hS hn (hl n (Nat.lt_succ_self n)),
        ih (Nat.le_of_succ_le hn) fun t ht => hl t (Nat.lt_succ_of_lt ht), Sha2.rounds]

/-- The compression is that of the standard. -/
theorem map_shaCompress
    (hS : Realizes φ S v) {block : List UInt8} {f : ℕ → α}
    (hturns : 16 ≤ v.turns)
    (hf : ∀ t < 16, φ (f t) = Sha2.messageWord w block t) (r : Vector α 8) :
    (varsOf (shaCompress S v.turns r ((List.range 16).map f))).map φ =
      Sha2.compress v ((varsOf r).map φ) block := by
  have hx : ∀ t < 16, φ (((List.range 16).map f).getD t 0) = Sha2.messageWord w block t := by
    intro t ht
    rw [List.getD_eq_getElem _ _ (by simpa using ht), List.getElem_map, List.getElem_range, hf t ht]
  obtain ⟨hcount, hw⟩ := expandTurn_iterate hS (by simp) hx (v.turns - 16)
  have hrounds := map_foldl_roundTurn hS le_rfl (fun t ht => hw t (by omega)) (varsOf r)
  rw [Sha2.compress, ← hrounds]
  simp only [varsOf, shaCompress, Vars.map, Vars.add, hS.words.add, Vector.getElem_mk,
    List.getElem_toArray, List.getElem_cons_zero, List.getElem_cons_succ]
  exact Vars.ext (BitVec.add_comm _ _) (BitVec.add_comm _ _) (BitVec.add_comm _ _)
    (BitVec.add_comm _ _) (BitVec.add_comm _ _) (BitVec.add_comm _ _) (BitVec.add_comm _ _)
    (BitVec.add_comm _ _)

end Loops

/-! ## The standard -/

/-- The tables are bits of cube roots. -/
theorem isFraction_k256 :
    ∀ t < 64, IsFraction 3 (primes.getD t 0) 32 (sha256Macros.k.getD t 0).toNat := by
  decide +kernel

theorem isFraction_k512 :
    ∀ t < 80, IsFraction 3 (primes.getD t 0) 64 (sha512Macros.k.getD t 0).toNat := by
  decide +kernel

theorem realizes256 : Realizes UInt32.toBitVec sha256Macros Sha2.variant32 where
  words := wordMap32
  s0 := fun x => by
    simp (disch := decide) only [sha256Macros, UInt32.toBitVec_xor, toBitVec_ror32]
    rfl
  s1 := fun x => by
    simp (disch := decide) only [sha256Macros, UInt32.toBitVec_xor, toBitVec_ror32]
    rfl
  s2 := fun x => by
    simp (disch := decide) only [sha256Macros, UInt32.toBitVec_xor, toBitVec_ror32]
    rfl
  s3 := fun x => by
    simp (disch := decide) only [sha256Macros, UInt32.toBitVec_xor, toBitVec_ror32]
    rfl
  k := fun t ht => by
    have hlt := (sha256Macros.k.getD t 0).toBitVec.isLt
    exact (Sha2.ofNat_rootBits (by decide) (ht.trans_le (by decide)) (isFraction_k256 t ht) le_rfl
      (Nat.mod_eq_of_lt hlt).symm).symm

theorem realizes512 : Realizes UInt64.toBitVec sha512Macros Sha2.variant64 where
  words := wordMap64
  s0 := fun x => by
    simp (disch := decide) only [sha512Macros, UInt64.toBitVec_xor, toBitVec_ror64]
    rfl
  s1 := fun x => by
    simp (disch := decide) only [sha512Macros, UInt64.toBitVec_xor, toBitVec_ror64]
    rfl
  s2 := fun x => by
    simp (disch := decide) only [sha512Macros, UInt64.toBitVec_xor, toBitVec_ror64]
    rfl
  s3 := fun x => by
    simp (disch := decide) only [sha512Macros, UInt64.toBitVec_xor, toBitVec_ror64]
    rfl
  k := fun t ht => by
    have hlt := (sha512Macros.k.getD t 0).toBitVec.isLt
    exact (Sha2.ofNat_rootBits (by decide) (ht.trans_le (by decide)) (isFraction_k512 t ht) le_rfl
      (Nat.mod_eq_of_lt hlt).symm).symm

theorem map_sha256Compress
    {block : List UInt8}
    (hblock : block.length = 64) (r : Vector UInt32 8) :
    (varsOf (sha256Compress r block)).map UInt32.toBitVec =
      Sha2.compress Sha2.variant32 ((varsOf r).map UInt32.toBitVec) block :=
  map_shaCompress realizes256 (by decide) (fun _ _ => toBitVec_be32 (by omega)) r

theorem map_sha512Compress
    {block : List UInt8}
    (hblock : block.length = 128) (r : Vector UInt64 8) :
    (varsOf (sha512Compress r block)).map UInt64.toBitVec =
      Sha2.compress Sha2.variant64 ((varsOf r).map UInt64.toBitVec) block :=
  map_shaCompress realizes512 (by decide) (fun _ _ => toBitVec_be64 (by omega)) r

/-! ## The first values -/

/-- They are bits of square roots. -/
theorem isFraction_init :
    ∀ t < 8, IsFraction 2 (primes.getD t 0) 32 (sha256Init.toList.getD t 0).toNat ∧
      IsFraction 2 (primes.getD t 0) 64 (sha512Init.toList.getD t 0).toNat ∧
      IsFraction 2 (primes.getD (t + 8) 0) 64 (sha384Init.toList.getD t 0).toNat ∧
      (sha224Init.toList.getD t 0).toNat = (sha384Init.toList.getD t 0).toNat % 2 ^ 32 := by
  decide +kernel

/-- A hash value is compared word by word. -/
theorem map_varsOf
    {α : Type} [Zero α] {w : ℕ} {φ : α → BitVec w} {r : Vector α 8} {f : ℕ → BitVec w}
    (h : ∀ t < 8, φ (r.toList.getD t 0) = f t) :
    (varsOf r).map φ = Vars.ofFn f := by
  have hget (t : ℕ) (ht : t < 8) : φ r[t] = f t := by
    rw [← h t ht, List.getD_eq_getElem _ _ (by simpa using ht), Vector.getElem_toList]
  simp only [varsOf, Vars.ofFn, Vars.map]
  refine Vars.ext ?_ ?_ ?_ ?_ ?_ ?_ ?_ ?_
  all_goals exact hget _ (by decide)

theorem map_sha256Init :
    (varsOf sha256Init).map UInt32.toBitVec = Vars.ofFn (Sha2.squareRoot 32 32) := by
  refine map_varsOf fun t ht => ?_
  have hlt := (sha256Init.toList.getD t 0).toBitVec.isLt
  exact (Sha2.ofNat_rootBits (by decide) (lt_trans ht (by decide)) (isFraction_init t ht).1 le_rfl
    (Nat.mod_eq_of_lt hlt).symm).symm

theorem map_sha224Init :
    (varsOf sha224Init).map UInt32.toBitVec =
      Vars.ofFn (fun t => Sha2.squareRoot 32 64 (t + 8)) := by
  refine map_varsOf fun t ht => ?_
  have h8 : t + 8 < primes.length := (Nat.add_lt_add_right ht 8).trans (by decide)
  exact (Sha2.ofNat_rootBits (by decide) h8 (isFraction_init t ht).2.2.1 (by decide)
    (isFraction_init t ht).2.2.2).symm

theorem map_sha512Init :
    (varsOf sha512Init).map UInt64.toBitVec = Vars.ofFn (Sha2.squareRoot 64 64) := by
  refine map_varsOf fun t ht => ?_
  have hlt := (sha512Init.toList.getD t 0).toBitVec.isLt
  exact (Sha2.ofNat_rootBits (by decide) (lt_trans ht (by decide)) (isFraction_init t ht).2.1 le_rfl
    (Nat.mod_eq_of_lt hlt).symm).symm

theorem map_sha384Init :
    (varsOf sha384Init).map UInt64.toBitVec =
      Vars.ofFn (fun t => Sha2.squareRoot 64 64 (t + 8)) := by
  refine map_varsOf fun t ht => ?_
  have hlt := (sha384Init.toList.getD t 0).toBitVec.isLt
  have h8 : t + 8 < primes.length := (Nat.add_lt_add_right ht 8).trans (by decide)
  exact (Sha2.ofNat_rootBits (by decide) h8 (isFraction_init t ht).2.2.1 le_rfl
    (Nat.mod_eq_of_lt hlt).symm).symm

end BreadwalletCore
