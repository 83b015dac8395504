import BreadwalletCore.Crypto.Ripemd
import BreadwalletCore.Crypto.Sha2

/-!
# The hash functions and their standards

The hash functions of `BRCrypto.c` with its own compression functions: what they compute is
SHA-2 and RIPEMD-160.  The compression functions of SHA-1 and MD5 stay parameters.
-/

namespace BreadwalletCore

open LittleEndian

variable {c : Compressions}

/-- The compression functions of `BRCrypto.c`. -/
def Compressions.crypto (c : Compressions) : Compressions :=
  { c with
    sha256 := sha256Compress
    sha512 := sha512Compress
    rmd := rmdCompress }

/-- A loop as a hash of blocks. -/
def HashLoop.blockHash {σ : Type} (h : HashLoop σ) (init : σ) (digest : σ → List UInt8) :
    BlockHash σ where
  size := h.size
  field := h.field
  init := init
  compress := h.compress
  output := digest

/-- `BRSHA256_2` -/
def BRSHA256_2 (c : Compressions) (data : List UInt8) : Except CryptoFault (List UInt8) := do
  let (t, _) ← BRSHA256 c data
  let (md32, _) ← BRSHA256 c t
  .ok md32

/-- `BRHash160` -/
def BRHash160 (c : Compressions) (data : List UInt8) : Except CryptoFault (List UInt8) := do
  let (t, _) ← BRSHA256 c data
  let (md20, _) ← BRRMD160 c t
  .ok md20

/-! ## Digests -/

/-- A function of `BRCrypto.c` computes a hash of blocks, and reads its blocks. -/
def Computes {τ : Type} (H : BlockHash τ) (data : List UInt8)
    (result : Except CryptoFault (List UInt8 × List (List UInt8))) : Prop :=
  result = .ok (H.digest data, H.blocksOf data)

theorem hashDigest_eq
    {σ : Type} (h : HashLoop σ) (init : σ) (digest : σ → List UInt8) {data : List UInt8}
    (hlen : data.length < 2 ^ 64) :
    Computes (h.blockHash init digest) data (hashDigest h init digest data) := by
  obtain ⟨r, hrun, hbuf, hcalls⟩ := @hashBlocks_eq σ h init data hlen
  rw [Computes, hashDigest, hrun, Except.map, hbuf, hcalls]
  rfl

/-- A standard is met if a function between the states goes along. -/
theorem computes_of_map
    {σ τ : Type} {h : HashLoop σ} {init : σ} {digest : σ → List UInt8} {K : BlockHash τ}
    (φ : σ → τ) {data : List UInt8}
    (hlen : data.length < 2 ^ 64)
    (hsize : h.size = K.size)
    (hfield : h.field data.length = K.field data.length)
    (hinit : φ init = K.init)
    (hcompress : ∀ s b, b.length = h.size → φ (h.compress s b) = K.compress (φ s) b)
    (houtput : ∀ s, digest s = K.output (φ s)) :
    Computes K data (hashDigest h init digest data) := by
  obtain ⟨hdigest, hblocks⟩ := BlockHash.digest_eq (H := h.blockHash init digest) φ hsize hfield
    hinit hcompress houtput
  rw [Computes, hashDigest_eq h init digest hlen, hdigest, hblocks]

/-! ## SHA-2 -/

theorem toList_varsOf
    {α : Type} (r : Vector α 8) :
    r.toList = (varsOf r).toList := by
  refine List.ext_getElem (by simp [Sha2.Vars.toList]) fun i hi _ => ?_
  have h8 : i < 8 := by simpa using hi
  rw [Vector.getElem_toList]
  interval_cases i <;> rfl

theorem wordsBE32_varsOf
    (n : ℕ) (r : Vector UInt32 8) :
    wordsBE32 n r = ((((varsOf r).map UInt32.toBitVec).toList.take n).flatMap
      (fun x => reversed (32 / 8) x.toNat)) := by
  rw [wordsBE32, toList_varsOf, Sha2.Vars.toList_map, ← List.map_take, List.flatMap_map]
  rfl

theorem wordsBE64_varsOf
    (n : ℕ) (r : Vector UInt64 8) :
    wordsBE64 n r = ((((varsOf r).map UInt64.toBitVec).toList.take n).flatMap
      (fun x => reversed (64 / 8) x.toNat)) := by
  rw [wordsBE64, toList_varsOf, Sha2.Vars.toList_map, ← List.map_take, List.flatMap_map]
  rfl

theorem computes_sha256
    {data : List UInt8}
    (hlen : data.length < 2 ^ 64) :
    Computes Sha2.sha256 data (BRSHA256 c.crypto data) :=
  computes_of_map (fun r => (varsOf r).map UInt32.toBitVec) hlen rfl (lengthBE32_eq _)
    map_sha256Init (fun r _ hb => map_sha256Compress hb r) (wordsBE32_varsOf 8)

/-- **SHA-2.** The four functions compute SHA-224, SHA-256, SHA-384 and SHA-512, whose
constants are those of the roots of the first primes. -/
theorem sha2_standard
    {data : List UInt8}
    (hlen : data.length < 2 ^ 61) :
    Computes Sha2.sha224 data (BRSHA224 c.crypto data) ∧
      Computes Sha2.sha256 data (BRSHA256 c.crypto data) ∧
      Computes Sha2.sha384 data (BRSHA384 c.crypto data) ∧
      Computes Sha2.sha512 data (BRSHA512 c.crypto data) := by
  have h64 : data.length < 2 ^ 64 := hlen.trans (by norm_num)
  refine ⟨?_, computes_sha256 h64, ?_, ?_⟩
  · exact computes_of_map (fun r => (varsOf r).map UInt32.toBitVec) h64 rfl (lengthBE32_eq _)
      map_sha224Init (fun r _ hb => map_sha256Compress hb r) (wordsBE32_varsOf 7)
  · exact computes_of_map (fun r => (varsOf r).map UInt64.toBitVec) h64 rfl (lengthBE64_eq hlen)
      map_sha384Init (fun r _ hb => map_sha512Compress hb r) (wordsBE64_varsOf 6)
  · exact computes_of_map (fun r => (varsOf r).map UInt64.toBitVec) h64 rfl (lengthBE64_eq hlen)
      map_sha512Init (fun r _ hb => map_sha512Compress hb r) (wordsBE64_varsOf 8)

/-- Three bytes. -/
theorem sha2_standard_three :
    Computes Sha2.sha256 [0x61, 0x62, 0x63]
      (BRSHA256 Compressions.idle.crypto [0x61, 0x62, 0x63]) :=
  (@sha2_standard Compressions.idle [0x61, 0x62, 0x63] (by norm_num)).2.1

/-! ## RIPEMD-160 and hashes of hashes -/

theorem wordsLE32_rmdVars
    (r : Vector UInt32 5) :
    wordsLE32 5 r =
      ((rmdVars r).map UInt32.toBitVec).toList.flatMap (fun x => bytes 4 x.toNat) := by
  have hlist : r.toList.map UInt32.toBitVec = ((rmdVars r).map UInt32.toBitVec).toList := by
    refine List.ext_getElem (by simp [Ripemd160.Vars.toList]) fun i hi _ => ?_
    have h5 : i < 5 := by simpa using hi
    rw [List.getElem_map, Vector.getElem_toList]
    interval_cases i <;> rfl
  rw [wordsLE32, List.take_of_length_le (by simp), ← hlist, List.flatMap_map]
  rfl

theorem computes_ripemd160
    {data : List UInt8}
    (hlen : data.length < 2 ^ 64) :
    Computes Ripemd160.ripemd160 data (BRRMD160 c.crypto data) :=
  computes_of_map (fun r => (rmdVars r).map UInt32.toBitVec) hlen rfl (lengthLE32_eq _) rfl
    (fun r b _ => map_rmdCompress b r) wordsLE32_rmdVars

theorem length_sha256
    (message : List UInt8) :
    (Sha2.sha256.digest message).length = 32 := by
  simp [BlockHash.digest, Sha2.sha256, Sha2.hash, Sha2.Vars.toList]

theorem map_BRSHA256
    {data : List UInt8}
    (hlen : data.length < 2 ^ 64) :
    ∃ blocks, BRSHA256 c.crypto data = .ok (Sha2.sha256.digest data, blocks) :=
  ⟨_, computes_sha256 hlen⟩

/-- **RIPEMD-160 and the hashes of hashes.** `BRRMD160` computes RIPEMD-160, `BRHash160`
RIPEMD-160 of SHA-256, and `BRSHA256_2` SHA-256 of SHA-256. -/
theorem hash160_standard
    {data : List UInt8}
    (hlen : data.length < 2 ^ 64) :
    Computes Ripemd160.ripemd160 data (BRRMD160 c.crypto data) ∧
      BRHash160 c.crypto data = .ok (Ripemd160.ripemd160.digest (Sha2.sha256.digest data)) ∧
      BRSHA256_2 c.crypto data = .ok (Sha2.sha256.digest (Sha2.sha256.digest data)) := by
  have hshort : (Sha2.sha256.digest data).length < 2 ^ 64 := by
    rw [length_sha256]
    norm_num
  obtain ⟨_, hfirst⟩ := map_BRSHA256 hlen
  obtain ⟨_, hsecond⟩ := map_BRSHA256 hshort
  refine ⟨computes_ripemd160 hlen, ?_, ?_⟩
  · rw [BRHash160, hfirst, Machine.ok_bind]
    dsimp only
    rw [computes_ripemd160 hshort, Machine.ok_bind]
  · rw [BRSHA256_2, hfirst, Machine.ok_bind]
    dsimp only
    rw [hsecond, Machine.ok_bind]

/-- Three bytes. -/
theorem hash160_standard_three :
    BRHash160 Compressions.idle.crypto [0x61, 0x62, 0x63] =
      .ok (Ripemd160.ripemd160.digest (Sha2.sha256.digest [0x61, 0x62, 0x63])) :=
  (@hash160_standard Compressions.idle [0x61, 0x62, 0x63] (by norm_num)).2.1

/-- SHA-256 of the three bytes, whose padded message is one block. -/
example :
    wordsBE32 8 (sha256Compress sha256Init ([0x61, 0x62, 0x63, 0x80] ++ List.replicate 52 0 ++
      [0, 0, 0, 0, 0, 0, 0, 0x18])) =
    [0xba, 0x78, 0x16, 0xbf, 0x8f, 0x01, 0xcf, 0xea, 0x41, 0x41, 0x40, 0xde, 0x5d, 0xae, 0x22, 0x23,
      0xb0, 0x03, 0x61, 0xa3, 0x96, 0x17, 0x7a, 0x9c, 0xb4, 0x10, 0xff, 0x61, 0xf2, 0x00, 0x15,
      0xad] := by
  decide +kernel

end BreadwalletCore
