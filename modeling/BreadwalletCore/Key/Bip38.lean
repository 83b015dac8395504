import BreadwalletCore.Crypto.Aes
import BreadwalletCore.Key.Bip32
import BreadwalletCore.MerkleBlock.Codec

/-!
# Private keys with a passphrase

`BRKeyBIP38Key` and `BRKeySetBIP38Key`.  A secret is xored with one half of what
scrypt derives from the passphrase and enciphered with the other half; the hash
of its address is the salt, and tells whether a passphrase was the right one.
-/

namespace BreadwalletCore

open Segment (slice)

/-- `secp256k1_ec_privkey_tweak_mul`: the secret afterwards, and whether it
returns true. -/
def Secp256k1.privkeyTweakMul {P : Type} [AddCommGroup P] (curve : Secp256k1 P)
    (secret tweak : UInt256) : UInt256 × Bool :=
  if scalarValue tweak < curve.order ∧ scalarValue tweak ≠ 0 then
    (scalarBytes (scalarValue secret * scalarValue tweak % curve.order), true)
  else (0, false)

/-- `BRSecp256k1ModMul`. -/
def Secp256k1.BRSecp256k1ModMul {P : Type} [AddCommGroup P] (curve : Secp256k1 P)
    (a b : UInt256) : UInt256 × Bool :=
  curve.privkeyTweakMul a b

/-- What BIP38 uses.  `scrypt` has the arguments of `BRScrypt`, and `address` is
the string that `BRKeyAddress` writes for a secret, in either format of the
public key.  The last two are what `secret` and `passpoint` of
`BRKeySetBIP38Key` hold before they are set. -/
structure Bip38Env where
  scrypt : (dkLen : ℕ) → (pw salt : List UInt8) → (n r p : ℕ) → List UInt8
  sha256d : List UInt8 → UInt256
  address : UInt256 → Bool → List UInt8
  secret : UInt256
  passpoint : List UInt8
  length_scrypt : ∀ dkLen pw salt n r p, (scrypt dkLen pw salt n r p).length = dkLen

namespace Bip38

variable {P : Type} [AddCommGroup P] (curve : Secp256k1 P) (env : Bip38Env)

/-- `BIP38_NOEC_FLAG`. -/
def noecFlag : UInt8 := 0x80 ||| 0x40

/-- `BIP38_COMPRESSED_FLAG`. -/
def compressedFlag : UInt8 := 0x20

/-- `BIP38_LOTSEQUENCE_FLAG`. -/
def lotsequenceFlag : UInt8 := 0x04

/-- Words xored one by one. -/
def xorBytes (a b : List UInt8) : List UInt8 :=
  List.zipWith (· ^^^ ·) a b

/-- Bytes read as a `UInt256`. -/
def readSecret (l : List UInt8) : UInt256 :=
  BitVec.ofNat 256 (LittleEndian.value l)

/-- `_BRBIP38DerivePassfactor`. -/
def derivePassfactor (flag : UInt8) (entropy passphrase : List UInt8) : UInt256 :=
  let lot := flag &&& lotsequenceFlag ≠ 0
  let prefactor := env.scrypt 32 passphrase (entropy.take (if lot then 4 else 8)) 16384 8 8
  if lot then env.sha256d (prefactor ++ entropy) else readSecret prefactor

/-- `_BRBIP38DeriveKey`. -/
def deriveKey (passpoint addresshash entropy : List UInt8) : List UInt8 :=
  env.scrypt 64 passpoint (addresshash ++ entropy) 1024 1 1

/-- The secret of a key that is not EC multiplied: prefix, flag, addresshash,
encrypted1 and encrypted2. -/
def noecSecret (data passphrase : List UInt8) : UInt256 :=
  let derived := env.scrypt 64 passphrase (slice data 3 4) 16384 8 8
  let derived1 := derived.take 32
  let derived2 := derived.drop 32
  let encrypted1 := AES.BRAES256ECBDecrypt derived2 (slice data 7 16)
  let encrypted2 := AES.BRAES256ECBDecrypt derived2 (slice data 23 16)
  readSecret (xorBytes encrypted1 (derived1.take 16) ++ xorBytes encrypted2 (derived1.drop 16))

/-- The secret of an EC multiplied key: prefix, flag, addresshash, entropy,
the first half of encrypted1, and encrypted2. -/
def ecSecret (data passphrase : List UInt8) : UInt256 :=
  let entropy := slice data 7 8
  let passfactor := derivePassfactor env (data.getD 2 0) entropy passphrase
  let passpoint := (curve.BRSecp256k1PointGen passfactor).getD env.passpoint
  let derived := deriveKey env passpoint (slice data 3 4) entropy
  let derived1 := derived.take 32
  let derived2 := derived.drop 32
  let encrypted2 := xorBytes (AES.BRAES256ECBDecrypt derived2 (slice data 23 16))
    (derived1.drop 16)
  let encrypted1 := AES.BRAES256ECBDecrypt derived2 (slice data 15 8 ++ encrypted2.take 8)
  let seedb := xorBytes encrypted1 (derived1.take 16) ++ encrypted2.drop 8
  (curve.BRSecp256k1ModMul passfactor (env.sha256d seedb)).1

/-- `BRKeySetBIP38Key`: the key afterwards, and the value returned. -/
def BRKeySetBIP38Key (key : BRKey) (bip38Key passphrase : List UInt8) : BRKey × Bool :=
  let data := Base58.BRBase58CheckDecode env.sha256d bip38Key
  if data.length ≠ 39 then (key, false)
  else
    let start := (data.getD 0 0).toNat * 256 + (data.getD 1 0).toNat
    let compressed := decide (data.getD 2 0 &&& compressedFlag ≠ 0)
    let secret :=
      if start = 0x0142 then noecSecret env data passphrase
      else if start = 0x0143 then ecSecret curve env data passphrase
      else env.secret
    let address := env.address secret compressed
    ((BRKey.setSecret curve secret compressed).1,
      decide (¬(address = [] ∨ (hashBytes (env.sha256d address)).take 4 ≠ slice data 3 4)))

/-- `BRKeyBIP38Key`: the string with its NUL. -/
def BRKeyBIP38Key (key : BRKey) (passphrase : List UInt8) : List UInt8 :=
  let flag := if key.compressed then noecFlag ||| compressedFlag else noecFlag
  let salt := (hashBytes (env.sha256d (env.address key.secret key.compressed))).take 4
  let derived := env.scrypt 64 passphrase salt 16384 8 8
  let derived1 := derived.take 32
  let derived2 := derived.drop 32
  let secret := hashBytes key.secret
  let encrypted1 := AES.BRAES256ECBEncrypt derived2 (xorBytes (secret.take 16) (derived1.take 16))
  let encrypted2 := AES.BRAES256ECBEncrypt derived2 (xorBytes (secret.drop 16) (derived1.drop 16))
  Base58.BRBase58CheckEncode env.sha256d
    ([0x01, 0x42, flag] ++ salt ++ encrypted1 ++ encrypted2)

/-! ## There and back -/

theorem xorBytes_xorBytes
    {a b : List UInt8}
    (h : a.length ≤ b.length) :
    xorBytes (xorBytes a b) b = a := by
  induction a generalizing b with
  | nil =>
      rfl
  | cons x a ih =>
      cases b with
      | nil =>
          rw [List.length_nil, List.length_cons] at h
          omega
      | cons y b =>
          rw [List.length_cons, List.length_cons] at h
          have hrest := ih (b := b) (by omega)
          rw [xorBytes, xorBytes] at hrest
          rw [xorBytes, xorBytes, List.zipWith_cons_cons, List.zipWith_cons_cons,
            AES.xor_cancel_right, hrest]

theorem length_xorBytes
    {a b : List UInt8}
    (h : a.length ≤ b.length) :
    (xorBytes a b).length = a.length := by
  rw [xorBytes, List.length_zipWith, Nat.min_eq_left h]

/-- One half of a secret, there and back. -/
theorem decrypt_half
    (key32 : List UInt8) {a b : List UInt8}
    (ha : a.length = 16)
    (hb : b.length = 16) :
    xorBytes (AES.BRAES256ECBDecrypt key32 (AES.BRAES256ECBEncrypt key32 (xorBytes a b))) b = a := by
  rw [AES.BRAES256ECBDecrypt_encrypt key32 (by rw [length_xorBytes (by omega), ha]),
    xorBytes_xorBytes (by omega)]

/-- The bytes that are encoded, part by part. -/
theorem slices_data
    (flag : UInt8) {salt e₁ e₂ : List UInt8}
    (hsalt : salt.length = 4)
    (h₁ : e₁.length = 16)
    (h₂ : e₂.length = 16) :
    let data := [0x01, 0x42, flag] ++ salt ++ e₁ ++ e₂
    data.length = 39 ∧ slice data 3 4 = salt ∧ slice data 7 16 = e₁ ∧ slice data 23 16 = e₂ := by
  intro data
  refine ⟨?_, ?_, ?_, ?_⟩
  · simp only [data, List.length_append, List.length_cons, List.length_nil, hsalt, h₁, h₂]
  · simp only [data, slice, List.append_assoc]
    exact List.take_left' hsalt
  · simp only [data, slice]
    rw [List.append_assoc, List.drop_left' (by simp [hsalt]), List.take_left' h₁]
  · simp only [data, slice]
    rw [List.drop_left' (by simp [hsalt, h₁]), List.take_of_length_le h₂.le]

theorem noecSecret_data
    (flag : UInt8) {secret : UInt256} {salt e₁ e₂ passphrase : List UInt8}
    (hsalt : salt.length = 4)
    (he₁ : e₁ = AES.BRAES256ECBEncrypt ((env.scrypt 64 passphrase salt 16384 8 8).drop 32)
      (xorBytes ((hashBytes secret).take 16)
        (((env.scrypt 64 passphrase salt 16384 8 8).take 32).take 16)))
    (he₂ : e₂ = AES.BRAES256ECBEncrypt ((env.scrypt 64 passphrase salt 16384 8 8).drop 32)
      (xorBytes ((hashBytes secret).drop 16)
        (((env.scrypt 64 passphrase salt 16384 8 8).take 32).drop 16))) :
    noecSecret env ([0x01, 0x42, flag] ++ salt ++ e₁ ++ e₂) passphrase = secret := by
  have hlen := env.length_scrypt 64 passphrase salt 16384 8 8
  have hderived : ((env.scrypt 64 passphrase salt 16384 8 8).take 32).length = 32 := by
    rw [List.length_take, hlen]
    rfl
  have hsecret : (hashBytes secret).length = 32 := length_hashBytes secret
  have h₁ : e₁.length = 16 := by rw [he₁, AES.length_BRAES256ECBEncrypt]
  have h₂ : e₂.length = 16 := by rw [he₂, AES.length_BRAES256ECBEncrypt]
  obtain ⟨-, hs, hs₁, hs₂⟩ := slices_data flag hsalt h₁ h₂
  rw [noecSecret, hs, hs₁, hs₂, he₁, he₂]
  rw [decrypt_half, decrypt_half, List.take_append_drop, readSecret,
    RawMerkleBlock.ofNat_value_hashBytes]
  · rw [List.length_drop, hsecret]
  · rw [List.length_drop, hderived]
  · rw [List.length_take, hsecret]
    rfl
  · rw [List.length_take, hderived]
    rfl

/-- Flags keep whether a key is compressed. -/
theorem compressed_flag
    (compressed : Bool) :
    decide ((if compressed then noecFlag ||| compressedFlag else noecFlag) &&& compressedFlag ≠ 0) =
      compressed := by
  cases compressed <;> decide

/-- **Round trip.**  A key is what is read, with the same passphrase, from what
is written for it; the cipher is undone with every key. -/
theorem bip38_roundTrip
    (haddress : ∀ secret compressed, curve.seckeyVerify secret = true →
      env.address secret compressed ≠ [])
    (key : BRKey)
    (hkey : curve.seckeyVerify key.secret = true)
    (key' : BRKey) (passphrase : List UInt8) :
    (∃ bip38Key, BRKeyBIP38Key env key passphrase = bip38Key ++ [0] ∧
      (BRKeySetBIP38Key curve env key' bip38Key passphrase).2 = true ∧
      (BRKeySetBIP38Key curve env key' bip38Key passphrase).1.secret = key.secret ∧
      (BRKeySetBIP38Key curve env key' bip38Key passphrase).1.compressed = key.compressed) ∧
    ∀ key32 buf16 : List UInt8, key32.length = 32 → buf16.length = 16 →
      AES.BRAES256ECBDecrypt key32 (AES.BRAES256ECBEncrypt key32 buf16) = buf16 := by
  refine ⟨?_, fun key32 buf16 _ hbuf => AES.BRAES256ECBDecrypt_encrypt key32 hbuf⟩
  obtain ⟨flag, hflag⟩ : ∃ flag,
      (if key.compressed then noecFlag ||| compressedFlag else noecFlag) = flag := ⟨_, rfl⟩
  obtain ⟨salt, hsalt⟩ : ∃ salt,
      (hashBytes (env.sha256d (env.address key.secret key.compressed))).take 4 = salt := ⟨_, rfl⟩
  obtain ⟨e₁, he₁⟩ : ∃ e₁, e₁ = AES.BRAES256ECBEncrypt
      ((env.scrypt 64 passphrase salt 16384 8 8).drop 32)
      (xorBytes ((hashBytes key.secret).take 16)
        (((env.scrypt 64 passphrase salt 16384 8 8).take 32).take 16)) := ⟨_, rfl⟩
  obtain ⟨e₂, he₂⟩ : ∃ e₂, e₂ = AES.BRAES256ECBEncrypt
      ((env.scrypt 64 passphrase salt 16384 8 8).drop 32)
      (xorBytes ((hashBytes key.secret).drop 16)
        (((env.scrypt 64 passphrase salt 16384 8 8).take 32).drop 16)) := ⟨_, rfl⟩
  have hlen : salt.length = 4 := by
    rw [← hsalt, List.length_take, length_hashBytes]
    rfl
  have h₁ : e₁.length = 16 := by rw [he₁, AES.length_BRAES256ECBEncrypt]
  have h₂ : e₂.length = 16 := by rw [he₂, AES.length_BRAES256ECBEncrypt]
  obtain ⟨hdata, hslice, -, -⟩ := slices_data flag hlen h₁ h₂
  have hwrite : BRKeyBIP38Key env key passphrase = Base58.encoding ([0x01, 0x42, flag] ++ salt ++
      e₁ ++ e₂ ++ Base58.checksum env.sha256d ([0x01, 0x42, flag] ++ salt ++ e₁ ++ e₂)) ++ [0] := by
    rw [← Base58.BRBase58CheckEncode_eq, BRKeyBIP38Key, hflag, hsalt, he₁, he₂]
  refine ⟨_, hwrite, ?_⟩
  have hread : Base58.BRBase58CheckDecode env.sha256d (Base58.encoding ([0x01, 0x42, flag] ++ salt ++
      e₁ ++ e₂ ++ Base58.checksum env.sha256d ([0x01, 0x42, flag] ++ salt ++ e₁ ++ e₂))) =
        [0x01, 0x42, flag] ++ salt ++ e₁ ++ e₂ := by
    refine (Base58.BRBase58CheckDecode_eq_iff_encoding (by simp)).mpr ?_
    exact Base58.alphabetPart_of_mem (Base58.encoding_mem _)
  have hcompressed := compressed_flag key.compressed
  rw [hflag] at hcompressed
  have hsecret := noecSecret_data env flag hlen he₁ he₂
  have hresult : BRKeySetBIP38Key curve env key' (Base58.encoding ([0x01, 0x42, flag] ++ salt ++
      e₁ ++ e₂ ++ Base58.checksum env.sha256d ([0x01, 0x42, flag] ++ salt ++ e₁ ++ e₂))) passphrase =
        ((BRKey.setSecret curve key.secret key.compressed).1, true) := by
    obtain ⟨data, heq⟩ : ∃ data, [0x01, 0x42, flag] ++ salt ++ e₁ ++ e₂ = data := ⟨_, rfl⟩
    have h0 : data.getD 0 0 = 0x01 := by rw [← heq]; rfl
    have h1 : data.getD 1 0 = 0x42 := by rw [← heq]; rfl
    have h2 : data.getD 2 0 = flag := by rw [← heq]; rfl
    simp only [heq] at hread hdata hslice hsecret ⊢
    have hvalid : ¬(env.address key.secret key.compressed = [] ∨
        (hashBytes (env.sha256d (env.address key.secret key.compressed))).take 4 ≠
          slice data 3 4) := by
      rintro (h | h)
      · exact haddress _ _ hkey h
      · exact h (by rw [hsalt, hslice])
    rw [BRKeySetBIP38Key, hread]
    simp only [hdata, h0, h1, h2, hcompressed]
    rw [if_neg (by decide), if_pos (by decide), hsecret, decide_eq_true hvalid]
  rw [hresult]
  exact ⟨rfl, rfl, rfl⟩

/-- Constant bytes in the place of scrypt and of the hash. -/
def zeroEnv : Bip38Env where
  scrypt dkLen _ _ _ _ _ := List.replicate dkLen 0
  sha256d _ := 0
  address _ _ := [0x31]
  secret := 0
  passpoint := []
  length_scrypt _ _ _ _ _ _ := List.length_replicate

theorem bip38_roundTrip_five :
    ∃ bip38Key, BRKeyBIP38Key zeroEnv { secret := scalarBytes 5, compressed := true } [0x78] =
        bip38Key ++ [0] ∧
      (BRKeySetBIP38Key Bip32.groupCurve zeroEnv {} bip38Key [0x78]).1.secret = scalarBytes 5 := by
  have h := bip38_roundTrip Bip32.groupCurve zeroEnv (fun _ _ _ => List.cons_ne_nil _ _)
    { secret := scalarBytes 5, compressed := true } (by decide +kernel) {} [0x78]
  obtain ⟨bip38Key, hwrite, -, hsecret, -⟩ := h.1
  exact ⟨bip38Key, hwrite, hsecret⟩

end Bip38

end BreadwalletCore
