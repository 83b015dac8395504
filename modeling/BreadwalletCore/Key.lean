import BreadwalletCore.Address.Exact

/-!
# Keys

The functions of `BRKey.c` that derivation uses, over the library secp256k1.

The library is a parameter: a group with a generator of a known order, and the
encoding of its points.  Its functions read a scalar as 32 bytes, the most
significant byte first, and fail where the documentation says so.
-/

namespace BreadwalletCore

/-- What `secp256k1_scalar_set_b32` reads from 32 bytes. -/
def scalarValue (x : UInt256) : ℕ :=
  LittleEndian.value (hashBytes x).reverse

/-- `secp256k1_scalar_get_b32`. -/
def scalarBytes (n : ℕ) : UInt256 :=
  BitVec.ofNat 256 (LittleEndian.value (LittleEndian.bytes 32 n).reverse)

theorem scalarValue_scalarBytes
    {n : ℕ}
    (hn : n < 2 ^ 256) :
    scalarValue (scalarBytes n) = n := by
  rw [scalarValue, scalarBytes, hashBytes_ofNat_value (by simp), List.reverse_reverse]
  exact LittleEndian.value_bytes (by simpa using hn)

/-- The group of the curve, and how points are written: a compressed point has
33 bytes, another has 65. -/
structure Secp256k1 (P : Type) [AddCommGroup P] where
  order : ℕ
  generator : P
  serialize : Bool → P → List UInt8
  parse : List UInt8 → Option P
  order_pos : 0 < order
  order_le : order ≤ 2 ^ 256
  smul_generator_eq_zero : ∀ k : ℕ, k • generator = 0 ↔ order ∣ k
  length_serialize : ∀ compressed p,
    (serialize compressed p).length = if compressed then 33 else 65
  parse_serialize : ∀ compressed p, p ≠ 0 → parse (serialize compressed p) = some p
  /-- the first byte of a point is 2, 3 or 4 -/
  parse_zeros : ∀ n, parse (List.replicate n 0) = none

namespace Secp256k1

variable {P : Type} [AddCommGroup P] (curve : Secp256k1 P)

/-- `secp256k1_ec_seckey_verify`. -/
def seckeyVerify (secret : UInt256) : Bool :=
  0 < scalarValue secret ∧ scalarValue secret < curve.order

/-- `secp256k1_ec_pubkey_create`. -/
def pubkeyCreate (secret : UInt256) : Option P :=
  if curve.seckeyVerify secret then some (scalarValue secret • curve.generator) else none

/-- `secp256k1_ec_privkey_tweak_add`: the secret afterwards, and whether it returns true. -/
def privkeyTweakAdd (secret tweak : UInt256) : UInt256 × Bool :=
  let sum := (scalarValue secret + scalarValue tweak) % curve.order
  if scalarValue tweak < curve.order ∧ sum ≠ 0 then (scalarBytes sum, true) else (0, false)

/-- `secp256k1_ec_pubkey_tweak_add`. -/
def pubkeyTweakAdd [DecidableEq P] (p : P) (tweak : UInt256) : Option P :=
  let sum := p + scalarValue tweak • curve.generator
  if scalarValue tweak < curve.order ∧ sum ≠ 0 then some sum else none

/-- `BRSecp256k1ModAdd`. -/
def BRSecp256k1ModAdd (a b : UInt256) : UInt256 × Bool :=
  curve.privkeyTweakAdd a b

/-- `BRSecp256k1PointGen`; the point is left alone when it fails. -/
def BRSecp256k1PointGen (i : UInt256) : Option (List UInt8) :=
  (curve.pubkeyCreate i).map (curve.serialize true)

/-- `BRSecp256k1PointAdd`; the point is left alone when it fails. -/
def BRSecp256k1PointAdd [DecidableEq P] (p : List UInt8) (i : UInt256) : List UInt8 × Bool :=
  match (curve.parse p).bind (fun pubkey => curve.pubkeyTweakAdd pubkey i) with
  | some sum => (curve.serialize true sum, true)
  | none => (p, false)

/-! ## Secrets and points -/

/-- The point of a secret, compressed. -/
def pointBytes (secret : UInt256) : List UInt8 :=
  curve.serialize true (scalarValue secret • curve.generator)

theorem mod_order_smul
    (k : ℕ) :
    (k % curve.order) • curve.generator = k • curve.generator := by
  have hzero : curve.order • curve.generator = 0 :=
    (curve.smul_generator_eq_zero _).mpr dvd_rfl
  nth_rewrite 2 [← Nat.mod_add_div k curve.order]
  rw [add_smul, mul_comm curve.order, mul_smul, hzero, smul_zero, add_zero]

variable {curve} {secret tweak : UInt256}

theorem seckeyVerify_iff :
    curve.seckeyVerify secret = true ↔
      0 < scalarValue secret ∧ scalarValue secret < curve.order :=
  decide_eq_true_iff

/-- A valid secret has a point. -/
theorem point_ne_zero
    (hsecret : curve.seckeyVerify secret = true) :
    scalarValue secret • curve.generator ≠ 0 := by
  obtain ⟨hpos, hlt⟩ := seckeyVerify_iff.mp hsecret
  rw [Ne, curve.smul_generator_eq_zero]
  exact fun hdvd => absurd (Nat.le_of_dvd hpos hdvd) (by omega)

theorem pointGen_eq
    (hsecret : curve.seckeyVerify secret = true) :
    curve.BRSecp256k1PointGen secret = some (curve.pointBytes secret) := by
  rw [BRSecp256k1PointGen, pubkeyCreate, if_pos hsecret]
  rfl

/-- What it means that a tweak is accepted. -/
theorem modAdd_spec
    (htweak : (curve.BRSecp256k1ModAdd secret tweak).2 = true) :
    scalarValue tweak < curve.order ∧
      (scalarValue secret + scalarValue tweak) % curve.order ≠ 0 ∧
      scalarValue (curve.BRSecp256k1ModAdd secret tweak).1 =
        (scalarValue secret + scalarValue tweak) % curve.order := by
  have hmod := Nat.mod_lt (scalarValue secret + scalarValue tweak) curve.order_pos
  have hle := curve.order_le
  rw [BRSecp256k1ModAdd, privkeyTweakAdd] at htweak ⊢
  split at htweak
  · rename_i hok
    refine ⟨hok.1, hok.2, ?_⟩
    rw [if_pos hok]
    exact scalarValue_scalarBytes (by omega)
  · cases htweak

/-- A tweak that is accepted leaves a valid secret. -/
theorem seckeyVerify_modAdd
    (htweak : (curve.BRSecp256k1ModAdd secret tweak).2 = true) :
    curve.seckeyVerify (curve.BRSecp256k1ModAdd secret tweak).1 = true := by
  obtain ⟨-, hne, hvalue⟩ := modAdd_spec htweak
  rw [seckeyVerify_iff, hvalue]
  exact ⟨Nat.pos_of_ne_zero hne, Nat.mod_lt _ curve.order_pos⟩

/-- **Homomorphism.**  Adding a tweak to a secret adds it to the point. -/
theorem pointAdd_pointBytes
    [DecidableEq P]
    (hsecret : curve.seckeyVerify secret = true)
    (htweak : (curve.BRSecp256k1ModAdd secret tweak).2 = true) :
    (curve.BRSecp256k1PointAdd (curve.pointBytes secret) tweak).1 =
      curve.pointBytes (curve.BRSecp256k1ModAdd secret tweak).1 := by
  obtain ⟨hlt, -, hvalue⟩ := modAdd_spec htweak
  have hvalid := point_ne_zero (seckeyVerify_modAdd htweak)
  have hparse : curve.parse (curve.pointBytes secret) = some (scalarValue secret • curve.generator) :=
    curve.parse_serialize _ _ (point_ne_zero hsecret)
  have hsum : scalarValue (curve.BRSecp256k1ModAdd secret tweak).1 • curve.generator =
      scalarValue secret • curve.generator + scalarValue tweak • curve.generator := by
    rw [hvalue, mod_order_smul, add_smul]
  rw [hsum] at hvalid
  rw [BRSecp256k1PointAdd, hparse, Option.bind_some, pubkeyTweakAdd, if_pos ⟨hlt, hvalid⟩]
  exact congrArg (curve.serialize true) hsum.symm

end Secp256k1

/-! ## `BRKey` -/

/-- The hash functions that keys use. -/
structure KeyHashes where
  hmacSHA512 : List UInt8 → List UInt8 → BitVec 512
  hash160 : List UInt8 → BitVec 160
  sha256d : List UInt8 → UInt256
  testnet : Bool

/-- `BRKey`. -/
structure BRKey where
  secret : UInt256 := 0
  pubKey : List UInt8 := List.replicate 65 0
  compressed : Bool := false

/-- The bytes of a point of the curve, in one of the two formats. -/
def IsPubKey {P : Type} [AddCommGroup P] (curve : Secp256k1 P) (pk : List UInt8) : Prop :=
  ∃ compressed p, p ≠ 0 ∧ pk = curve.serialize compressed p

namespace BRKey

variable {P : Type} [AddCommGroup P] (curve : Secp256k1 P) (hashes : KeyHashes)

/-- `BRKeySetSecret`. -/
def setSecret (secret : UInt256) (compressed : Bool) : BRKey × Bool :=
  ({ secret := secret, compressed := compressed }, curve.seckeyVerify secret)

/-- `BRKeySetPubKey`. -/
def setPubKey (pubKey : List UInt8) : BRKey × Bool :=
  ({ pubKey := pubKey ++ List.replicate (65 - pubKey.length) 0
     compressed := pubKey.length ≤ 33 }, (curve.parse pubKey).isSome)

/-- `BRKeyPubKey`; that it keeps what it computes is left out. -/
def publicKey (key : BRKey) : List UInt8 :=
  let size := if key.compressed then 33 else 65
  if key.pubKey.take size = List.replicate size 0 then
    ((curve.pubkeyCreate key.secret).map (curve.serialize key.compressed)).getD []
  else key.pubKey.take size

/-- `BRKeyHash160`. -/
def hash160 (key : BRKey) : BitVec 160 :=
  let pubKey := key.publicKey curve
  if pubKey ≠ [] ∧ (curve.parse pubKey).isSome then hashes.hash160 pubKey else 0

/-- `BRKeyAddress`: the string with its NUL. -/
def address (key : BRKey) : Option (List UInt8) :=
  let hash := key.hash160 curve hashes
  if hash ≠ 0 then
    some (Base58.BRBase58CheckEncode hashes.sha256d
      (pubkeyAddress hashes.testnet :: LittleEndian.bytes 20 hash.toNat))
  else none

variable {curve hashes} {secret : UInt256}

/-- A key that was set from a valid secret. -/
def IsSecret (curve : Secp256k1 P) (key : BRKey) : Prop :=
  ∃ secret, curve.seckeyVerify secret = true ∧ key = (setSecret curve secret true).1

/-- The public key of a valid secret, in the format of the key. -/
theorem publicKey_setSecret_format
    (hsecret : curve.seckeyVerify secret = true)
    (compressed : Bool) :
    (setSecret curve secret compressed).1.publicKey curve =
      curve.serialize compressed (scalarValue secret • curve.generator) := by
  have hsize : (if compressed = true then 33 else 65) ≤ 65 := by
    split <;> omega
  have hzeros : ∀ n ≤ 65, (List.replicate 65 (0 : UInt8)).take n = List.replicate n 0 := by
    intro n hn
    rw [List.take_replicate, Nat.min_eq_left hn]
  rw [publicKey, setSecret]
  dsimp only
  rw [if_pos (hzeros _ hsize), Secp256k1.pubkeyCreate, if_pos hsecret]
  rfl

theorem publicKey_setSecret
    (hsecret : curve.seckeyVerify secret = true) :
    (setSecret curve secret true).1.publicKey curve = curve.pointBytes secret :=
  publicKey_setSecret_format hsecret true

end BRKey

namespace IsPubKey

variable {P : Type} [AddCommGroup P] {curve : Secp256k1 P} {pk : List UInt8}

theorem pointBytes
    {secret : UInt256}
    (hsecret : curve.seckeyVerify secret = true) :
    IsPubKey curve (curve.pointBytes secret) :=
  ⟨true, _, Secp256k1.point_ne_zero hsecret, rfl⟩

theorem length_eq
    (h : IsPubKey curve pk) :
    pk.length = 33 ∨ pk.length = 65 := by
  obtain ⟨compressed, p, -, rfl⟩ := h
  rw [curve.length_serialize]
  cases compressed
  · exact Or.inr rfl
  · exact Or.inl rfl

theorem ne_zeros
    (h : IsPubKey curve pk)
    (n : ℕ) :
    pk ≠ List.replicate n 0 := by
  obtain ⟨compressed, p, hp, rfl⟩ := h
  intro hzeros
  have hparse := curve.parse_serialize compressed p hp
  rw [hzeros, curve.parse_zeros] at hparse
  cases hparse

/-- A key that was set from a point has it. -/
theorem publicKey_setPubKey
    (h : IsPubKey curve pk) :
    (BRKey.setPubKey curve pk).1.publicKey curve = pk := by
  have hsize : (if decide (pk.length ≤ 33) = true then 33 else 65) = pk.length := by
    rcases h.length_eq with hlen | hlen <;> rw [hlen] <;> rfl
  have htake : (pk ++ List.replicate (65 - pk.length) 0).take pk.length = pk :=
    List.take_left' rfl
  rw [BRKey.publicKey, BRKey.setPubKey]
  dsimp only
  rw [hsize, htake, if_neg (h.ne_zeros _)]

theorem setPubKey_snd
    (h : IsPubKey curve pk) :
    (BRKey.setPubKey curve pk).2 = true := by
  obtain ⟨compressed, p, hp, rfl⟩ := h
  rw [BRKey.setPubKey, curve.parse_serialize _ _ hp]
  rfl

end IsPubKey

namespace BRKey

variable {P : Type} [AddCommGroup P] {curve : Secp256k1 P} {hashes : KeyHashes}

/-- The address depends on the public key alone. -/
theorem address_congr
    {key key' : BRKey}
    (h : key.publicKey curve = key'.publicKey curve) :
    key.address curve hashes = key'.address curve hashes := by
  rw [address, address, hash160, hash160, h]

/-- A key has the address of its public key. -/
theorem address_setPubKey
    {key : BRKey}
    (hkey : key.IsSecret curve) :
    (setPubKey curve (key.publicKey curve)).1.address curve hashes = key.address curve hashes := by
  obtain ⟨secret, hsecret, rfl⟩ := hkey
  refine address_congr ?_
  rw [publicKey_setSecret hsecret, (IsPubKey.pointBytes hsecret).publicKey_setPubKey]

end BRKey

end BreadwalletCore
