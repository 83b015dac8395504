import BreadwalletCore.Key

/-!
# Derivation of keys

`BRBIP32Sequence.c`: the path m/0H/chain/index from the seed, and from the
public key of m/0H.  A normal step of the private path hashes the same bytes as
the step of the public path, because the secret is hashed as its point.
-/

namespace BreadwalletCore

namespace Bip32

variable {P : Type} [AddCommGroup P] (curve : Secp256k1 P) (hashes : KeyHashes)

/-- `BIP32_HARD`. -/
def bip32Hard : UInt32 := 0x80000000

/-- `SEQUENCE_EXTERNAL_CHAIN` and `SEQUENCE_INTERNAL_CHAIN`. -/
def sequenceChain (internal : Bool) : UInt32 :=
  if internal then 1 else 0

/-- `BIP32_SEED_KEY`, "Bitcoin seed". -/
def bip32SeedKey : List UInt8 :=
  [66, 105, 116, 99, 111, 105, 110, 32, 115, 101, 101, 100]

/-- The index is that of a hardened child. -/
def isHardened (i : UInt32) : Bool :=
  i &&& bip32Hard ≠ 0

/-- The first half of a `UInt512`. -/
def firstHalf (I : BitVec 512) : UInt256 :=
  I.extractLsb' 0 256

/-- The second half of a `UInt512`. -/
def secondHalf (I : BitVec 512) : UInt256 :=
  I.extractLsb' 256 256

/-- `HMAC-SHA512(c, data || i)`. -/
def childHash (c : UInt256) (data : List UInt8) (i : UInt32) : BitVec 512 :=
  hashes.hmacSHA512 (hashBytes c) (data ++ (LittleEndian.bytes 4 i.toNat).reverse)

/-- The first 33 bytes of `buf` in `_CKDpriv`; without a point they are not set. -/
def childData (k : UInt256) (i : UInt32) : Option (List UInt8) :=
  if isHardened i then some (0 :: hashBytes k) else curve.BRSecp256k1PointGen k

/-- `_CKDpriv`. -/
def CKDpriv (k c : UInt256) (i : UInt32) : Option (UInt256 × UInt256) := do
  let data ← childData curve k i
  let I := childHash hashes c data i
  pure ((curve.BRSecp256k1ModAdd k (firstHalf I)).1, secondHalf I)

/-- `_CKDpub`. -/
def CKDpub [DecidableEq P] (K : List UInt8) (c : UInt256) (i : UInt32) :
    List UInt8 × UInt256 :=
  if ¬ isHardened i then
    let I := childHash hashes c K i
    ((curve.BRSecp256k1PointAdd K (firstHalf I)).1, secondHalf I)
  else (K, c)

/-- `BRMasterPubKey`. -/
structure MasterPubKey where
  fingerPrint : UInt32
  chainCode : UInt256
  pubKey : List UInt8
deriving DecidableEq, Repr

/-- The master secret and its chain code. -/
def master (seed : List UInt8) : UInt256 × UInt256 :=
  let I := hashes.hmacSHA512 bip32SeedKey seed
  (firstHalf I, secondHalf I)

/-- Path m/0H. -/
def account (seed : List UInt8) : Option (UInt256 × UInt256) :=
  CKDpriv curve hashes (master hashes seed).1 (master hashes seed).2 (0 ||| bip32Hard)

/-- `BRBIP32MasterPubKey`. -/
def BRBIP32MasterPubKey (seed : List UInt8) : Option MasterPubKey := do
  let node ← account curve hashes seed
  let key := (BRKey.setSecret curve (master hashes seed).1 true).1
  let pubKey := (BRKey.setSecret curve node.1 true).1.publicKey curve
  pure {
    fingerPrint := UInt32.ofNat (key.hash160 curve hashes).toNat
    chainCode := node.2
    pubKey := pubKey ++ List.replicate (33 - pubKey.length) 0 }

/-- `BRBIP32PubKey`. -/
def BRBIP32PubKey [DecidableEq P] (mpk : MasterPubKey) (chain index : UInt32) : List UInt8 :=
  let node := CKDpub curve hashes mpk.pubKey mpk.chainCode chain
  (CKDpub curve hashes node.1 node.2 index).1

/-- The loop of `BRBIP32PrivKeyList`. -/
def childKeys (k c : UInt256) : List UInt32 → Option (List BRKey)
  | [] => some []
  | i :: indexes => do
      let child ← CKDpriv curve hashes k c i
      let keys ← childKeys k c indexes
      pure ((BRKey.setSecret curve child.1 true).1 :: keys)

/-- `BRBIP32PrivKeyList`. -/
def BRBIP32PrivKeyList (seed : List UInt8) (chain : UInt32) (indexes : List UInt32) :
    Option (List BRKey) :=
  if indexes = [] then some []
  else do
    let node ← account curve hashes seed
    let child ← CKDpriv curve hashes node.1 node.2 chain
    childKeys curve hashes child.1 child.2 indexes

/-! ## One step -/

/-- The child is defined: there is data to hash, and the tweak is accepted. -/
def ValidChild (k c : UInt256) (i : UInt32) : Prop :=
  ∃ data, childData curve k i = some data ∧
    (curve.BRSecp256k1ModAdd k (firstHalf (childHash hashes c data i))).2 = true

instance (k c : UInt256) (i : UInt32) : Decidable (ValidChild curve hashes k c i) :=
  decidable_of_iff
    (∃ data ∈ childData curve k i,
      (curve.BRSecp256k1ModAdd k (firstHalf (childHash hashes c data i))).2 = true)
    Iff.rfl

/-- All tweaks of the path m/0H/chain/index are valid. -/
structure ValidPath (seed : List UInt8) (chain index : UInt32) : Prop where
  atAccount : ValidChild curve hashes (master hashes seed).1 (master hashes seed).2
    (0 ||| bip32Hard)
  atChain : ∀ node, account curve hashes seed = some node →
    ValidChild curve hashes node.1 node.2 chain
  atIndex : ∀ node child, account curve hashes seed = some node →
    CKDpriv curve hashes node.1 node.2 chain = some child →
    ValidChild curve hashes child.1 child.2 index

variable {curve hashes} {k c : UInt256} {i : UInt32}

/-- A child that is defined has a valid secret. -/
theorem CKDpriv_valid
    (hvalid : ValidChild curve hashes k c i) :
    ∃ k' c', CKDpriv curve hashes k c i = some (k', c') ∧ curve.seckeyVerify k' = true := by
  obtain ⟨data, hdata, htweak⟩ := hvalid
  refine ⟨_, secondHalf (childHash hashes c data i), ?_, Secp256k1.seckeyVerify_modAdd htweak⟩
  rw [CKDpriv, hdata]
  rfl

/-- **One step.**  The point of a normal child is the child of the point. -/
theorem CKDpub_point
    [DecidableEq P]
    {k' c' : UInt256}
    (hsecret : curve.seckeyVerify k = true)
    (hnormal : isHardened i = false)
    (hvalid : ValidChild curve hashes k c i)
    (h : CKDpriv curve hashes k c i = some (k', c')) :
    CKDpub curve hashes (curve.pointBytes k) c i = (curve.pointBytes k', c') := by
  obtain ⟨data, hdata, htweak⟩ := hvalid
  have hpoint : data = curve.pointBytes k := by
    rw [childData, hnormal, Secp256k1.pointGen_eq hsecret] at hdata
    exact (Option.some.inj hdata).symm
  rw [CKDpriv, hdata] at h
  cases h
  subst hpoint
  rw [CKDpub, if_pos (by simp [hnormal])]
  exact congrArg (fun K => (K, _)) (Secp256k1.pointAdd_pointBytes hsecret htweak)

/-! ## Paths -/

/-- The public key that is kept for a seed. -/
theorem masterPubKey_eq
    {seed : List UInt8} {node : UInt256 × UInt256}
    (hnode : account curve hashes seed = some node)
    (hsecret : curve.seckeyVerify node.1 = true) :
    ∃ mpk, BRBIP32MasterPubKey curve hashes seed = some mpk ∧
      mpk.pubKey = curve.pointBytes node.1 ∧ mpk.chainCode = node.2 := by
  have hlen : (curve.pointBytes node.1).length = 33 := curve.length_serialize true _
  rw [BRBIP32MasterPubKey, hnode]
  refine ⟨_, rfl, ?_, rfl⟩
  dsimp only
  rw [BRKey.publicKey_setSecret hsecret, hlen]
  exact List.append_nil _

/-- The keys of a chain have the public keys that are derived without secrets. -/
theorem childKeys_publicKey
    [DecidableEq P]
    {indexes : List UInt32}
    (hsecret : curve.seckeyVerify k = true)
    (hnormal : ∀ i ∈ indexes, isHardened i = false)
    (hvalid : ∀ i ∈ indexes, ValidChild curve hashes k c i) :
    ∃ keys, childKeys curve hashes k c indexes = some keys ∧ (∀ key ∈ keys, key.IsSecret curve) ∧
      keys.map (·.publicKey curve) =
        indexes.map (fun i => (CKDpub curve hashes (curve.pointBytes k) c i).1) := by
  induction indexes with
  | nil =>
      exact ⟨[], rfl, by simp, rfl⟩
  | cons i indexes ih =>
      obtain ⟨k', c', hchild, hsecret'⟩ := CKDpriv_valid (hvalid i List.mem_cons_self)
      obtain ⟨keys, hkeys, hsecrets, hpublic⟩ := ih (fun j hj => hnormal j (List.mem_cons_of_mem _ hj))
        (fun j hj => hvalid j (List.mem_cons_of_mem _ hj))
      have hpoint := CKDpub_point hsecret (hnormal i List.mem_cons_self)
        (hvalid i List.mem_cons_self) hchild
      rw [childKeys, hchild, Option.bind_eq_bind, Option.bind_some, hkeys]
      refine ⟨_, rfl, List.forall_mem_cons.mpr ⟨⟨k', hsecret', rfl⟩, hsecrets⟩, ?_⟩
      rw [List.map_cons, List.map_cons, hpublic, hpoint, BRKey.publicKey_setSecret hsecret']

/-- **Private and public derivation agree** on a chain and indexes that are not
hardened. -/
theorem privKeyList_publicKey
    [DecidableEq P]
    {seed : List UInt8} {chain : UInt32} {indexes : List UInt32} {mpk : MasterPubKey}
    (hmpk : BRBIP32MasterPubKey curve hashes seed = some mpk)
    (hchain : isHardened chain = false)
    (hindexes : ∀ i ∈ indexes, isHardened i = false)
    (hvalid : ∀ i ∈ indexes, ValidPath curve hashes seed chain i) :
    ∃ keys, BRBIP32PrivKeyList curve hashes seed chain indexes = some keys ∧
      (∀ key ∈ keys, key.IsSecret curve) ∧
      keys.map (·.publicKey curve) = indexes.map (BRBIP32PubKey curve hashes mpk chain) := by
  by_cases hnil : indexes = []
  · subst hnil
    exact ⟨[], rfl, by simp, rfl⟩
  · obtain ⟨i, hi⟩ := List.exists_mem_of_ne_nil indexes hnil
    have hpath := hvalid i hi
    obtain ⟨k, c, hderived, hsecret⟩ := CKDpriv_valid hpath.atAccount
    have hnode : account curve hashes seed = some (k, c) := hderived
    obtain ⟨mpk', hmpk', hpubKey, hcode⟩ := masterPubKey_eq hnode hsecret
    rw [hmpk] at hmpk'
    cases hmpk'
    have hchainValid := hpath.atChain _ hnode
    obtain ⟨k', c', hchild, hsecret'⟩ := CKDpriv_valid hchainValid
    have hpoint := CKDpub_point hsecret hchain hchainValid hchild
    have hchildren : ∀ j ∈ indexes, ValidChild curve hashes k' c' j :=
      fun j hj => (hvalid j hj).atIndex (k, c) (k', c') hnode hchild
    obtain ⟨keys, hkeys, hsecrets, hpublic⟩ := childKeys_publicKey hsecret' hindexes hchildren
    refine ⟨keys, ?_, hsecrets, ?_⟩
    · rw [BRBIP32PrivKeyList, if_neg hnil, hnode, Option.bind_eq_bind, Option.bind_some,
        hchild, Option.bind_some, hkeys]
    · rw [hpublic]
      refine List.map_congr_left (fun j _ => ?_)
      rw [BRBIP32PubKey, hpubKey, hcode, hpoint]

/-! ## A group in the place of the curve -/

/-- The order of the group of secp256k1. -/
def groupOrder : ℕ :=
  0xfffffffffffffffffffffffffffffffebaaedce6af48a03bbfd25e8cd0364141

/-- A group of the same order, whose elements are written like points. -/
def groupCurve : Secp256k1 (ZMod groupOrder) where
  order := groupOrder
  generator := 1
  serialize compressed p :=
    (if compressed then 2 else 4) :: LittleEndian.bytes (if compressed then 32 else 64) p.val
  parse l := if l.headD 0 = 0 then none else some (LittleEndian.value l.tail : ℕ)
  order_pos := by decide
  order_le := by decide
  smul_generator_eq_zero := by
    intro k
    rw [nsmul_eq_mul, mul_one]
    exact ZMod.natCast_eq_zero_iff k groupOrder
  length_serialize := by
    intro compressed p
    cases compressed <;> simp
  parse_serialize := by
    intro compressed p _
    have hne : NeZero groupOrder := ⟨by decide⟩
    have hlt : p.val < groupOrder := ZMod.val_lt p
    have hbytes : LittleEndian.value
        (LittleEndian.bytes (if compressed then 32 else 64) p.val) = p.val := by
      have horder : groupOrder < 256 ^ 32 := by decide
      refine LittleEndian.value_bytes ?_
      cases compressed
      · exact hlt.trans (horder.trans (by decide))
      · exact hlt.trans horder
    have hhead : (if compressed = true then (2 : UInt8) else 4) ≠ 0 := by
      cases compressed <;> decide
    simp only [List.headD_cons, List.tail_cons, hbytes, if_neg hhead, ZMod.natCast_zmod_val]
  parse_zeros := by
    intro n
    cases n <;> rfl

/-- Tweaks that count up with the index, and one public key with a hash. -/
def indexHashes : KeyHashes where
  hmacSHA512 _ data := BitVec.ofNat 512 ((1 + (data.getLastD 0).toNat) * 2 ^ 248)
  hash160 pubKey := if LittleEndian.value pubKey.tail = 4 then 1 else 0
  sha256d _ := 0
  testnet := false

/-- The master public key of the empty seed. -/
def sampleMasterPubKey : MasterPubKey where
  fingerPrint := 0
  chainCode := 0
  pubKey := 2 :: LittleEndian.bytes 32 2

theorem sampleMasterPubKey_eq :
    BRBIP32MasterPubKey groupCurve indexHashes [] = some sampleMasterPubKey := by
  decide +kernel

/-- The paths of the empty seed are valid if their steps are. -/
theorem validPath_sample
    {chain index : UInt32}
    (hchain : ValidChild groupCurve indexHashes (scalarBytes 2) 0 chain)
    (hindex : ∀ child, CKDpriv groupCurve indexHashes (scalarBytes 2) 0 chain = some child →
      ValidChild groupCurve indexHashes child.1 child.2 index) :
    ValidPath groupCurve indexHashes [] chain index := by
  have haccount : account groupCurve indexHashes [] = some (scalarBytes 2, 0) := by
    decide +kernel
  refine ⟨by decide +kernel, ?_, ?_⟩
  · rintro node hnode
    rw [haccount] at hnode
    cases hnode
    exact hchain
  · rintro node child hnode hchild
    rw [haccount] at hnode
    cases hnode
    exact hindex child hchild

/-- On a hardened chain the two derivations part. -/
theorem not_privKeyList_publicKey_hardened :
    ¬ ∀ (chain : UInt32) (indexes : List UInt32), (∀ i ∈ indexes, isHardened i = false) →
      (∀ i ∈ indexes, ValidPath groupCurve indexHashes [] chain i) →
      ∀ mpk, BRBIP32MasterPubKey groupCurve indexHashes [] = some mpk →
      ∀ keys, BRBIP32PrivKeyList groupCurve indexHashes [] chain indexes = some keys →
        keys.map (·.publicKey groupCurve) =
          indexes.map (BRBIP32PubKey groupCurve indexHashes mpk chain) := by
  intro hall
  have hchild : CKDpriv groupCurve indexHashes (scalarBytes 2) 0 bip32Hard =
      some (scalarBytes 3, 0) := by
    decide +kernel
  have hvalid : ValidPath groupCurve indexHashes [] bip32Hard 0 := by
    refine validPath_sample (by decide +kernel) ?_
    rintro child h
    rw [hchild] at h
    cases h
    decide +kernel
  have hprivate : (BRBIP32PrivKeyList groupCurve indexHashes [] bip32Hard [0]).map
      (fun keys => keys.map (·.publicKey groupCurve)) = some [2 :: LittleEndian.bytes 32 4] := by
    decide +kernel
  obtain ⟨keys, hkeys, hpublic⟩ := Option.map_eq_some_iff.mp hprivate
  have heq := hall bip32Hard [0] (List.forall_mem_singleton.mpr rfl) (by simpa using hvalid) sampleMasterPubKey
    sampleMasterPubKey_eq keys hkeys
  rw [hpublic] at heq
  revert heq
  decide +kernel

end Bip32

end BreadwalletCore
