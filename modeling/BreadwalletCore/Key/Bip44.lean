import BreadwalletCore.Key.Bip32

/-!
# The BIP44 layout

`BIP44Sequence.c`: the master public key of m/44'/coinType'/account', its
children, and the list of private keys.  The list takes a coin type and does not
use it: its path is m/44'/175'/0'/0/index.
-/

namespace BreadwalletCore

namespace Bip32

variable {P : Type} [AddCommGroup P] (curve : Secp256k1 P) (hashes : KeyHashes)

/-- `BIP44_PURPOSE`. -/
def bip44Purpose : UInt32 := 44

/-- `BIP44_BTX_COINTYPE`. -/
def bip44BtxCoinType : UInt32 := 175

/-- `BIP44_CHANGE`. -/
def bip44Change : UInt32 := 0

/-- `BIP44MasterPubKey`. -/
def BIP44MasterPubKey (seed : List UInt8) (account coinType : UInt32) :
    Option MasterPubKey := do
  let node := master hashes seed
  let node ← CKDpriv curve hashes node.1 node.2 (bip44Purpose ||| bip32Hard)
  let node ← CKDpriv curve hashes node.1 node.2 (coinType ||| bip32Hard)
  let node ← CKDpriv curve hashes node.1 node.2 (account ||| bip32Hard)
  let key := (BRKey.setSecret curve node.1 true).1
  let pubKey := key.publicKey curve
  pure {
    fingerPrint := UInt32.ofNat (key.hash160 curve hashes).toNat
    chainCode := node.2
    pubKey := pubKey ++ List.replicate (33 - pubKey.length) 0 }

/-- `BIP44PubKey`. -/
def BIP44PubKey [DecidableEq P] (mpk : MasterPubKey) (chain index : UInt32) : List UInt8 :=
  let node := CKDpub curve hashes mpk.pubKey mpk.chainCode chain
  (CKDpub curve hashes node.1 node.2 index).1

/-- The loop of `BIP44PrivKeyList`. -/
def bip44Keys (k c : UInt256) : List UInt32 → Option (List BRKey)
  | [] => some []
  | i :: indexes => do
      let child ← CKDpriv curve hashes k c bip44Change
      let child ← CKDpriv curve hashes child.1 child.2 i
      let keys ← bip44Keys k c indexes
      pure ((BRKey.setSecret curve child.1 true).1 :: keys)

/-- `BIP44PrivKeyList`, whose argument `coinType` is not read. -/
def BIP44PrivKeyList (seed : List UInt8) (_coinType : UInt32) (indexes : List UInt32) :
    Option (List BRKey) :=
  if indexes = [] then some []
  else do
    let node := master hashes seed
    let node ← CKDpriv curve hashes node.1 node.2 (bip44Purpose ||| bip32Hard)
    let node ← CKDpriv curve hashes node.1 node.2 (bip44BtxCoinType ||| bip32Hard)
    let node ← CKDpriv curve hashes node.1 node.2 (bip44Change ||| bip32Hard)
    bip44Keys curve hashes node.1 node.2 indexes

/-! ## Paths -/

/-- The node at the end of a path. -/
def derive (k c : UInt256) : List UInt32 → Option (UInt256 × UInt256)
  | [] => some (k, c)
  | i :: path => do
      let node ← CKDpriv curve hashes k c i
      derive node.1 node.2 path

/-- All tweaks of a path are valid. -/
def ValidSteps (k c : UInt256) : List UInt32 → Prop
  | [] => True
  | i :: path => ValidChild curve hashes k c i ∧
      ∀ k' c', CKDpriv curve hashes k c i = some (k', c') → ValidSteps k' c' path

/-- The path m/44'/coinType'/account'. -/
def accountPath (coinType account : UInt32) : List UInt32 :=
  [bip44Purpose ||| bip32Hard, coinType ||| bip32Hard, account ||| bip32Hard]

/-- All tweaks of the path m/44'/coinType'/account'/chain/index are valid. -/
def ValidPath44 (seed : List UInt8) (coinType account chain index : UInt32) : Prop :=
  ValidSteps curve hashes (master hashes seed).1 (master hashes seed).2
    (accountPath coinType account ++ [chain, index])

variable {curve hashes} {k c k' c' : UInt256} {i : UInt32} {path path' : List UInt32}

theorem derive_cons_iff
    {node : UInt256 × UInt256} :
    derive curve hashes k c (i :: path) = some node ↔
      ∃ child, CKDpriv curve hashes k c i = some child ∧
        derive curve hashes child.1 child.2 path = some node := by
  rw [derive, Option.bind_eq_bind]
  exact Option.bind_eq_some_iff

theorem derive_append
    {node : UInt256 × UInt256}
    (h : derive curve hashes k c path = some node) :
    derive curve hashes k c (path ++ path') = derive curve hashes node.1 node.2 path' := by
  induction path generalizing k c with
  | nil =>
      cases h
      rfl
  | cons i path ih =>
      obtain ⟨child, hchild, hrest⟩ := derive_cons_iff.mp h
      rw [List.cons_append, derive, hchild]
      exact ih hrest

theorem validSteps_append
    (h : ValidSteps curve hashes k c (path ++ path')) :
    ValidSteps curve hashes k c path ∧
      ∀ k' c', derive curve hashes k c path = some (k', c') →
        ValidSteps curve hashes k' c' path' := by
  induction path generalizing k c with
  | nil =>
      refine ⟨trivial, ?_⟩
      intro k' c' hderive
      cases hderive
      exact h
  | cons i path ih =>
      refine ⟨⟨h.1, fun k₁ c₁ hchild => (ih (h.2 k₁ c₁ hchild)).1⟩, ?_⟩
      intro k' c' hderive
      obtain ⟨⟨k₁, c₁⟩, hchild, hderive⟩ := derive_cons_iff.mp hderive
      exact (ih (h.2 k₁ c₁ hchild)).2 k' c' hderive

/-- A path with valid tweaks ends at a valid secret. -/
theorem derive_valid
    (hsecret : path ≠ [] ∨ curve.seckeyVerify k = true)
    (h : ValidSteps curve hashes k c path) :
    ∃ k' c', derive curve hashes k c path = some (k', c') ∧ curve.seckeyVerify k' = true := by
  induction path generalizing k c with
  | nil =>
      exact ⟨k, c, rfl, hsecret.resolve_left (fun hne => hne rfl)⟩
  | cons i path ih =>
      obtain ⟨k₁, c₁, hchild, hsecret₁⟩ := CKDpriv_valid h.1
      obtain ⟨k', c', hderive, hsecret'⟩ := ih (Or.inr hsecret₁) (h.2 k₁ c₁ hchild)
      refine ⟨k', c', ?_, hsecret'⟩
      rw [derive, hchild]
      exact hderive

theorem accountPath_eq
    (seed : List UInt8) (account coinType : UInt32) {node : UInt256 × UInt256}
    (hnode : derive curve hashes (master hashes seed).1 (master hashes seed).2
      (accountPath coinType account) = some node)
    (hsecret : curve.seckeyVerify node.1 = true) :
    ∃ mpk, BIP44MasterPubKey curve hashes seed account coinType = some mpk ∧
      mpk.pubKey = curve.pointBytes node.1 ∧ mpk.chainCode = node.2 := by
  obtain ⟨node₁, h₁, hnode⟩ := derive_cons_iff.mp hnode
  obtain ⟨node₂, h₂, hnode⟩ := derive_cons_iff.mp hnode
  obtain ⟨node₃, h₃, hret⟩ := derive_cons_iff.mp hnode
  cases Option.some.inj hret
  have hlen : (curve.pointBytes node₃.1).length = 33 := curve.length_serialize true _
  rw [BIP44MasterPubKey]
  dsimp only
  rw [h₁, Option.bind_eq_bind, Option.bind_some, h₂, Option.bind_some, h₃]
  refine ⟨_, rfl, ?_, rfl⟩
  dsimp only
  rw [BRKey.publicKey_setSecret hsecret, hlen]
  exact List.append_nil _

variable (curve hashes) in
/-- The point of the secret at the end of a path. -/
def pathPoint (k c : UInt256) (path : List UInt32) : List UInt8 :=
  ((derive curve hashes k c path).map (fun node => curve.pointBytes node.1)).getD []

theorem pathPoint_eq
    (h : derive curve hashes k c path = some (k', c')) :
    pathPoint curve hashes k c path = curve.pointBytes k' := by
  rw [pathPoint, h]
  rfl

/-- The keys of the list are at the ends of the paths. -/
theorem bip44Keys_publicKey
    {indexes : List UInt32}
    (hvalid : ∀ i ∈ indexes, ValidSteps curve hashes k c [bip44Change, i]) :
    ∃ keys, bip44Keys curve hashes k c indexes = some keys ∧
      keys.map (·.publicKey curve) =
        indexes.map (fun i => pathPoint curve hashes k c [bip44Change, i]) := by
  induction indexes with
  | nil =>
      exact ⟨[], rfl, rfl⟩
  | cons i indexes ih =>
      obtain ⟨k', c', hderive, hsecret⟩ := derive_valid (Or.inl (List.cons_ne_nil _ _))
        (hvalid i List.mem_cons_self)
      obtain ⟨keys, hkeys, hpublic⟩ := ih (fun j hj => hvalid j (List.mem_cons_of_mem _ hj))
      obtain ⟨child, hchild, hrest⟩ := derive_cons_iff.mp hderive
      obtain ⟨child', hchild', hret⟩ := derive_cons_iff.mp hrest
      cases Option.some.inj hret
      rw [bip44Keys, hchild, Option.bind_eq_bind, Option.bind_some, hchild', Option.bind_some, hkeys]
      refine ⟨_, rfl, ?_⟩
      rw [List.map_cons, List.map_cons, hpublic, pathPoint_eq hderive,
        BRKey.publicKey_setSecret hsecret]

/-- A chain and an index that are not hardened, behind the public key. -/
theorem pubKey_derive
    [DecidableEq P]
    {chain index : UInt32} {mpk : MasterPubKey}
    (hsecret : curve.seckeyVerify k = true)
    (hchain : isHardened chain = false)
    (hindex : isHardened index = false)
    (hvalid : ValidSteps curve hashes k c [chain, index])
    (hpubKey : mpk.pubKey = curve.pointBytes k)
    (hcode : mpk.chainCode = c)
    (hderive : derive curve hashes k c [chain, index] = some (k', c')) :
    BIP44PubKey curve hashes mpk chain index = curve.pointBytes k' := by
  obtain ⟨node, hnode, hrest⟩ := derive_cons_iff.mp hderive
  obtain ⟨node', hnode', hret⟩ := derive_cons_iff.mp hrest
  cases Option.some.inj hret
  have hsecond := hvalid.2 node.1 node.2 hnode
  obtain ⟨k₁, c₁, hchild, hsecret₁⟩ := CKDpriv_valid hvalid.1
  rw [hnode] at hchild
  cases hchild
  have hpoint := CKDpub_point hsecret hchain hvalid.1 hnode
  have hpoint' := CKDpub_point hsecret₁ hindex hsecond.1 hnode'
  rw [BIP44PubKey, hpubKey, hcode, hpoint]
  dsimp only
  rw [hpoint']

/-! ## The two ladders -/

theorem accountPath_ne_nil
    {coinType account : UInt32} :
    accountPath coinType account ≠ [] :=
  List.cons_ne_nil _ _

/-- The list has the keys of the path m/44'/175'/0'/0/index. -/
theorem privKeyList_derive
    {seed : List UInt8} (coinType : UInt32) {indexes : List UInt32}
    (hvalid : ∀ i ∈ indexes,
      ValidPath44 curve hashes seed bip44BtxCoinType bip44Change bip44Change i) :
    ∃ keys, BIP44PrivKeyList curve hashes seed coinType indexes = some keys ∧
      keys.map (·.publicKey curve) =
        indexes.map (fun i => pathPoint curve hashes (master hashes seed).1 (master hashes seed).2
          (accountPath bip44BtxCoinType bip44Change ++ [bip44Change, i])) := by
  by_cases hnil : indexes = []
  · subst hnil
    exact ⟨[], rfl, rfl⟩
  · obtain ⟨j, hj⟩ := List.exists_mem_of_ne_nil indexes hnil
    obtain ⟨k₃, c₃, hnode, -⟩ := derive_valid (Or.inl accountPath_ne_nil)
      (validSteps_append (hvalid j hj)).1
    obtain ⟨keys, hkeys, hpublic⟩ := bip44Keys_publicKey
      (fun i hi => (validSteps_append (hvalid i hi)).2 k₃ c₃ hnode)
    refine ⟨keys, ?_, ?_⟩
    · obtain ⟨node₁, h₁, hrest⟩ := derive_cons_iff.mp hnode
      obtain ⟨node₂, h₂, hrest⟩ := derive_cons_iff.mp hrest
      obtain ⟨node₃, h₃, hret⟩ := derive_cons_iff.mp hrest
      cases Option.some.inj hret
      rw [BIP44PrivKeyList, if_neg hnil]
      dsimp only
      rw [h₁, Option.bind_eq_bind, Option.bind_some, h₂, Option.bind_some, h₃]
      exact hkeys
    · rw [hpublic]
      refine List.map_congr_left (fun i _ => ?_)
      rw [pathPoint, pathPoint, derive_append hnode]

theorem masterPubKey_exists
    {seed : List UInt8} {coinType account chain index : UInt32}
    (hvalid : ValidPath44 curve hashes seed coinType account chain index) :
    ∃ mpk, BIP44MasterPubKey curve hashes seed account coinType = some mpk := by
  obtain ⟨k₃, c₃, hnode, hsecret⟩ := derive_valid (Or.inl accountPath_ne_nil)
    (validSteps_append hvalid).1
  obtain ⟨mpk, hmpk, -⟩ := accountPath_eq seed account coinType hnode hsecret
  exact ⟨mpk, hmpk⟩

/-- The public keys of a chain that is not hardened belong to the path
m/44'/coinType'/account'/chain/index. -/
theorem masterPubKey_derive
    [DecidableEq P]
    {seed : List UInt8} {coinType account chain index : UInt32} {mpk : MasterPubKey}
    (hmpk : BIP44MasterPubKey curve hashes seed account coinType = some mpk)
    (hchain : isHardened chain = false)
    (hindex : isHardened index = false)
    (hvalid : ValidPath44 curve hashes seed coinType account chain index) :
    BIP44PubKey curve hashes mpk chain index =
      pathPoint curve hashes (master hashes seed).1 (master hashes seed).2
        (accountPath coinType account ++ [chain, index]) := by
  obtain ⟨hsteps, hrest⟩ := validSteps_append hvalid
  obtain ⟨k₃, c₃, hnode, hsecret⟩ := derive_valid (Or.inl accountPath_ne_nil) hsteps
  obtain ⟨k', c', hderive, -⟩ := derive_valid (Or.inl (List.append_ne_nil_of_left_ne_nil accountPath_ne_nil _)) hvalid
  obtain ⟨mpk', hmpk', hpubKey, hcode⟩ := accountPath_eq seed account coinType hnode hsecret
  cases Option.some.inj (hmpk.symm.trans hmpk')
  rw [pathPoint_eq hderive]
  exact pubKey_derive hsecret hchain hindex (hrest k₃ c₃ hnode) hpubKey hcode
    ((derive_append hnode).symm.trans hderive)

variable (curve hashes) in
/-- The public keys of the listed keys are those of the master public key. -/
def KeysAgree [DecidableEq P] (seed : List UInt8) (coinType account chain : UInt32)
    (indexes : List UInt32) : Prop :=
  ∀ mpk, BIP44MasterPubKey curve hashes seed account coinType = some mpk →
    ∃ keys, BIP44PrivKeyList curve hashes seed coinType indexes = some keys ∧
      keys.map (·.publicKey curve) = indexes.map (BIP44PubKey curve hashes mpk chain)

/-- The keys agree whatever the seed, the hashes and the indexes, as long as no
index is hardened and all tweaks are valid. -/
def LayoutAgrees (coinType account chain : UInt32) : Prop :=
  ∀ (P : Type) [AddCommGroup P] [DecidableEq P] (curve : Secp256k1 P) (hashes : KeyHashes)
    (seed : List UInt8) (indexes : List UInt32),
    (∀ i ∈ indexes, isHardened i = false) →
    (∀ i ∈ indexes, ValidPath44 curve hashes seed coinType account chain i) →
    (∀ i ∈ indexes, ValidPath44 curve hashes seed bip44BtxCoinType bip44Change bip44Change i) →
    KeysAgree curve hashes seed coinType account chain indexes

/-- On the path of the list, the keys agree. -/
theorem layoutAgrees_of_path
    {coinType account chain : UInt32}
    (hcoinType : coinType ||| bip32Hard = bip44BtxCoinType ||| bip32Hard)
    (haccount : account ||| bip32Hard = bip44Change ||| bip32Hard)
    (hchain : chain = bip44Change) :
    LayoutAgrees coinType account chain := by
  intro P _ _ curve hashes seed indexes hnormal hvalid hvalid' mpk hmpk
  have hpath : accountPath coinType account = accountPath bip44BtxCoinType bip44Change := by
    rw [accountPath, hcoinType, haccount, accountPath]
  obtain ⟨keys, hkeys, hpublic⟩ := privKeyList_derive coinType hvalid'
  refine ⟨keys, hkeys, ?_⟩
  rw [hpublic]
  refine List.map_congr_left (fun i hi => ?_)
  rw [masterPubKey_derive hmpk (by rw [hchain]; decide) (hnormal i hi) (hvalid i hi), hpath, hchain]

/-! ## Paths that differ -/

/-- Tweaks of one, but for the tweak of two of one child: the chain code counts
the depth. -/
def markedHashes (depth : ℕ) (index : UInt32) : KeyHashes where
  hmacSHA512 key data :=
    if key.length = 32 then
      let marked := LittleEndian.value key = depth ∧
        data.drop 33 = (LittleEndian.bytes 4 index.toNat).reverse
      BitVec.ofNat 256 (LittleEndian.value key + 1) ++ scalarBytes (if marked then 2 else 1)
    else (0 : UInt256) ++ scalarBytes 1
  hash160 _ := 0
  sha256d _ := 0
  testnet := false

/-- The tweak of a child. -/
def markedTweak (depth : ℕ) (index : UInt32) (d : ℕ) (i : UInt32) : ℕ :=
  if d = depth ∧ i = index then 2 else 1

/-- The sum of the tweaks of a path. -/
def markedSum (depth : ℕ) (index : UInt32) : ℕ → List UInt32 → ℕ
  | _, [] => 0
  | d, i :: path => markedTweak depth index d i + markedSum depth index (d + 1) path

theorem markedStep
    (depth : ℕ) (index : UInt32) {n d : ℕ}
    (hpos : 0 < n) (hn : n < 1000) (hd : d < 1000)
    (i : UInt32) :
    ValidChild groupCurve (markedHashes depth index) (scalarBytes n) (BitVec.ofNat 256 d) i ∧
      CKDpriv groupCurve (markedHashes depth index) (scalarBytes n) (BitVec.ofNat 256 d) i =
        some (scalarBytes (n + markedTweak depth index d i), BitVec.ofNat 256 (d + 1)) := by
  have horder : (2000 : ℕ) < groupCurve.order := by decide
  have htop : (2000 : ℕ) < 2 ^ 256 := by norm_num
  have hscalar : scalarValue (scalarBytes n) = n := scalarValue_scalarBytes (by omega)
  have hsecret : groupCurve.seckeyVerify (scalarBytes n) = true := by
    rw [Secp256k1.seckeyVerify_iff, hscalar]
    omega
  obtain ⟨data, hdata, hlen⟩ : ∃ data, childData groupCurve (scalarBytes n) i = some data ∧
      data.length = 33 := by
    rw [childData]
    split
    · exact ⟨_, rfl, by simp⟩
    · exact ⟨_, Secp256k1.pointGen_eq hsecret, groupCurve.length_serialize true _⟩
  have hcode : LittleEndian.value (hashBytes (BitVec.ofNat 256 d)) = d := by
    have hd' : (BitVec.ofNat 256 d).toNat = d := by
      rw [BitVec.toNat_ofNat]
      omega
    rw [hashBytes, LittleEndian.value_bytes (by rw [hd']; omega), hd']
  have hmark : (data ++ (LittleEndian.bytes 4 i.toNat).reverse).drop 33 =
      (LittleEndian.bytes 4 index.toNat).reverse ↔ i = index := by
    rw [← hlen, List.drop_left, List.reverse_inj]
    constructor
    · intro hbytes
      have hvalue := congrArg LittleEndian.value hbytes
      rw [LittleEndian.value_bytes i.toNat_lt, LittleEndian.value_bytes index.toNat_lt] at hvalue
      exact UInt32.toNat_inj.mp hvalue
    · rintro rfl
      rfl
  have hchild : childHash (markedHashes depth index) (BitVec.ofNat 256 d) data i =
      BitVec.ofNat 256 (d + 1) ++ scalarBytes (markedTweak depth index d i) := by
    rw [childHash, markedHashes]
    dsimp only
    rw [if_pos (length_hashBytes _), hcode]
    simp only [hmark, markedTweak]
  have htweak : markedTweak depth index d i = 1 ∨ markedTweak depth index d i = 2 := by
    rw [markedTweak]
    split <;> simp
  have hvalue : scalarValue (scalarBytes (markedTweak depth index d i)) =
      markedTweak depth index d i := scalarValue_scalarBytes (by omega)
  have hadd : groupCurve.BRSecp256k1ModAdd (scalarBytes n)
      (scalarBytes (markedTweak depth index d i)) =
        (scalarBytes (n + markedTweak depth index d i), true) := by
    have hmod : (n + markedTweak depth index d i) % groupCurve.order =
        n + markedTweak depth index d i := Nat.mod_eq_of_lt (by omega)
    rw [Secp256k1.BRSecp256k1ModAdd, Secp256k1.privkeyTweakAdd, hscalar, hvalue, hmod,
      if_pos ⟨by omega, by omega⟩]
  constructor
  · refine ⟨data, hdata, ?_⟩
    rw [hchild, firstHalf, BitVec.extractLsb'_append_eq_right, hadd]
  · rw [CKDpriv, hdata]
    change some _ = _
    rw [hchild, firstHalf, BitVec.extractLsb'_append_eq_right, hadd, secondHalf,
      BitVec.extractLsb'_append_eq_left]

theorem markedPath
    (depth : ℕ) (index : UInt32) (path : List UInt32) {n d : ℕ}
    (hpos : 0 < n) (hn : n + 2 * path.length < 1000) (hd : d + path.length < 1000) :
    ValidSteps groupCurve (markedHashes depth index) (scalarBytes n) (BitVec.ofNat 256 d) path ∧
      derive groupCurve (markedHashes depth index) (scalarBytes n) (BitVec.ofNat 256 d) path =
        some (scalarBytes (n + markedSum depth index d path),
          BitVec.ofNat 256 (d + path.length)) := by
  induction path generalizing n d with
  | nil =>
      refine ⟨trivial, ?_⟩
      rw [derive, markedSum, List.length_nil, Nat.add_zero, Nat.add_zero]
  | cons i path ih =>
      rw [List.length_cons] at hn hd
      obtain ⟨hvalid, hchild⟩ := markedStep depth index (n := n) (d := d)
        hpos (by omega) (by omega) i
      have htweak : markedTweak depth index d i ≤ 2 := by
        rw [markedTweak]
        split <;> omega
      obtain ⟨hsteps, hderive⟩ := ih (n := n + markedTweak depth index d i) (d := d + 1)
        (by omega) (by omega) (by omega)
      refine ⟨⟨hvalid, ?_⟩, ?_⟩
      · intro k' c' h
        obtain ⟨hk, hc⟩ := Prod.mk.inj (Option.some.inj (hchild.symm.trans h))
        rw [← hk, ← hc]
        exact hsteps
      · rw [derive_cons_iff]
        refine ⟨_, hchild, ?_⟩
        rw [hderive, markedSum, List.length_cons, Nat.add_assoc, Nat.add_assoc d,
          Nat.add_comm 1]

theorem markedMaster
    {depth : ℕ} {index : UInt32} (seed : List UInt8) :
    master (markedHashes depth index) seed = (scalarBytes 1, BitVec.ofNat 256 0) := by
  have hhash : (markedHashes depth index).hmacSHA512 bip32SeedKey seed =
      (0 : UInt256) ++ scalarBytes 1 := by
    have hlen : ¬ bip32SeedKey.length = 32 := by decide
    rw [markedHashes]
    dsimp only
    rw [if_neg hlen]
  rw [master, hhash, firstHalf, secondHalf, BitVec.extractLsb'_append_eq_right,
    BitVec.extractLsb'_append_eq_left]
  rfl

theorem pointBytes_groupCurve
    {n m : ℕ}
    (hn : n < 2000) (hm : m < 2000)
    (h : groupCurve.pointBytes (scalarBytes n) = groupCurve.pointBytes (scalarBytes m)) :
    n = m := by
  have hval : ∀ j < 2000, LittleEndian.value (groupCurve.pointBytes (scalarBytes j)).tail = j := by
    intro j hj
    have horder : (2000 : ℕ) < groupOrder := by decide
    have htop : (2000 : ℕ) < 2 ^ 256 := by norm_num
    have hcast : ((j • (1 : ZMod groupOrder)) : ZMod groupOrder).val = j := by
      rw [nsmul_eq_mul, mul_one, ZMod.val_natCast, Nat.mod_eq_of_lt (by omega)]
    rw [Secp256k1.pointBytes, scalarValue_scalarBytes (by omega)]
    change LittleEndian.value (LittleEndian.bytes 32 (j • (1 : ZMod groupOrder)).val) = j
    rw [hcast, LittleEndian.value_bytes (by norm_num; omega)]
  rw [← hval n hn, ← hval m hm, h]

/-- All paths are valid, and end at the sum of their tweaks. -/
theorem markedPath44
    (depth : ℕ) (index : UInt32) (coinType account chain : UInt32) :
    ValidPath44 groupCurve (markedHashes depth index) [] coinType account chain 0 ∧
      pathPoint groupCurve (markedHashes depth index)
        (master (markedHashes depth index) []).1 (master (markedHashes depth index) []).2
        (accountPath coinType account ++ [chain, 0]) =
          groupCurve.pointBytes (scalarBytes (1 +
            markedSum depth index 0 (accountPath coinType account ++ [chain, 0]))) := by
  have hlong : (accountPath coinType account ++ [chain, 0]).length = 5 := rfl
  rw [ValidPath44, markedMaster]
  obtain ⟨hvalid, hderive⟩ := markedPath depth index
    (accountPath coinType account ++ [chain, 0]) (n := 1) (d := 0) (by omega)
    (by rw [hlong]; omega) (by rw [hlong]; omega)
  exact ⟨hvalid, pathPoint_eq hderive⟩

theorem markedSum_le
    (depth : ℕ) (index : UInt32) (d : ℕ) (path : List UInt32) :
    markedSum depth index d path ≤ 2 * path.length := by
  induction path generalizing d with
  | nil =>
      exact Nat.zero_le _
  | cons i path ih =>
      have htweak : markedTweak depth index d i ≤ 2 := by
        rw [markedTweak]
        split <;> omega
      have hrest := ih (d + 1)
      rw [markedSum, List.length_cons]
      omega

/-- What the keys of the layout agree on, with the public key of the first index. -/
theorem layoutAgrees_point
    {coinType account chain : UInt32}
    (h : LayoutAgrees coinType account chain)
    (depth : ℕ) (index : UInt32) :
    ∃ mpk, BIP44MasterPubKey groupCurve (markedHashes depth index) [] account coinType = some mpk ∧
      BIP44PubKey groupCurve (markedHashes depth index) mpk chain 0 =
        groupCurve.pointBytes (scalarBytes (1 + markedSum depth index 0
          (accountPath bip44BtxCoinType bip44Change ++ [bip44Change, 0]))) := by
  obtain ⟨hvalid, -⟩ := markedPath44 depth index coinType account chain
  obtain ⟨hvalid', hpoint'⟩ :=
    markedPath44 depth index bip44BtxCoinType bip44Change bip44Change
  obtain ⟨mpk, hmpk⟩ := masterPubKey_exists hvalid
  obtain ⟨keys, hkeys, hpublic⟩ := h _ groupCurve (markedHashes depth index) [] [0]
    (List.forall_mem_singleton.mpr rfl) (List.forall_mem_singleton.mpr hvalid)
    (List.forall_mem_singleton.mpr hvalid') mpk hmpk
  obtain ⟨keys', hkeys', hpublic'⟩ :=
    privKeyList_derive coinType (List.forall_mem_singleton.mpr hvalid')
  cases Option.some.inj (hkeys.symm.trans hkeys')
  rw [hpublic, List.map_singleton, List.map_singleton, hpoint', List.singleton_inj] at hpublic'
  exact ⟨mpk, hmpk, hpublic'⟩

/-- Where the keys agree, the two paths have the same tweaks. -/
theorem layoutAgrees_sums
    {coinType account chain : UInt32}
    (h : LayoutAgrees coinType account chain)
    (hchain : isHardened chain = false)
    (depth : ℕ) (index : UInt32) :
    markedSum depth index 0 (accountPath coinType account ++ [chain, 0]) =
      markedSum depth index 0
        (accountPath bip44BtxCoinType bip44Change ++ [bip44Change, 0]) := by
  obtain ⟨hvalid, hpoint⟩ := markedPath44 depth index coinType account chain
  obtain ⟨mpk, hmpk, heq⟩ := layoutAgrees_point h depth index
  rw [masterPubKey_derive hmpk hchain rfl hvalid, hpoint] at heq
  have hle := markedSum_le depth index 0
    (accountPath coinType account ++ [chain, 0])
  have hle' := markedSum_le depth index 0
    (accountPath bip44BtxCoinType bip44Change ++ [bip44Change, 0])
  have hlong : ∀ coinType account chain : UInt32,
      (accountPath coinType account ++ [chain, 0]).length = 5 := fun _ _ _ => rfl
  rw [hlong] at hle hle'
  have hsum := pointBytes_groupCurve (by omega) (by omega) heq
  omega

/-- On a hardened chain the public key is that of m/44'/coinType'/account'/0. -/
theorem not_layoutAgrees_hardened
    {coinType account chain : UInt32}
    (hchain : isHardened chain = true) :
    ¬ LayoutAgrees coinType account chain := by
  intro h
  obtain ⟨mpk, hmpk, heq⟩ := layoutAgrees_point h 1000 0
  have hlong : (accountPath coinType account).length = 3 := rfl
  obtain ⟨hsteps, hderive⟩ := markedPath 1000 0 (accountPath coinType account)
    (n := 1) (d := 0) (by omega) (by rw [hlong]; omega)
    (by rw [hlong]; omega)
  rw [show markedSum 1000 0 0 (accountPath coinType account) = 3 from rfl, hlong] at hderive
  have hsecret : groupCurve.seckeyVerify (scalarBytes 4) = true := by
    decide +kernel
  have hnode : derive groupCurve (markedHashes 1000 0) (master (markedHashes 1000 0) []).1
      (master (markedHashes 1000 0) []).2 (accountPath coinType account) =
        some (scalarBytes 4, BitVec.ofNat 256 3) := by
    rw [markedMaster]
    exact hderive
  obtain ⟨mpk', hmpk', hpubKey, hcode⟩ := accountPath_eq [] account coinType hnode hsecret
  cases Option.some.inj (hmpk.symm.trans hmpk')
  obtain ⟨hvalid, hchild⟩ := markedStep 1000 0 (n := 4) (d := 3)
    (by omega) (by omega) (by omega) 0
  have hpoint := CKDpub_point hsecret rfl hvalid hchild
  have hskip : ∀ K c, CKDpub groupCurve (markedHashes 1000 0) K c chain = (K, c) :=
    fun K c => if_neg (by rw [hchain]; decide)
  rw [BIP44PubKey, hskip, hpubKey, hcode] at heq
  dsimp only at heq
  rw [hpoint] at heq
  have hsum := pointBytes_groupCurve (by decide) (by decide) heq
  revert hsum
  decide

/-- The keys of coin type 0 do not agree with its master public key. -/
theorem not_layoutAgrees_bitcoin :
    ¬ LayoutAgrees 0 bip44Change bip44Change := by
  intro h
  have hsums := layoutAgrees_sums h rfl 1 (0 ||| bip32Hard)
  revert hsums
  decide

/-- **Agreement.**  The keys agree exactly on the path m/44'/175'/0'/0. -/
theorem layoutAgrees_iff
    (coinType account chain : UInt32) :
    LayoutAgrees coinType account chain ↔
      coinType ||| bip32Hard = bip44BtxCoinType ||| bip32Hard ∧
        account ||| bip32Hard = bip44Change ||| bip32Hard ∧ chain = bip44Change := by
  constructor
  · intro h
    have hchain : isHardened chain = false := by
      by_contra hhard
      exact not_layoutAgrees_hardened (eq_true_of_ne_false hhard) h
    have hsums := layoutAgrees_sums h hchain
    simp only [accountPath, List.cons_append, List.nil_append, markedSum, markedTweak] at hsums
    refine ⟨?_, ?_, ?_⟩
    · by_contra hne
      have hsum := hsums 1 (coinType ||| bip32Hard)
      simp [Ne.symm hne] at hsum
    · by_contra hne
      have hsum := hsums 2 (account ||| bip32Hard)
      simp [Ne.symm hne] at hsum
    · by_contra hne
      have hsum := hsums 3 chain
      simp [Ne.symm hne] at hsum
  · rintro ⟨hcoinType, haccount, hchain⟩
    exact layoutAgrees_of_path hcoinType haccount hchain

end Bip32

end BreadwalletCore
