import BreadwalletCore.Key.Bip32
import BreadwalletCore.Transaction.Sign
import BreadwalletCore.Wallet.GapLimit

/-!
# Keys for signing

`BRWalletSignTransaction` looks the addresses of the inputs up in both chains
and derives the keys at the places it finds.  The arrays for the places have
the length of the list of inputs, so an address that stands in a chain twice
can be written behind their end.
-/

namespace BreadwalletCore

open Machine
open Bip32

section Definitions

variable {P : Type} [AddCommGroup P] (curve : Secp256k1 P) (hashes : KeyHashes)

/-- The addresses that a wallet derives from its master public key. -/
def Bip32.MasterPubKey.toWallet [DecidableEq P] (mpk : MasterPubKey) : BRMasterPubKey where
  addressAt internal index :=
    let r := BRKey.setPubKey curve (BRBIP32PubKey curve hashes mpk (sequenceChain internal) index)
    if r.2 then r.1.address curve hashes else none

/-- How `BRWalletSignTransaction` can fail to return. -/
inductive SignFault
  /-- a write behind the end of an array -/
  | invalidWrite
  /-- a key that is derived from bytes that are not set -/
  | uninitialized
  | sign (f : MemoryFault)
deriving DecidableEq, Repr

/-- The positions of an address in a chain, the last one first. -/
def positions (chain : List Address) (address : Address) : List ℕ :=
  (List.range (chain.length % 2 ^ 32)).reverse.filter (fun j => chain[j]? = some address)

/-- The positions of the addresses of the inputs. -/
def inputPositions (chain : List Address) (inputs : List BRTxInput) : List ℕ :=
  inputs.flatMap (fun input => positions chain input.address)

/-- Write positions to an array of the given length. -/
def writeIndexes (inCount : ℕ) (found : List ℕ) : Except SignFault (List UInt32) :=
  if found.length ≤ inCount then .ok (found.map UInt32.ofNat) else .error .invalidWrite

/-- The keys of the positions found in one chain. -/
def chainKeys (seed : List UInt8) (w : BRWallet) (tx : RawTransaction) (internal : Bool) :
    Except SignFault (List BRKey) := do
  let indexes ← writeIndexes tx.inputs.length (inputPositions (w.chain internal) tx.inputs)
  match BRBIP32PrivKeyList curve hashes seed (sequenceChain internal) indexes with
  | some keys => .ok keys
  | none => .error .uninitialized

/-- The array `keys` of `BRWalletSignTransaction`. -/
def signingKeys (seed : List UInt8) (w : BRWallet) (tx : RawTransaction) :
    Except SignFault (List BRKey) := do
  let internalKeys ← chainKeys curve hashes seed w tx true
  let externalKeys ← chainKeys curve hashes seed w tx false
  pure (internalKeys ++ externalKeys)

end Definitions

/-! ## The positions that are found -/

section Positions

variable {chain : List Address} {address : Address} {inputs : List BRTxInput}

theorem mem_positions_iff
    {j : ℕ}
    (hlen : chain.length ≤ 2 ^ 31) :
    j ∈ positions chain address ↔ chain[j]? = some address := by
  rw [positions, List.mem_filter, List.mem_reverse, List.mem_range, decide_eq_true_eq,
    Nat.mod_eq_of_lt (by omega)]
  exact ⟨fun h => h.2, fun h => ⟨List.getElem?_eq_some_iff.mp h |>.1, h⟩⟩

/-- An address that stands in a chain once has one position. -/
theorem length_positions_le
    (hlen : chain.length ≤ 2 ^ 31)
    (hnodup : chain.Nodup) :
    (positions chain address).length ≤ 1 := by
  have hsame : ∀ i ∈ positions chain address, ∀ j ∈ positions chain address, i = j := by
    intro i hi j hj
    rw [mem_positions_iff hlen, List.getElem?_eq_some_iff] at hi hj
    obtain ⟨hi, hgeti⟩ := hi
    obtain ⟨hj, hgetj⟩ := hj
    exact (List.Nodup.getElem_inj_iff hnodup).mp (hgeti.trans hgetj.symm)
  have hrange : (positions chain address).Nodup :=
    (List.nodup_reverse.mpr List.nodup_range).filter _
  rcases hpositions : positions chain address with _ | ⟨i, _ | ⟨j, rest⟩⟩
  · exact Nat.zero_le 1
  · exact Nat.le_refl 1
  · rw [hpositions] at hsame hrange
    have heq := hsame i (by simp) j (by simp)
    exact absurd (heq ▸ List.mem_cons_self) (List.nodup_cons.mp hrange).1

theorem length_inputPositions_le
    (hlen : chain.length ≤ 2 ^ 31)
    (hnodup : chain.Nodup) :
    (inputPositions chain inputs).length ≤ inputs.length := by
  induction inputs with
  | nil =>
      exact Nat.le_refl 0
  | cons input inputs ih =>
      have hone : (positions chain input.address).length ≤ 1 := length_positions_le hlen hnodup
      rw [inputPositions, List.flatMap_cons, List.length_append, List.length_cons]
      rw [inputPositions] at ih
      omega

/-- The positions that are found are positions of the chain. -/
theorem lt_of_mem_inputPositions
    (hlen : chain.length ≤ 2 ^ 31)
    {j : ℕ}
    (hj : j ∈ inputPositions chain inputs) :
    j < chain.length := by
  obtain ⟨input, -, hmem⟩ := List.mem_flatMap.mp hj
  exact (List.getElem?_eq_some_iff.mp ((mem_positions_iff hlen).mp hmem)).1

theorem mem_inputPositions
    (hlen : chain.length ≤ 2 ^ 31)
    {input : BRTxInput}
    (hinput : input ∈ inputs)
    (hmem : input.address ∈ chain) :
    ∃ j ∈ inputPositions chain inputs, chain[j]? = some input.address := by
  obtain ⟨j, hget⟩ := List.mem_iff_getElem?.mp hmem
  exact ⟨j, List.mem_flatMap.mpr ⟨input, hinput, (mem_positions_iff hlen).mpr hget⟩, hget⟩

/-- A position below `2 ^ 31` is no hardened index. -/
theorem isHardened_ofNat
    {j : ℕ}
    (hj : j < 2 ^ 31) :
    isHardened (UInt32.ofNat j) = false := by
  have hand : j &&& 2 ^ 31 = 0 := by
    rw [Nat.and_two_pow, Nat.testBit_lt_two_pow hj]
    rfl
  have hzero : (UInt32.ofNat j &&& bip32Hard).toNat = 0 := by
    rw [UInt32.toNat_and, UInt32.toNat_ofNat_of_lt' (by simp [UInt32.size]; omega)]
    exact hand
  rw [isHardened, decide_eq_false_iff_not, not_not]
  exact UInt32.toNat_inj.mp hzero

theorem isHardened_sequenceChain
    (internal : Bool) :
    isHardened (sequenceChain internal) = false := by
  cases internal <;> decide

end Positions

/-! ## A key for every input -/

section SigningKeys

variable {P : Type} [AddCommGroup P] [DecidableEq P] {curve : Secp256k1 P} {hashes : KeyHashes}
variable {seed : List UInt8} {mpk : MasterPubKey} {w : BRWallet} {tx : RawTransaction}

/-- The chain is short enough for indexes that are not hardened, and all of its
paths are valid. -/
structure ChainValid (curve : Secp256k1 P) (hashes : KeyHashes) (seed : List UInt8)
    (w : BRWallet) (internal : Bool) : Prop where
  length_le : (w.chain internal).length ≤ 2 ^ 31
  paths : ∀ j < (w.chain internal).length,
    ValidPath curve hashes seed (sequenceChain internal) (UInt32.ofNat j)

/-- The keys of the positions that are found. -/
theorem privKeyList_positions
    {internal : Bool}
    (hmpk : BRBIP32MasterPubKey curve hashes seed = some mpk)
    (hvalid : ChainValid curve hashes seed w internal) (inputs : List BRTxInput) :
    ∃ keys, BRBIP32PrivKeyList curve hashes seed (sequenceChain internal)
        ((inputPositions (w.chain internal) inputs).map UInt32.ofNat) = some keys ∧
      (∀ key ∈ keys, key.IsSecret curve) ∧
      keys.map (·.publicKey curve) =
        ((inputPositions (w.chain internal) inputs).map UInt32.ofNat).map
          (BRBIP32PubKey curve hashes mpk (sequenceChain internal)) := by
  have hlt : ∀ j ∈ inputPositions (w.chain internal) inputs, j < (w.chain internal).length :=
    fun j hj => lt_of_mem_inputPositions hvalid.length_le hj
  refine privKeyList_publicKey hmpk (isHardened_sequenceChain internal) ?_ ?_
  · intro i hi
    obtain ⟨j, hj, rfl⟩ := List.mem_map.mp hi
    exact isHardened_ofNat (by have := hlt j hj; have := hvalid.length_le; omega)
  · intro i hi
    obtain ⟨j, hj, rfl⟩ := List.mem_map.mp hi
    exact hvalid.paths j (hlt j hj)

/-- The keys of one chain have the addresses of the inputs in it. -/
theorem chainKeys_address
    {internal : Bool} {keys : List BRKey}
    (hmpk : BRBIP32MasterPubKey curve hashes seed = some mpk)
    (hderived : ChainsDerived (mpk.toWallet curve hashes) w)
    (hvalid : ChainValid curve hashes seed w internal)
    (h : chainKeys curve hashes seed w tx internal = .ok keys)
    {input : BRTxInput}
    (hinput : input ∈ tx.inputs)
    (hmem : input.address ∈ w.chain internal) :
    ∃ key ∈ keys, key.address curve hashes = some input.address := by
  obtain ⟨keys', hkeys, hsecrets, hpublic⟩ := privKeyList_positions hmpk hvalid tx.inputs
  obtain ⟨indexes, hwrite, hret⟩ := bind_eq_ok.mp h
  rw [writeIndexes] at hwrite
  split at hwrite
  · cases hwrite
    rw [hkeys] at hret
    cases hret
    obtain ⟨j, hj, hget⟩ := mem_inputPositions hvalid.length_le hinput hmem
    have hpublicMem : BRBIP32PubKey curve hashes mpk (sequenceChain internal) (UInt32.ofNat j) ∈
        keys.map (·.publicKey curve) := by
      rw [hpublic]
      exact List.mem_map_of_mem (List.mem_map_of_mem hj)
    obtain ⟨key, hkey, heq⟩ := List.mem_map.mp hpublicMem
    have haddress := hderived.derived internal j input.address hget
    change (if (BRKey.setPubKey curve _).2 then _ else none) = some _ at haddress
    rw [← heq] at haddress
    split at haddress
    · rw [BRKey.address_setPubKey (hsecrets key hkey)] at haddress
      exact ⟨key, hkey, haddress⟩
    · cases haddress
  · cases hwrite

theorem chainKeys_returns
    (tx : RawTransaction)
    {internal : Bool}
    (hmpk : BRBIP32MasterPubKey curve hashes seed = some mpk)
    (hvalid : ChainValid curve hashes seed w internal)
    (hnodup : (w.chain internal).Nodup) :
    ∃ keys, chainKeys curve hashes seed w tx internal = .ok keys := by
  obtain ⟨keys, hkeys, -⟩ := privKeyList_positions hmpk hvalid tx.inputs
  refine ⟨keys, ?_⟩
  rw [chainKeys, writeIndexes, if_pos (length_inputPositions_le hvalid.length_le hnodup), ok_bind,
    hkeys]

/-- **Derived keys and derived addresses.**  For a chain and indexes that are not
hardened, the keys derived from the seed have the public keys derived from its
master public key, and signing has a key for every input whose address is in a
chain of the wallet. -/
theorem keys_match_addresses
    (hmpk : BRBIP32MasterPubKey curve hashes seed = some mpk) :
    (∀ chain indexes, isHardened chain = false → (∀ i ∈ indexes, isHardened i = false) →
      (∀ i ∈ indexes, ValidPath curve hashes seed chain i) →
      ∃ keys, BRBIP32PrivKeyList curve hashes seed chain indexes = some keys ∧
        keys.map (·.publicKey curve) = indexes.map (BRBIP32PubKey curve hashes mpk chain)) ∧
    (∀ fuel t₀ txs w₀ calls w log tx,
      BRWallet.new fuel t₀ txs (mpk.toWallet curve hashes) = .ok (some w₀) →
      runCalls fuel w₀ calls = .ok (w, log) →
      (∀ internal, ChainValid curve hashes seed w internal) →
      (∀ keys, signingKeys curve hashes seed w tx = .ok keys →
        ∀ input ∈ tx.inputs, (∃ internal, input.address ∈ w.chain internal) →
          ∃ key ∈ keys, key.address curve hashes = some input.address) ∧
      ((∀ internal, (w.chain internal).Nodup) →
        ∃ keys, signingKeys curve hashes seed w tx = .ok keys)) := by
  refine ⟨?_, ?_⟩
  · intro chain indexes hchain hindexes hvalid
    obtain ⟨keys, hkeys, -, hpublic⟩ := privKeyList_publicKey hmpk hchain hindexes hvalid
    exact ⟨keys, hkeys, hpublic⟩
  · intro fuel t₀ txs w₀ calls w log tx hnew hrun hvalid
    have hderived := chainsDerived_of_run hnew hrun
    refine ⟨?_, ?_⟩
    · rintro keys h input hinput ⟨internal, hmem⟩
      obtain ⟨internalKeys, hinternal, h⟩ := bind_eq_ok.mp h
      obtain ⟨externalKeys, hexternal, hret⟩ := bind_eq_ok.mp h
      cases hret
      cases internal with
      | true =>
          obtain ⟨key, hkey, haddress⟩ :=
            chainKeys_address hmpk hderived (hvalid true) hinternal hinput hmem
          exact ⟨key, List.mem_append_left _ hkey, haddress⟩
      | false =>
          obtain ⟨key, hkey, haddress⟩ :=
            chainKeys_address hmpk hderived (hvalid false) hexternal hinput hmem
          exact ⟨key, List.mem_append_right _ hkey, haddress⟩
    · intro hnodup
      obtain ⟨internalKeys, hinternal⟩ := chainKeys_returns tx hmpk (hvalid true) (hnodup true)
      obtain ⟨externalKeys, hexternal⟩ := chainKeys_returns tx hmpk (hvalid false) (hnodup false)
      refine ⟨internalKeys ++ externalKeys, ?_⟩
      rw [signingKeys, hinternal, ok_bind, hexternal, ok_bind]
      rfl

open RawTransaction (digest digest_signedAll isSigned scriptSig signedAll signedInput signingKey
  sign_eq_ok_iff)

end SigningKeys

/-! ## A wallet with one address -/

/-- The address of the first external key. -/
def sampleAddress : Address :=
  [50, 68, 55, 54, 100, 88, 50, 66, 89, 105, 100, 75, 121, 114, 49, 87, 57, 55, 105, 71, 82, 103,
    52, 104, 75, 111, 101, 115, 65, 68, 119, 72, 68, 121, 0]

/-- A chain that ends before it has enough addresses. -/
theorem unusedAddrs_short
    {w : BRWallet} {fuel gapLimit i : Nat} {internal : Bool} {chain' : List Address}
    (hextend : extendChain (w.masterPubKey.addressAt internal) w.usedAddrs gapLimit fuel
      (w.chain internal) ((w.chain internal).rdropWhile (fun a => a ∉ w.usedAddrs)).length =
        .ok (chain', i))
    (hshort : chain'.length < i + gapLimit) :
    w.unusedAddrs fuel gapLimit internal =
      .ok (w.growChain internal (chain'.drop (w.chain internal).length), []) := by
  rw [BRWallet.unusedAddrs, hextend]
  dsimp only
  rw [if_neg (by omega)]

/-- A new wallet whose key has only this address. -/
theorem new_oneAddress
    {key : BRMasterPubKey} {a : Address}
    (hne : a ≠ [])
    (hfirst : key.addressAt false 0 = some a)
    (hsecond : key.addressAt false 1 = none)
    (hinternal : key.addressAt true 0 = none) :
    ∃ w, BRWallet.new 20 0 [] key = .ok (some w) ∧ w.chain false = [a] ∧ w.chain true = [] := by
  have hexternal : extendChain (key.addressAt false) ∅ sequenceGapLimitExternal 20 [] 0 =
      .ok ([a], 0) := by
    simp [extendChain, sequenceGapLimitExternal, hfirst, hsecond, hne]
  have hnone : extendChain (key.addressAt true) ∅ sequenceGapLimitInternal 20 [] 0 =
      .ok ([], 0) := by
    simp [extendChain, sequenceGapLimitInternal, hinternal]
  have hfill : (BRWallet.empty key).fillChains 20 =
      .ok (((BRWallet.empty key).growChain false [a]).growChain true []) := by
    have hcall : (BRWallet.empty key).unusedAddrs 20 sequenceGapLimitExternal false =
        .ok ((BRWallet.empty key).growChain false [a], []) :=
      unusedAddrs_short hexternal (by simp [sequenceGapLimitExternal])
    have hcall' : ((BRWallet.empty key).growChain false [a]).unusedAddrs 20
        sequenceGapLimitInternal true =
          .ok (((BRWallet.empty key).growChain false [a]).growChain true [], []) :=
      unusedAddrs_short hnone (by simp [sequenceGapLimitInternal])
    rw [BRWallet.fillChains, hcall, ok_bind]
    dsimp only
    rw [hcall', ok_bind]
  rw [BRWallet.new, List.foldl_nil, hfill, ok_bind]
  exact ⟨_, rfl, rfl, rfl⟩

/-- A payment from the address. -/
def samplePayer : RawTransaction where
  txHash := 0
  inputs := [{ txHash := 0, index := 0, address := sampleAddress, signature := none, sequence := 0 }]
  outputs := []

theorem keys_match_addresses_sample :
    (∃ keys, BRBIP32PrivKeyList groupCurve indexHashes [] 0 [0] = some keys ∧
      keys.map (·.publicKey groupCurve) =
        [0].map (BRBIP32PubKey groupCurve indexHashes sampleMasterPubKey 0)) ∧
    ∃ w keys, BRWallet.new 20 0 [] (sampleMasterPubKey.toWallet groupCurve indexHashes) =
        .ok (some w) ∧
      signingKeys groupCurve indexHashes [] w samplePayer = .ok keys ∧
      ∃ key ∈ keys, key.address groupCurve indexHashes = some sampleAddress := by
  have hchild : CKDpriv groupCurve indexHashes (scalarBytes 2) 0 0 = some (scalarBytes 3, 0) := by
    decide +kernel
  have hpath : ValidPath groupCurve indexHashes [] 0 0 := by
    refine validPath_sample (by decide +kernel) ?_
    rintro child h
    rw [hchild] at h
    cases h
    decide +kernel
  obtain ⟨hpublic, hsign⟩ := keys_match_addresses sampleMasterPubKey_eq
  obtain ⟨w, hnew, hexternal, hinternal⟩ := @new_oneAddress
    (sampleMasterPubKey.toWallet groupCurve indexHashes) sampleAddress (by decide)
    (by decide +kernel) (by decide +kernel) (by decide +kernel)
  have hvalid : ∀ internal, ChainValid groupCurve indexHashes [] w internal := by
    intro internal
    cases internal with
    | true =>
        exact ⟨by simp [hinternal], by simp [hinternal]⟩
    | false =>
        refine ⟨by simp [hexternal], ?_⟩
        intro j hj
        rw [hexternal, List.length_singleton, Nat.lt_one_iff] at hj
        subst hj
        exact hpath
  obtain ⟨hkeys, hreturns⟩ := hsign 20 0 [] w [] w [] samplePayer hnew rfl hvalid
  obtain ⟨keys, h⟩ := hreturns (by
    intro internal
    cases internal
    · simp [hexternal]
    · simp [hinternal])
  exact ⟨hpublic 0 [0] rfl (List.forall_mem_singleton.mpr rfl) (by simpa using hpath), w, keys,
    hnew, h, hkeys keys h _ List.mem_cons_self ⟨false, by simp [hexternal]⟩⟩

end BreadwalletCore
