import BreadwalletCore.Data.LittleEndian
import BreadwalletCore.Wallet.AddressUse

/-!
# The gap limit

`BRWalletUnusedAddrs` with the branch that asks whether the chain has moved in
memory: `array_add` may have allocated a new array, and then `allAddrs`, which
points into the chains, is built anew.  Both branches leave the same set.

The chains of a wallet are the derived addresses in order, so the loop meets
each address once and passes each used one at most once.  This is what bounds
the number of addresses it generates.
-/

namespace BreadwalletCore

open Machine

namespace BRWallet

/-- The end of `BRWalletUnusedAddrs`.  An array that has moved replaces the old
one, and `allAddrs` is cleared and rebuilt from both chains. -/
def keepChain (w : BRWallet) (internal moved : Bool) (addrChain : List Address) : BRWallet :=
  let w' : BRWallet :=
    { w with
      internalChain := if internal then addrChain else w.internalChain
      externalChain := if internal then w.externalChain else addrChain }
  { w' with
    allAddrs :=
      if moved then w'.internalChain.toFinset ∪ w'.externalChain.toFinset
      else w.allAddrs ∪ (addrChain.drop (w.chain internal).length).toFinset }

/-- `BRWalletUnusedAddrs`, where the array of the chain has moved or not. -/
def unusedAddrsAt (fuel gapLimit : Nat) (internal moved : Bool) (w : BRWallet) :
    Except Fault (BRWallet × List Address) :=
  let chain := w.chain internal
  let i := (chain.rdropWhile (fun a => a ∉ w.usedAddrs)).length
  match extendChain (w.masterPubKey.addressAt internal) w.usedAddrs gapLimit fuel chain i with
  | .error e => .error e
  | .ok (addrChain, i) =>
      .ok (w.keepChain internal moved addrChain,
        if i + gapLimit ≤ addrChain.length then (addrChain.drop i).take gapLimit else [])

end BRWallet

/-- Each address of a chain is the one that is derived for its position. -/
structure ChainsDerived (mpk : BRMasterPubKey) (w : BRWallet) : Prop where
  key : w.masterPubKey = mpk
  derived : ∀ internal j address, (w.chain internal)[j]? = some address →
    mpk.addressAt internal (UInt32.ofNat j) = some address

/-- The chains are derived, and `allAddrs` holds the addresses of both. -/
structure Chained (mpk : BRMasterPubKey) (w : BRWallet) : Prop extends ChainsDerived mpk w where
  addrs : w.allAddrs = w.internalChain.toFinset ∪ w.externalChain.toFinset

/-- Derivation succeeds for every index. -/
def Derives (addressAt : UInt32 → Option Address) : Prop :=
  ∀ i, ∃ address, address ≠ [] ∧ addressAt i = some address

/-- Different indices have different addresses. -/
def DerivesApart (addressAt : UInt32 → Option Address) : Prop :=
  ∀ i j, addressAt i = addressAt j → i = j

/-! ## The loop -/

section Loop

variable {addressAt : UInt32 → Option Address} {usedAddrs : Finset Address}
variable {gapLimit fuel : Nat} {chain chain' : List Address} {i i' : Nat}

theorem derived_concat
    {address : Address}
    (hderived : ∀ (j : Nat) (a : Address), chain[j]? = some a →
      addressAt (UInt32.ofNat j) = some a)
    (haddress : addressAt (UInt32.ofNat chain.length) = some address) :
    ∀ (j : Nat) (a : Address), (chain ++ [address])[j]? = some a →
      addressAt (UInt32.ofNat j) = some a := by
  intro j a hget
  rw [List.getElem?_append] at hget
  split at hget
  · exact hderived j a hget
  · rename_i hle
    rw [List.getElem?_singleton] at hget
    split at hget
    · cases hget
      obtain rfl : j = chain.length := by omega
      exact haddress
    · cases hget

theorem extendChain_derived
    (hderived : ∀ (j : Nat) (a : Address), chain[j]? = some a →
      addressAt (UInt32.ofNat j) = some a)
    (h : extendChain addressAt usedAddrs gapLimit fuel chain i = .ok (chain', i')) :
    ∀ (j : Nat) (a : Address), chain'[j]? = some a → addressAt (UInt32.ofNat j) = some a :=
  extendChain_invariant
    (I := fun grown _ => ∀ (j : Nat) (a : Address), grown[j]? = some a →
      addressAt (UInt32.ofNat j) = some a)
    (fun _ _ _ haddress _ hc => derived_concat hc haddress) hderived h

/-- The position that is returned is the one behind the last used address. -/
theorem extendChain_position
    (hi : i = (chain.rdropWhile (fun a => a ∉ usedAddrs)).length)
    (h : extendChain addressAt usedAddrs gapLimit fuel chain i = .ok (chain', i')) :
    i' = (chain'.rdropWhile (fun a => a ∉ usedAddrs)).length := by
  refine extendChain_invariant
    (I := fun c i => i = (c.rdropWhile (fun a => a ∉ usedAddrs)).length)
    (fun c i address _ _ hc => ?_) hi h
  by_cases hused : address ∈ usedAddrs
  · rw [if_pos hused, List.rdropWhile_concat_neg _ _ _ (by simpa using hused)]
    simp
  · rw [if_neg hused, List.rdropWhile_concat_pos _ _ _ (by simpa using hused)]
    exact hc

/-- Where derivation succeeds the loop only ends with the gap filled. -/
theorem extendChain_gap
    (hderives : Derives addressAt)
    (h : extendChain addressAt usedAddrs gapLimit fuel chain i = .ok (chain', i')) :
    i' + gapLimit ≤ chain'.length := by
  induction fuel generalizing chain i with
  | zero =>
      rw [extendChain] at h
      split at h
      · cases h
      · cases h
        omega
  | succ fuel ih =>
      rw [extendChain] at h
      split at h
      · obtain ⟨address, hne, haddress⟩ := hderives (UInt32.ofNat chain.length)
        rw [haddress] at h
        dsimp only at h
        rw [if_neg hne] at h
        exact ih h
      · cases h
        omega

/-- An address that has not been derived yet is not in the chain. -/
theorem derived_notMem
    {address : Address}
    (hapart : DerivesApart addressAt)
    (hderived : ∀ (j : Nat) (a : Address), chain[j]? = some a →
      addressAt (UInt32.ofNat j) = some a)
    (hlt : chain.length < 2 ^ 32)
    (haddress : addressAt (UInt32.ofNat chain.length) = some address) :
    address ∉ chain := by
  intro hmem
  obtain ⟨j, hj, hget⟩ := List.mem_iff_getElem.mp hmem
  have hsame := hderived j address (by rw [List.getElem?_eq_getElem hj, hget])
  have heq := hapart _ _ (hsame.trans haddress.symm)
  have htoNat := congrArg UInt32.toNat heq
  rw [UInt32.toNat_ofNat_of_lt' (lt_trans hj hlt), UInt32.toNat_ofNat_of_lt' hlt] at htoNat
  omega

/-- At most so many addresses are still generated: what is missing of the gap,
and a gap behind each used address that has not been met. -/
def stillGenerated (usedAddrs : Finset Address) (gapLimit : Nat) (chain : List Address)
    (i : Nat) : Nat :=
  i + gapLimit - chain.length + gapLimit * (usedAddrs \ chain.toFinset).card

/-- A new address brings the end nearer. -/
theorem stillGenerated_lt
    {address : Address}
    (hnew : address ∉ chain)
    (hshort : chain.length < i + gapLimit) :
    stillGenerated usedAddrs gapLimit (chain ++ [address])
        (if address ∈ usedAddrs then chain.length + 1 else i) <
      stillGenerated usedAddrs gapLimit chain i := by
  have hset : usedAddrs \ (chain ++ [address]).toFinset =
      (usedAddrs \ chain.toFinset).erase address := by
    ext a
    simp only [Finset.mem_sdiff, List.mem_toFinset, List.mem_append, List.mem_singleton,
      Finset.mem_erase, not_or]
    tauto
  rw [stillGenerated, stillGenerated, hset, List.length_append, List.length_singleton]
  by_cases hused : address ∈ usedAddrs
  · have hcard : ((usedAddrs \ chain.toFinset).erase address).card + 1 =
        (usedAddrs \ chain.toFinset).card :=
      Finset.card_erase_add_one (Finset.mem_sdiff.mpr ⟨hused, by simpa using hnew⟩)
    rw [if_pos hused, ← hcard, Nat.mul_add, Nat.mul_one]
    omega
  · rw [if_neg hused,
      Finset.erase_eq_of_notMem (fun hmem => hused (Finset.mem_sdiff.mp hmem).1)]
    omega

/-- **The loop ends.** -/
theorem extendChain_ends
    (hderives : Derives addressAt)
    (hapart : DerivesApart addressAt)
    (hderived : ∀ (j : Nat) (a : Address), chain[j]? = some a →
      addressAt (UInt32.ofNat j) = some a)
    (hfuel : stillGenerated usedAddrs gapLimit chain i ≤ fuel)
    (hroom : chain.length + stillGenerated usedAddrs gapLimit chain i ≤ 2 ^ 32) :
    ∃ r, extendChain addressAt usedAddrs gapLimit fuel chain i = .ok r := by
  induction fuel generalizing chain i with
  | zero =>
      refine ⟨(chain, i), ?_⟩
      rw [stillGenerated] at hfuel
      rw [extendChain, if_neg (by omega)]
  | succ fuel ih =>
      rw [extendChain]
      by_cases hshort : chain.length < i + gapLimit
      · have hlt : chain.length < 2 ^ 32 := by
          rw [stillGenerated] at hroom
          omega
        obtain ⟨address, hne, haddress⟩ := hderives (UInt32.ofNat chain.length)
        have hnew := derived_notMem hapart hderived hlt haddress
        have hless := @stillGenerated_lt usedAddrs gapLimit chain i address hnew hshort
        rw [if_pos hshort, haddress]
        dsimp only
        rw [if_neg hne]
        refine ih (derived_concat hderived haddress) (by omega) ?_
        rw [List.length_append, List.length_singleton]
        omega
      · exact ⟨(chain, i), if_neg hshort⟩

end Loop

/-! ## The chains of a wallet -/

section Chained

variable {mpk : BRMasterPubKey} {w w' : BRWallet} {fuel gapLimit : Nat}
variable {internal moved : Bool} {addrs : List Address}

/-- It does not matter whether the array has moved. -/
theorem keepChain_growChain
    (hw : w.allAddrs = w.internalChain.toFinset ∪ w.externalChain.toFinset)
    (new : List Address) :
    w.keepChain internal moved (w.chain internal ++ new) = w.growChain internal new := by
  have hmoved : (w.keepChain internal moved (w.chain internal ++ new)).allAddrs =
      w.allAddrs ∪ new.toFinset := by
    cases moved with
    | false =>
        change w.allAddrs ∪ ((w.chain internal ++ new).drop (w.chain internal).length).toFinset = _
        rw [List.drop_left]
    | true =>
        rw [hw]
        cases internal with
        | false =>
            change w.internalChain.toFinset ∪ (w.externalChain ++ new).toFinset = _
            rw [List.toFinset_append, Finset.union_assoc]
        | true =>
            change (w.internalChain ++ new).toFinset ∪ w.externalChain.toFinset = _
            rw [List.toFinset_append, Finset.union_right_comm]
  cases internal <;>
    exact congrArg (fun s => BRWallet.mk w.toLedger _ _ _ _ _ _ _ s) hmoved

theorem unusedAddrsAt_eq
    (hw : w.allAddrs = w.internalChain.toFinset ∪ w.externalChain.toFinset) :
    w.unusedAddrsAt fuel gapLimit internal moved = w.unusedAddrs fuel gapLimit internal := by
  rw [BRWallet.unusedAddrsAt, BRWallet.unusedAddrs]
  cases hextend : extendChain (w.masterPubKey.addressAt internal) w.usedAddrs gapLimit fuel
      (w.chain internal) ((w.chain internal).rdropWhile (fun a => a ∉ w.usedAddrs)).length with
  | error e => rfl
  | ok r =>
      obtain ⟨chain', i⟩ := r
      obtain ⟨new, rfl⟩ := extendChain_prefix hextend
      dsimp only
      rw [keepChain_growChain hw, List.drop_left]

/-- The chain that grows, with its new addresses. -/
theorem chain_newAddrs
    (w : BRWallet)
    (fuel gapLimit : Nat)
    (internal : Bool) :
    w.chain internal ++ w.newAddrs fuel gapLimit internal = w.chain internal ∨
      ∃ i i', extendChain (w.masterPubKey.addressAt internal) w.usedAddrs gapLimit fuel
        (w.chain internal) i =
          .ok (w.chain internal ++ w.newAddrs fuel gapLimit internal, i') := by
  rw [BRWallet.newAddrs]
  split
  · exact .inl (List.append_nil _)
  · rename_i chain' i' hextend
    obtain ⟨new, hnew⟩ := extendChain_prefix hextend
    refine .inr ⟨((w.chain internal).rdropWhile (fun a => a ∉ w.usedAddrs)).length, i', ?_⟩
    rw [← hnew, List.drop_left, hnew]
    exact hextend

theorem chainsDerived_chainInvariant : ChainInvariant (ChainsDerived mpk) where
  congr := by
    intro w w' hw hsame
    refine ⟨hsame.key.trans hw.key, ?_⟩
    intro internal j address hget
    rw [hsame.chains internal] at hget
    exact hw.derived internal j address hget
  grow := by
    intro w fuel gapLimit internal hw
    refine ⟨hw.key, ?_⟩
    intro other j address hget
    have hcases : (w.growChain internal (w.newAddrs fuel gapLimit internal)).chain other =
        if other = internal then w.chain internal ++ w.newAddrs fuel gapLimit internal
        else w.chain other := by
      cases internal <;> cases other <;> rfl
    rw [hcases] at hget
    split at hget
    · rename_i hother
      subst hother
      rcases chain_newAddrs w fuel gapLimit other with
        hsame | ⟨i, i', hextend⟩
      · rw [hsame] at hget
        exact hw.derived other j address hget
      · rw [hw.key] at hextend
        exact extendChain_derived (hw.derived other) hextend j address hget
    · exact hw.derived other j address hget

/-- The chains of every reachable wallet are derived from its key. -/
theorem chainsDerived_of_run
    {fuel : Nat} {t₀ : Int} {txs : List BRTransaction} {w₀ : BRWallet} {calls : List Call}
    {log : List Event}
    (hnew : BRWallet.new fuel t₀ txs mpk = .ok (some w₀))
    (hrun : runCalls fuel w₀ calls = .ok (w, log)) :
    ChainsDerived mpk w := by
  refine chainsDerived_chainInvariant.run (chainsDerived_chainInvariant.new ?_ hnew) hrun
  refine ⟨rfl, ?_⟩
  intro internal j address hget
  cases internal <;> cases hget

theorem chained_chainInvariant : ChainInvariant (Chained mpk) where
  congr := by
    intro w w' hw hsame
    refine ⟨chainsDerived_chainInvariant.congr hw.toChainsDerived hsame, ?_⟩
    rw [hsame.addrs, hw.addrs]
    exact congrArg₂ (fun c d : List Address => c.toFinset ∪ d.toFinset)
      (hsame.chains true).symm (hsame.chains false).symm
  grow := by
    intro w fuel gapLimit internal hw
    refine ⟨chainsDerived_chainInvariant.grow _ _ _ hw.toChainsDerived, ?_⟩
    have hgrown := @keepChain_growChain w internal true hw.addrs (w.newAddrs fuel gapLimit internal)
    rw [← hgrown]
    rfl

theorem chained_of_run
    {fuel : Nat} {t₀ : Int} {txs : List BRTransaction} {w₀ : BRWallet} {calls : List Call}
    {log : List Event}
    (hnew : BRWallet.new fuel t₀ txs mpk = .ok (some w₀))
    (hrun : runCalls fuel w₀ calls = .ok (w, log)) :
    Chained mpk w := by
  refine chained_chainInvariant.run (chained_chainInvariant.new ⟨⟨rfl, ?_⟩, rfl⟩ hnew) hrun
  intro internal j address hget
  cases internal <;> cases hget

/-! ## What is handed out -/

/-- What `BRWalletUnusedAddrs` has done: the chain is longer, and behind its last
used address there is a gap of which the first addresses have been written. -/
structure GapServed (mpk : BRMasterPubKey) (w w' : BRWallet) (gapLimit : Nat) (internal : Bool)
    (addrs : List Address) : Prop where
  ledger : w'.toLedger = w.toLedger
  extended : w.chain internal <+: w'.chain internal
  other : w'.chain (!internal) = w.chain (!internal)
  chained : Chained mpk w'
  gap : gapLimit ≤ (w'.chain internal).length
  free : ∀ a ∈ (w'.chain internal).drop ((w'.chain internal).length - gapLimit),
    a ∉ w.usedAddrs
  count : addrs.length = gapLimit
  written : addrs =
    ((w'.chain internal).drop
      ((w'.chain internal).rdropWhile (fun a => a ∉ w.usedAddrs)).length).take gapLimit
  unused : ∀ a ∈ addrs, a ∉ w.usedAddrs

theorem Chained.unusedAddrs
    (hw : Chained mpk w)
    (hderives : Derives (mpk.addressAt internal))
    (h : w.unusedAddrs fuel gapLimit internal = .ok (w', addrs)) :
    GapServed mpk w w' gapLimit internal addrs := by
  have hchained : Chained mpk w' := by
    obtain rfl := unusedAddrs_ok h
    exact chained_chainInvariant.grow _ _ _ hw
  have hunused := unusedAddrs_unused h
  rw [BRWallet.unusedAddrs] at h
  split at h
  · cases h
  rename_i chain' i hextend
  have hgap := extendChain_gap (hw.key ▸ hderives) hextend
  have hi := extendChain_position rfl hextend
  have hfree := extendChain_unused (trailing_unused _ _) hextend
  obtain ⟨new, hnew⟩ := extendChain_prefix hextend
  rw [if_pos hgap, ← hnew, List.drop_left, hnew] at h
  cases h
  have hchain : (w.growChain internal new).chain internal = chain' := by
    rw [← hnew]
    cases internal <;> rfl
  have hcount : ((chain'.drop i).take gapLimit).length = gapLimit := by
    rw [List.length_take, List.length_drop]
    omega
  refine ⟨rfl, ?_, ?_, hchained, ?_, ?_, hcount, ?_, fun a ha => (hunused a ha).1⟩
  · rw [hchain]
    exact ⟨new, hnew⟩
  · cases internal <;> rfl
  · rw [hchain]
    omega
  · rw [hchain]
    intro a ha
    refine hfree a ?_
    -- the last addresses of the chain are behind its last used one
    have hle : i ≤ chain'.length - gapLimit := by omega
    rw [← Nat.sub_add_cancel hle, Nat.add_comm, ← List.drop_drop] at ha
    exact List.mem_of_mem_drop ha
  · rw [hchain, ← hi]

end Chained

/-- **Gap limit.**  In every state reached from `BRWalletNew`, whether or not the
array of the chain moves, `BRWalletUnusedAddrs` only appends derived addresses
to the chain, keeps `allAddrs` the union of both chains, leaves at least
`gapLimit` unused addresses at the end of the chain and writes the first
`gapLimit` of those behind the last used one.  It returns where the indices of
a chain suffice. -/
theorem run_unusedAddrs
    {fuel : Nat} {t₀ : Int} {w₀ w : BRWallet} {txs : List BRTransaction} {mpk : BRMasterPubKey}
    {calls : List Call} {log : List Event} {gapLimit : Nat} {internal : Bool}
    (hnew : BRWallet.new fuel t₀ txs mpk = .ok (some w₀))
    (hrun : runCalls fuel w₀ calls = .ok (w, log))
    (hderives : Derives (mpk.addressAt internal))
    (hapart : DerivesApart (mpk.addressAt internal))
    (moved : Bool) :
    (∀ bound w' addrs, w.unusedAddrsAt bound gapLimit internal moved = .ok (w', addrs) →
        GapServed mpk w w' gapLimit internal addrs) ∧
      ((w.chain internal).length + gapLimit * (w.usedAddrs.card + 1) ≤ 2 ^ 32 →
        ∀ bound, gapLimit * (w.usedAddrs.card + 1) ≤ bound →
          ∃ w' addrs, w.unusedAddrsAt bound gapLimit internal moved = .ok (w', addrs)) := by
  have hw : Chained mpk w := chained_of_run hnew hrun
  have hderived := hw.derived internal
  rw [Nat.mul_add, Nat.mul_one]
  have hleast : stillGenerated w.usedAddrs gapLimit (w.chain internal)
      ((w.chain internal).rdropWhile (fun a => a ∉ w.usedAddrs)).length ≤
        gapLimit * w.usedAddrs.card + gapLimit := by
    have hprefix := (List.rdropWhile_prefix (fun a => decide (a ∉ w.usedAddrs))
      (l := w.chain internal)).length_le
    have hcard := Nat.mul_le_mul_left gapLimit
      (Finset.card_le_card (Finset.sdiff_subset
        (s := w.usedAddrs) (t := (w.chain internal).toFinset)))
    rw [stillGenerated]
    omega
  refine ⟨fun bound w' addrs h => ?_, fun hroom bound hbound => ?_⟩
  · rw [unusedAddrsAt_eq hw.addrs] at h
    exact hw.unusedAddrs hderives h
  · obtain ⟨r, hr⟩ := extendChain_ends hderives hapart hderived
      (hleast.trans hbound) (by omega)
    rw [BRWallet.unusedAddrsAt, hw.key, hr]
    exact ⟨_, _, rfl⟩

section Sample

/-- Addresses that tell their chain and their index. -/
def wideKey : BRMasterPubKey where
  addressAt internal i := some ((if internal then 2 else 1) :: LittleEndian.bytes 4 i.toNat)

theorem wideKey_derives
    (internal : Bool) :
    Derives (wideKey.addressAt internal) ∧ DerivesApart (wideKey.addressAt internal) := by
  refine ⟨fun i => ⟨_, List.cons_ne_nil _ _, rfl⟩, fun i j h => ?_⟩
  have hbytes := (List.cons.inj (Option.some.inj h)).2
  have hvalue := congrArg LittleEndian.value hbytes
  rw [LittleEndian.value_bytes i.toNat_lt, LittleEndian.value_bytes j.toNat_lt] at hvalue
  exact UInt32.toNat_inj.mp hvalue

/-- A new wallet with these addresses. -/
def wideNew : BRWallet :=
  match BRWallet.new 20 0 [] wideKey with
  | .ok (some w) => w
  | _ => .empty wideKey

theorem run_unusedAddrs_wide :
    BRWallet.new 20 0 [] wideKey = .ok (some wideNew) ∧
      ∃ w' addrs, wideNew.unusedAddrsAt 20 1 true true = .ok (w', addrs) ∧
        GapServed wideKey wideNew w' 1 true addrs := by
  obtain ⟨hserved, hreturns⟩ := @run_unusedAddrs 20 0 wideNew wideNew [] wideKey [] [] 1 true
    rfl rfl (wideKey_derives true).1 (wideKey_derives true).2 true
  have hroom : (wideNew.chain true).length + 1 * (wideNew.usedAddrs.card + 1) ≤ 2 ^ 32 := by
    decide
  obtain ⟨w', addrs, h⟩ := hreturns hroom 20 (by decide)
  exact ⟨rfl, w', addrs, h, hserved 20 w' addrs h⟩

end Sample

end BreadwalletCore
