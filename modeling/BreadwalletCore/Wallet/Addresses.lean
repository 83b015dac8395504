import BreadwalletCore.Wallet.State

/-!
# Address chains

`BRWalletUnusedAddrs`: walk a chain to the end of its trailing block of unused
addresses and generate addresses until that block has `gapLimit` of them.

The loop ends when `gapLimit` fresh addresses in a row are unused, so the model
takes a bound on the number of generated addresses and reports `outOfFuel`
when it is reached.
-/

namespace BreadwalletCore

/-- `SEQUENCE_GAP_LIMIT_EXTERNAL`. -/
def sequenceGapLimitExternal : Nat := 10

/-- `SEQUENCE_GAP_LIMIT_INTERNAL`. -/
def sequenceGapLimitInternal : Nat := 5

/-- The loop of `BRWalletUnusedAddrs` that generates new addresses.  `i` is the
position behind the last used address. -/
def extendChain (addressAt : UInt32 → Option Address) (usedAddrs : Finset Address)
    (gapLimit : Nat) : Nat → List Address → Nat → Except Fault (List Address × Nat)
  | 0, chain, i =>
      if chain.length < i + gapLimit then .error .outOfFuel else .ok (chain, i)
  | fuel + 1, chain, i =>
      if chain.length < i + gapLimit then
        match addressAt (UInt32.ofNat chain.length) with
        | none => .ok (chain, i)
        | some address =>
            if address = [] then .ok (chain, i)
            else
              extendChain addressAt usedAddrs gapLimit fuel (chain ++ [address])
                (if address ∈ usedAddrs then chain.length + 1 else i)
      else .ok (chain, i)

namespace BRWallet

/-- The internal or the external chain. -/
def chain (w : BRWallet) (internal : Bool) : List Address :=
  if internal then w.internalChain else w.externalChain

/-- Append addresses to a chain and to `allAddrs`.  Whether the array moved in
memory only decides how `allAddrs` is brought up to date. -/
def growChain (w : BRWallet) (internal : Bool) (new : List Address) : BRWallet :=
  { w with
    internalChain := if internal then w.internalChain ++ new else w.internalChain
    externalChain := if internal then w.externalChain else w.externalChain ++ new
    allAddrs := w.allAddrs ∪ new.toFinset }

/-- `BRWalletUnusedAddrs`, with the addresses it writes to `addrs`. -/
def unusedAddrs (fuel : Nat) (gapLimit : Nat) (internal : Bool) (w : BRWallet) :
    Except Fault (BRWallet × List Address) :=
  let chain := w.chain internal
  let i := (chain.rdropWhile (fun a => a ∉ w.usedAddrs)).length
  match extendChain (w.masterPubKey.addressAt internal) w.usedAddrs gapLimit fuel
      chain i with
  | .error e => .error e
  | .ok (chain', i) =>
      .ok (w.growChain internal (chain'.drop chain.length),
        if i + gapLimit ≤ chain'.length then (chain'.drop i).take gapLimit else [])

/-- The addresses that `BRWalletUnusedAddrs` generates. -/
def newAddrs (fuel : Nat) (gapLimit : Nat) (internal : Bool) (w : BRWallet) :
    List Address :=
  match extendChain (w.masterPubKey.addressAt internal) w.usedAddrs gapLimit fuel
      (w.chain internal)
      ((w.chain internal).rdropWhile (fun a => a ∉ w.usedAddrs)).length with
  | .error _ => []
  | .ok (chain', _) => chain'.drop (w.chain internal).length

end BRWallet

/-- What a call of `BRWalletUnusedAddrs` can change. -/
theorem unusedAddrs_ok
    {fuel gapLimit : Nat} {internal : Bool} {w w' : BRWallet} {addrs : List Address}
    (h : w.unusedAddrs fuel gapLimit internal = .ok (w', addrs)) :
    w' = w.growChain internal (w.newAddrs fuel gapLimit internal) := by
  rw [BRWallet.unusedAddrs] at h
  rw [BRWallet.newAddrs]
  split at h
  · cases h
  · cases h
    rfl

section GrowChain

variable (w : BRWallet) (internal : Bool) (new : List Address)

@[simp] theorem growChain_allAddrs :
    (w.growChain internal new).allAddrs = w.allAddrs ∪ new.toFinset := by
  rfl

end GrowChain

end BreadwalletCore
