import BreadwalletCore.PeerManager.State
import BreadwalletCore.Wallet.History

/-!
# The bloom filter of the wallet

`_BRPeerManagerLoadBloomFilter` of `BRPeerManager.c`, and which data the filter
it installs matches.
-/

namespace BreadwalletCore

/-- The 36 bytes of an outpoint. -/
def outpointBytes (o : BRUTXO) : List UInt8 :=
  hashBytes o.hash ++ LittleEndian.bytes 4 o.n.toNat

namespace BRWallet

/-- `BRWalletAllAddrs`. -/
def allAddrsList (w : BRWallet) : List Address :=
  w.internalChain ++ w.externalChain

/-- The wallet outputs that a transaction spends. -/
def spentOutpoints (w : BRWallet) (tx : BRTransaction) : List BRUTXO :=
  (tx.inputs.filter w.spendsOwn).map BRTxInput.outpoint

end BRWallet

namespace Env

variable (env : Env)

/-- The hash of an address, where it is watched. -/
def watchedHash (address : Address) : Option (List UInt8) :=
  let hash := (env.addressHash160 address).getD 0
  if hash = 0 then none else some (LittleEndian.bytes 20 hash.toNat)

/-- The data that the three passes put into the filter, in order. -/
def filterData (w : BRWallet) (transactions : List BRTransaction) : List (List UInt8) :=
  w.allAddrsList.filterMap env.watchedHash ++ w.utxos.map outpointBytes ++
    transactions.flatMap (fun tx => (w.spentOutpoints tx).map outpointBytes)

/-- `BRBloomFilterNew` for the given numbers of elements. -/
def newFilter (elemCount : ℕ) (peer : BRPeer) : BRBloomFilter :=
  .new (env.filterLength elemCount) (env.filterHashFuncs elemCount) (env.peerHash peer)
    bloomUpdateAll

end Env

namespace BRPeerManager

/-- The oldest height whose spent outputs are watched. -/
def watchHeight (lastBlock : ChainBlock) : ℕ :=
  if 100 < lastBlock.height then lastBlock.height - 100 else 0

/-- The two calls that generate spare addresses. -/
def spareAddrs (env : Env) (w : BRWallet) : Except Fault BRWallet := do
  let (w, _) ← w.unusedAddrs env.fuel (sequenceGapLimitExternal + 100) false
  let (w, _) ← w.unusedAddrs env.fuel (sequenceGapLimitInternal + 100) true
  pure w

/-- `_BRPeerManagerLoadBloomFilter`. -/
def loadBloomFilter (env : Env) (m : BRPeerManager) (peer : BRPeer) :
    Except ManagerFault BRPeerManager := do
  let w ← callWallet (spareAddrs env m.wallet)
  let lastBlock ← m.last
  let transactions := w.txUnconfirmedBefore (UInt32.ofNat (watchHeight lastBlock))
  let elemCount := w.allAddrsList.length + w.utxos.length + transactions.length + 100
  let filter := (env.filterData w transactions).foldl
    (BRBloomFilter.insertMissing env.murmur3) (env.newFilter elemCount peer)
  pure
    { m with
      wallet := w
      orphans := []
      freed := m.orphans.map (·.addr) ++ m.freed
      lastOrphan := none
      bloomFilter := some filter }

end BRPeerManager

end BreadwalletCore
