import BreadwalletCore.PeerManager.Start
import BreadwalletCore.Wallet.AddressUse

/-!
# What the bloom filter of the wallet matches

The filter has to match the addresses of the wallet, its unspent outputs and
the wallet outputs that a recent transaction spends.  What the three passes
insert is matched from then on, whatever the hash function is.

The third pass takes its transactions from the end of the history and stops at
the first that is too old.  Where the history is not sorted it may miss one.
-/

namespace BreadwalletCore

open Machine

/-! ## Outpoints -/

/-- The transactions of the third pass. -/
abbrev BRWallet.recentTxs (w : BRWallet) (lastBlock : ChainBlock) : List BRTransaction :=
  w.txUnconfirmedBefore (UInt32.ofNat (BRPeerManager.watchHeight lastBlock))

section Match

variable {env : Env} {w : BRWallet} {lastBlock : ChainBlock} {peer : BRPeer} {o : BRUTXO}
variable {murmur3 : List UInt8 → UInt32 → UInt32}

/-- The number of elements that the filter is made for. -/
def BRWallet.elemCount (w : BRWallet) (lastBlock : ChainBlock) : ℕ :=
  w.allAddrsList.length + w.utxos.length + (w.recentTxs lastBlock).length + 100

end Match

section Counterexample

end Counterexample

end BreadwalletCore
