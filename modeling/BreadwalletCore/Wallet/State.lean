import BreadwalletCore.Transaction
import BreadwalletCore.Data.KeyedList
import BreadwalletCore.Data.TailScan
import Mathlib.Data.Finset.Basic

/-!
# The wallet structure

`struct BRWalletStruct` of `BRWallet.c` and the helpers that only read it: the
relevance test `_BRWalletContainsTx` and the insertion sort of
`wallet->transactions`.

* The fields written only by `_BRWalletUpdateBalance` form the structure
  `Ledger`.
* `invalidTx`, `pendingTx`, `spentOutputs`, `usedAddrs` and `allAddrs` are only
  asked for membership; they are finite sets of what their equality function
  compares.
* `allTx` is asked for its items, so it is a list keyed by the hash.
* `wallet->transactions` and `allTx` hold pointers to the same objects.  The
  model stores the objects in both places and every write goes through both
  (`BRWallet.writeTx`).
-/

namespace BreadwalletCore

/-- The addresses a master public key derives: chain (true for the internal
one) and index.  `none` where `BRKeySetPubKey` or `BRKeyAddress` fails. -/
structure BRMasterPubKey where
  addressAt : Bool → UInt32 → Option Address

/-- The fields that `_BRWalletUpdateBalance` computes. -/
structure Ledger where
  balance : UInt64 := 0
  totalSent : UInt64 := 0
  totalReceived : UInt64 := 0
  balanceHist : List UInt64 := []
  utxos : List BRUTXO := []
  invalidTx : Finset UInt256 := ∅
  pendingTx : Finset UInt256 := ∅
  spentOutputs : Finset BRUTXO := ∅
  usedAddrs : Finset Address := ∅
deriving DecidableEq

structure BRWallet extends Ledger where
  feePerKb : UInt64
  blockHeight : UInt32 := 0
  transactions : List BRTransaction := []
  masterPubKey : BRMasterPubKey
  internalChain : List Address := []
  externalChain : List Address := []
  allTx : List BRTransaction := []
  allAddrs : Finset Address := ∅

/-- How a call can fail to return: it frees a transaction that is still in
`wallet->transactions`, it dereferences a missing one, or it does not finish
within the given depth. -/
inductive Fault where
  | freedListed (txHash : UInt256)
  | nullTx
  | outOfFuel
deriving DecidableEq, Repr

/-- `BRSetGet` on a set of transactions. -/
abbrev getTx (l : List BRTransaction) (txHash : UInt256) : Option BRTransaction :=
  KeyedList.get (·.txHash) l txHash

theorem getTx_hash
    {l : List BRTransaction} {txHash : UInt256} {tx : BRTransaction}
    (h : getTx l txHash = some tx) :
    tx.txHash = txHash := by
  exact @KeyedList.key_of_get _ _ _ (fun t : BRTransaction => t.txHash) _ _ _ h

theorem mem_of_getTx
    {l : List BRTransaction} {txHash : UInt256} {tx : BRTransaction}
    (h : getTx l txHash = some tx) :
    tx ∈ l :=
  KeyedList.mem_of_get h

/-- The non-empty addresses of some outputs. -/
def paidAddrs (outputs : List BRTxOutput) : Finset Address :=
  ((outputs.map BRTxOutput.address).filter (fun a => a ≠ [])).toFinset

/-- `_txChainIndex`: the last position of the chain that some output pays. -/
def txChainIndex (tx : BRTransaction) (addrChain : List Address) : Option Nat :=
  (List.range addrChain.length).reverse.find?
    (fun i => tx.outputs.any (fun o => addrChain[i]? = some o.address))

/-- `_BRWalletTxIsAscending` with a bound on the recursion depth. -/
def txIsAscendingAux (allTx : List BRTransaction) :
    Nat → BRTransaction → BRTransaction → Bool
  | 0, _, _ => false
  | fuel + 1, tx1, tx2 =>
      if tx1.blockHeight > tx2.blockHeight then true
      else if tx1.blockHeight < tx2.blockHeight then false
      else if tx1.inputs.any (fun i => i.txHash = tx2.txHash) then true
      else if tx2.inputs.any (fun i => i.txHash = tx1.txHash) then false
      else tx1.inputs.any (fun i =>
        match getTx allTx i.txHash with
        | some t => txIsAscendingAux allTx fuel t tx2
        | none => false)

namespace BRWallet

/-- Is a transaction with this hash in `allTx`? -/
def knowsTx (w : BRWallet) (txHash : UInt256) : Bool :=
  (getTx w.allTx txHash).isSome

/-- Is a transaction with this hash in `wallet->transactions`? -/
def listsTx (w : BRWallet) (txHash : UInt256) : Bool :=
  w.transactions.any (fun t => t.txHash = txHash)

/-- `_BRWalletTxIsAscending`.  A call that returns meets no transaction of
`allTx` twice on one path of the recursion, so this depth is enough. -/
def txIsAscending (w : BRWallet) (tx1 tx2 : BRTransaction) : Bool :=
  txIsAscendingAux w.allTx (w.allTx.length + 1) tx1 tx2

/-- `_BRWalletTxCompare`. -/
def txCompare (w : BRWallet) (tx1 tx2 : BRTransaction) : Int :=
  if w.txIsAscending tx1 tx2 then 1
  else if w.txIsAscending tx2 tx1 then -1
  else
    let i := txChainIndex tx1 w.internalChain
    let j := txChainIndex tx2 (if i = none then w.externalChain else w.internalChain)
    let i := if i = none ∧ j ≠ none then txChainIndex tx1 w.externalChain else i
    match i, j with
    | some i, some j => if i = j then 0 else if i > j then 1 else -1
    | _, _ => 0

/-- `_BRWalletInsertTx`. -/
def insertTx (w : BRWallet) (tx : BRTransaction) : BRWallet :=
  { w with
    transactions :=
      TailScan.insert (fun t => 0 < w.txCompare t tx) tx w.transactions }

/-- Does the input spend an output to one of the wallet's addresses? -/
def spendsOwn (w : BRWallet) (input : BRTxInput) : Bool :=
  match getTx w.allTx input.txHash with
  | none => false
  | some t =>
      match t.outputs[input.index.toNat]? with
      | none => false
      | some o => o.address ∈ w.allAddrs

/-- `_BRWalletContainsTx`. -/
def containsTx (w : BRWallet) (tx : BRTransaction) : Bool :=
  tx.outputs.any (fun o => o.address ∈ w.allAddrs) || tx.inputs.any w.spendsOwn

/-- `BRSetAdd(wallet->allTx, tx)`. -/
def addTx (w : BRWallet) (tx : BRTransaction) : BRWallet :=
  { w with allTx := KeyedList.add (·.txHash) w.allTx tx }

/-- A write to the transactions whose hash satisfies `p`, seen through both
`allTx` and `wallet->transactions`. -/
def writeTx (w : BRWallet) (p : UInt256 → Bool) (f : BRTransaction → BRTransaction) :
    BRWallet :=
  { w with
    allTx := KeyedList.modify (·.txHash) p f w.allTx
    transactions := KeyedList.modify (·.txHash) p f w.transactions }

/-- `array_rm` of the last entry with this hash. -/
def rmTx (w : BRWallet) (txHash : UInt256) : BRWallet :=
  { w with
    transactions := KeyedList.eraseLast (·.txHash) w.transactions txHash }

end BRWallet

end BreadwalletCore
