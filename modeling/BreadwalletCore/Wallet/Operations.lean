import BreadwalletCore.Data.Machine
import BreadwalletCore.Wallet.Addresses
import BreadwalletCore.Wallet.UpdateBalance

/-!
# Wallet operations

The operations of `BRWallet.c` that change `wallet->transactions`, with the
callbacks they make, and the queries about one transaction.

The clock read by `time(NULL)` is an argument `now`.  Recursion over parents or
dependents and the generation of addresses are bounded by an argument `fuel`;
what is stated about them holds for every bound.
-/

namespace BreadwalletCore

/-- `DEFAULT_FEE_PER_KB`. -/
def defaultFeePerKb : UInt64 := (5000 * 1000 + 99) / 100

/-- A callback made by the wallet. -/
inductive Event where
  | balanceChanged (balance : UInt64)
  | txAdded (tx : BRTransaction)
  | txUpdated (txHashes : List UInt256) (blockHeight timestamp : UInt32)
  | txDeleted (txHash : UInt256) (notifyUser recommendRescan : Bool)
deriving DecidableEq

namespace BRWallet

/-! ## Queries -/

/-- `BRWalletTxUnconfirmedBefore`. -/
def txUnconfirmedBefore (w : BRWallet) (blockHeight : UInt32) : List BRTransaction :=
  w.transactions.rtakeWhile (fun t => t.blockHeight ≥ blockHeight)

/-- `BRWalletAmountSentByTx`. -/
def amountSentByTx (w : BRWallet) (tx : BRTransaction) : UInt64 :=
  (tx.inputs.map (fun i =>
    match getTx w.allTx i.txHash with
    | none => 0
    | some t =>
        match t.outputs[i.index.toNat]? with
        | none => 0
        | some o => if o.address ∈ w.allAddrs then o.amount else 0)).sum

/-- `BRWalletBalanceAfterTx`. -/
def balanceAfterTx (w : BRWallet) (tx : BRTransaction) : UInt64 :=
  match (List.range w.transactions.length).reverse.find?
      (fun i => (w.transactions[i]?).any (fun t => t.txHash = tx.txHash)) with
  | some i => w.balanceHist.getD i 0
  | none => w.balance

/-- The check of `BRWalletTransactionIsValid` on the transaction itself. -/
def ownInputsValid (w : BRWallet) (tx : BRTransaction) : Bool :=
  if w.knowsTx tx.txHash then decide (tx.txHash ∉ w.invalidTx)
  else tx.inputs.all (fun i => i.outpoint ∉ w.spentOutputs)

/-- `BRWalletTransactionIsValid`. -/
def transactionIsValid (w : BRWallet) : Nat → BRTransaction → Except Fault Bool
  | 0, _ => .error .outOfFuel
  | fuel + 1, tx =>
      if tx.isUnconfirmed then
        if w.ownInputsValid tx then
          tx.inputs.allM (fun i =>
            match getTx w.allTx i.txHash with
            | none => .ok true
            | some t => transactionIsValid w fuel t)
        else .ok false
      else .ok true

/-- One transaction of the array given to `BRWalletNew`. -/
def loadTx (w : BRWallet) (tx : BRTransaction) : BRWallet :=
  if ! tx.isSigned || w.knowsTx tx.txHash then w
  else
    let w := (w.addTx tx).insertTx tx
    { w with usedAddrs := w.usedAddrs ∪ paidAddrs tx.outputs }

/-- The wallet before any transaction has been loaded. -/
def empty (mpk : BRMasterPubKey) : BRWallet where
  feePerKb := defaultFeePerKb
  masterPubKey := mpk

/-- The two calls of `BRWalletUnusedAddrs` that keep the gap limits. -/
def fillChains (fuel : Nat) (w : BRWallet) : Except Fault BRWallet := do
  let (w, _) ← w.unusedAddrs fuel sequenceGapLimitExternal false
  let (w, _) ← w.unusedAddrs fuel sequenceGapLimitInternal true
  .ok w

/-- `BRWalletNew`. -/
def new (fuel : Nat) (now : Int) (transactions : List BRTransaction)
    (mpk : BRMasterPubKey) : Except Fault (Option BRWallet) := do
  let w ← (transactions.foldl loadTx (empty mpk)).fillChains fuel
  let w ← w.updateBalance now
  match transactions with
  | [] => .ok (some w)
  | tx :: _ => .ok (if w.containsTx tx then some w else none)

/-! ## Operations -/

/-- `BRWalletRegisterTransaction`, with its return value. -/
def registerTransaction (fuel : Nat) (now : Int) (w : BRWallet) (tx : BRTransaction) :
    Except Fault (BRWallet × List Event × Bool) :=
  if tx.isSigned then
    if w.knowsTx tx.txHash then .ok (w, [], true)
    else if w.containsTx tx then do
      let w ← ((w.addTx tx).insertTx tx).updateBalance now
      let w ← w.fillChains fuel
      .ok (w, [.balanceChanged w.balance, .txAdded tx], true)
    else
      -- a refused transaction is kept if it is unconfirmed
      .ok (if tx.isUnconfirmed then w.addTx tx else w, [], false)
  else .ok (w, [], false)

/-- The locals of `BRWalletUpdateTransactions`. -/
structure Sweep where
  wallet : BRWallet
  hashes : List UInt256 := []
  needsUpdate : Bool := false

/-- The loop body of `BRWalletUpdateTransactions`. -/
def updateTx (blockHeight timestamp : UInt32) (s : Sweep) (txHash : UInt256) :
    Except Fault Sweep :=
  match getTx s.wallet.allTx txHash with
  | none => .ok s
  | some tx =>
      if tx.blockHeight = blockHeight ∧ tx.timestamp = timestamp then .ok s
      else
        let w := s.wallet.writeTx (fun h => h = txHash) (·.setBlock blockHeight timestamp)
        let tx := tx.setBlock blockHeight timestamp
        if w.containsTx tx then
          .ok
            { wallet := if w.listsTx txHash then (w.rmTx txHash).insertTx tx else w
              hashes := s.hashes ++ [txHash]
              needsUpdate :=
                s.needsUpdate || txHash ∈ w.pendingTx || txHash ∈ w.invalidTx }
        else if blockHeight ≠ txUnconfirmed then
          -- remove and free confirmed non-wallet transactions
          if w.listsTx txHash then .error (.freedListed txHash)
          else
            .ok
              { s with
                wallet :=
                  { w with allTx := KeyedList.remove (·.txHash) w.allTx txHash } }
        else .ok { s with wallet := w }

/-- `if (blockHeight > wallet->blockHeight) wallet->blockHeight = blockHeight`. -/
def raiseHeight (w : BRWallet) (blockHeight : UInt32) : BRWallet :=
  if blockHeight > w.blockHeight then { w with blockHeight := blockHeight } else w

/-- `BRWalletUpdateTransactions`. -/
def updateTransactions (now : Int) (w : BRWallet) (txHashes : List UInt256)
    (blockHeight timestamp : UInt32) : Except Fault (BRWallet × List Event) := do
  let s ← txHashes.foldlM (updateTx blockHeight timestamp)
    { wallet := w.raiseHeight blockHeight }
  let w ← (if s.needsUpdate then s.wallet.updateBalance now else .ok s.wallet)
  .ok (w, if s.hashes = [] then [] else [.txUpdated s.hashes blockHeight timestamp])

/-- The transactions that `BRWalletSetTxUnconfirmedAfter` marks. -/
def txAfter (w : BRWallet) (blockHeight : UInt32) : List BRTransaction :=
  w.transactions.rtakeWhile (fun t => t.blockHeight > blockHeight)

/-- Mark transactions as unconfirmed, in place. -/
def markUnconfirmed (w : BRWallet) (hashes : List UInt256) : BRWallet :=
  w.writeTx (fun h => h ∈ hashes) (fun t => t.setBlock txUnconfirmed t.timestamp)

/-- `BRWalletSetTxUnconfirmedAfter`. -/
def setTxUnconfirmedAfter (now : Int) (w : BRWallet) (blockHeight : UInt32) :
    Except Fault (BRWallet × List Event) :=
  let w : BRWallet := { w with blockHeight := blockHeight }
  let hashes : List UInt256 := (w.txAfter blockHeight).map (·.txHash)
  if hashes = [] then .ok (w, [])
  else do
    let w ← (w.markUnconfirmed hashes).updateBalance now
    .ok (w, [.txUpdated hashes txUnconfirmed 0])

/-- The transactions that spend from `tx`, from the end of the list, as far as
the scan of `BRWalletRemoveTransaction` goes. -/
def dependents (w : BRWallet) (tx : BRTransaction) : List UInt256 :=
  ((w.transactions.reverse.takeWhile
      (fun t => ¬ t.blockHeight < tx.blockHeight)).filter
    (fun t => t.txHash ≠ tx.txHash ∧ t.inputs.any (fun i => i.txHash = tx.txHash))).map
    (·.txHash)

/-- The flags `notifyUser` and `recommendRescan` of a removed transaction. -/
def removalFlags (fuel : Nat) (w : BRWallet) (tx : BRTransaction) :
    Except Fault (Bool × Bool) :=
  if w.amountSentByTx tx > 0 then do
    let valid ← w.transactionIsValid fuel tx
    if valid then
      .ok (true, tx.inputs.all (fun i =>
        match getTx w.allTx i.txHash with
        | none => false
        | some t => ! t.isUnconfirmed))
    else .ok (false, false)
  else .ok (false, false)

/-- `BRWalletRemoveTransaction`. -/
def removeTransaction (now : Int) :
    Nat → BRWallet → UInt256 → Except Fault (BRWallet × List Event)
  | 0, _, _ => .error .outOfFuel
  | fuel + 1, w, txHash =>
      match getTx w.allTx txHash with
      | none => .ok (w, [])
      | some tx =>
          let hashes := w.dependents tx
          if hashes = [] then do
            let w ← (w.rmTx txHash).updateBalance now
            let (notifyUser, recommendRescan) ← w.removalFlags fuel tx
            .ok (w, [.balanceChanged w.balance,
              .txDeleted txHash notifyUser recommendRescan])
          else
            Machine.run (removeTransaction now fuel) w (hashes.reverse ++ [txHash])

end BRWallet

/-! ## Runs -/

/-- An operation with its arguments. -/
inductive Op where
  | registerTransaction (tx : BRTransaction)
  | updateTransactions (txHashes : List UInt256) (blockHeight timestamp : UInt32)
  | setTxUnconfirmedAfter (blockHeight : UInt32)
  | removeTransaction (txHash : UInt256)
  | unusedAddrs (gapLimit : Nat) (internal : Bool)

/-- A call, with the clock it sees. -/
structure Call where
  now : Int := 0
  op : Op

/-- One call. -/
def step (fuel : Nat) (w : BRWallet) (c : Call) : Except Fault (BRWallet × List Event) :=
  match c.op with
  | .registerTransaction tx => do
      let (w, events, _) ← w.registerTransaction fuel c.now tx
      .ok (w, events)
  | .updateTransactions txHashes blockHeight timestamp =>
      w.updateTransactions c.now txHashes blockHeight timestamp
  | .setTxUnconfirmedAfter blockHeight => w.setTxUnconfirmedAfter c.now blockHeight
  | .removeTransaction txHash => BRWallet.removeTransaction c.now fuel w txHash
  | .unusedAddrs gapLimit internal => do
      let (w, _) ← w.unusedAddrs fuel gapLimit internal
      .ok (w, [])

/-- A sequence of calls, with all the callbacks they make. -/
abbrev runCalls (fuel : Nat) (w : BRWallet) (calls : List Call) :
    Except Fault (BRWallet × List Event) :=
  Machine.run (step fuel) w calls

end BreadwalletCore
