import BreadwalletCore.Wallet.State

/-!
# `_BRWalletUpdateBalance`

The pass over `wallet->transactions` that recomputes the ledger.

Every `+=` and `-=` on a `uint64_t` goes through a parameter `Arith`, so that
the same loop can be run with the machine's wrapping arithmetic (the code) and
with arithmetic that refuses to wrap (to say that no step wraps).  The loop
returns `none` where the code would follow a null or out of range pointer.
-/

namespace BreadwalletCore

/-- 64 bit addition and subtraction. -/
structure Arith where
  add : UInt64 → UInt64 → Option UInt64
  sub : UInt64 → UInt64 → Option UInt64

/-- Arithmetic modulo `2 ^ 64`, as the code has it. -/
def Arith.wrapping : Arith where
  add a b := some (a + b)
  sub a b := some (a - b)

@[simp] theorem Arith.wrapping_add
    (a b : UInt64) :
    Arith.wrapping.add a b = some (a + b) := by
  rfl

@[simp] theorem Arith.wrapping_sub
    (a b : UInt64) :
    Arith.wrapping.sub a b = some (a - b) := by
  rfl

/-- The same arithmetic, undefined where the result wraps. -/
def Arith.checked : Arith where
  add a b := if a.toNat + b.toNat < 2 ^ 64 then some (a + b) else none
  sub a b := if b ≤ a then some (a - b) else none

/-- The loop state: the ledger, with the local `balance` in the place of
`wallet->balance`, and the local `prevBalance`. -/
structure Pass extends Ledger where
  prevBalance : UInt64 := 0

/-- An input of `tx` is in `spentOutputs`, or comes from a transaction in
`invalidTx`. -/
def isInvalid (spentOutputs : Finset BRUTXO) (invalidTx : Finset UInt256)
    (tx : BRTransaction) : Bool :=
  tx.inputs.any (fun i => i.outpoint ∈ spentOutputs || i.txHash ∈ invalidTx)

/-- The rules on one input that make a transaction pending by itself:
replace-by-fee, a lock height in the future, a lock time in the future. -/
def inputIsPending (now : Int) (blockHeight : UInt32) (tx : BRTransaction)
    (input : BRTxInput) : Bool :=
  input.sequence < txinSequence - 1 ||
    (input.sequence < txinSequence && tx.lockTime < txMaxLockHeight &&
      tx.lockTime > blockHeight + 1) ||
    (input.sequence < txinSequence && (tx.lockTime.toNat : Int) > now)

/-- Some output is below `TX_MIN_OUTPUT_AMOUNT`. -/
def hasDust (tx : BRTransaction) : Bool :=
  tx.outputs.any (fun o => o.amount < txMinOutputAmount)

/-- The pending check of the pass. -/
def isPending (now : Int) (blockHeight : UInt32) (pendingTx : Finset UInt256)
    (tx : BRTransaction) : Bool :=
  txMaxSize < tx.size || hasDust tx ||
    tx.inputs.any (fun i =>
      inputIsPending now blockHeight tx i || i.txHash ∈ pendingTx)

/-- Add one output to the used addresses and, if it is the wallet's, to the
UTXO set. -/
def addOutput (ar : Arith) (allAddrs : Finset Address) (txHash : UInt256)
    (j : Nat) (o : BRTxOutput) (s : Pass) : Option Pass :=
  if o.address = [] then some s
  else
    let s := { s with usedAddrs := insert o.address s.usedAddrs }
    if o.address ∈ allAddrs then do
      let balance ← ar.add s.balance o.amount
      some
        { s with
          utxos := s.utxos ++ [⟨txHash, UInt32.ofNat j⟩]
          balance := balance }
    else some s

/-- The loop over the outputs, from index `j` on. -/
def addOutputs (ar : Arith) (allAddrs : Finset Address) (txHash : UInt256) :
    Nat → List BRTxOutput → Pass → Option Pass
  | _, [], s => some s
  | j, o :: os, s => do
      let s ← addOutput ar allAddrs txHash j o s
      addOutputs ar allAddrs txHash (j + 1) os s

/-- Check the entire UTXO set against the spent outputs, from its end. -/
def pruneSpent (ar : Arith) (allTx : List BRTransaction)
    (spentOutputs : Finset BRUTXO) :
    List BRUTXO → UInt64 → Option (List BRUTXO × UInt64)
  | [], balance => some ([], balance)
  | o :: os, balance => do
      let (os', balance) ← pruneSpent ar allTx spentOutputs os balance
      if o ∈ spentOutputs then do
        let t ← getTx allTx o.hash
        let output ← t.outputs[o.n.toNat]?
        let balance ← ar.sub balance output.amount
        some (os', balance)
      else some (o :: os', balance)

/-- `if (low < high) sum += high - low`, the shape of both running totals. -/
def accrue (ar : Arith) (low high sum : UInt64) : Option UInt64 :=
  if low < high then do
    let d ← ar.sub high low
    ar.add sum d
  else some sum

/-- What the loop body does with a transaction that is neither invalid nor
pending, after its inputs have been added to the spent outputs. -/
def countTx (ar : Arith) (w : BRWallet) (tx : BRTransaction) (s : Pass) :
    Option Pass := do
  let s ← addOutputs ar w.allAddrs tx.txHash 0 tx.outputs s
  let (utxos, balance) ← pruneSpent ar w.allTx s.spentOutputs s.utxos s.balance
  let totalReceived ← accrue ar s.prevBalance balance s.totalReceived
  let totalSent ← accrue ar balance s.prevBalance s.totalSent
  some
    { s with
      utxos := utxos
      balance := balance
      totalReceived := totalReceived
      totalSent := totalSent
      balanceHist := s.balanceHist ++ [balance]
      prevBalance := balance }

/-- The loop body. -/
def passTx (ar : Arith) (now : Int) (w : BRWallet) (s : Pass)
    (tx : BRTransaction) : Option Pass :=
  if tx.isUnconfirmed && isInvalid s.spentOutputs s.invalidTx tx then
    some
      { s with
        invalidTx := insert tx.txHash s.invalidTx
        balanceHist := s.balanceHist ++ [s.balance] }
  else
    let s := { s with spentOutputs := s.spentOutputs ∪ tx.outpoints.toFinset }
    if tx.isUnconfirmed && isPending now w.blockHeight s.pendingTx tx then
      some
        { s with
          pendingTx := insert tx.txHash s.pendingTx
          balanceHist := s.balanceHist ++ [s.balance] }
    else countTx ar w tx s

/-- The loop over a list of transactions, from a cleared ledger. -/
def passTxs (ar : Arith) (now : Int) (w : BRWallet)
    (txs : List BRTransaction) : Option Pass :=
  txs.foldlM (passTx ar now w) {}

/-- `_BRWalletUpdateBalance` over a given arithmetic. -/
def BRWallet.updateBalanceWith (ar : Arith) (now : Int) (w : BRWallet) :
    Option BRWallet := do
  let s ← passTxs ar now w w.transactions
  some { w with toLedger := s.toLedger }

/-- `_BRWalletUpdateBalance`. -/
def BRWallet.updateBalance (now : Int) (w : BRWallet) : Except Fault BRWallet :=
  match w.updateBalanceWith .wrapping now with
  | some w' => .ok w'
  | none => .error .nullTx

end BreadwalletCore
