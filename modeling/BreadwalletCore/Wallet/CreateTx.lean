import BreadwalletCore.Transaction.Inputs
import BreadwalletCore.Wallet.Addresses

/-!
# Creating transactions

`BRWalletCreateTxForOutputs` with the helpers it calls.  The script codec of
`BRAddress.c` and the order chosen by `BRTransactionShuffleOutputs` are
parameters.
-/

namespace BreadwalletCore

/-- `_txFee`. -/
def txFee (feePerKb : UInt64) (size : Nat) : UInt64 :=
  let standardFee := UInt64.ofNat size * txFeePerKb / 1000
  let fee := (UInt64.ofNat size * feePerKb / 1000 + 99) / 100 * 100
  if fee > standardFee then fee else standardFee

/-- `MIN_FEE_PER_KB`. -/
def minFeePerKb : UInt64 := (txFeePerKb * 1000 + 190) / 191

/-- `BRWalletMinOutputAmount`. -/
def BRWallet.minOutputAmount (w : BRWallet) : UInt64 :=
  let amount := (txMinOutputAmount * w.feePerKb + minFeePerKb - 1) / minFeePerKb
  if amount > txMinOutputAmount then amount else txMinOutputAmount

/-- How the loop over the UTXOs ends. -/
inductive Selection where
  /-- enough inputs, or no more UTXOs -/
  | done (transaction : RawTransaction) (balance feeAmount : UInt64)
  /-- the transaction would be larger than `TX_MAX_SIZE` -/
  | tooLarge (balance feeAmount : UInt64)

/-- The fee after adding a change output, increased to round off the remaining
wallet balance to the nearest 100 satoshi. -/
def roundedFee (w : BRWallet) (amount : UInt64) (size : Nat) : UInt64 :=
  let feeAmount := txFee w.feePerKb (size + txOutputSize)
  if w.balance > amount + feeAmount then
    feeAmount + (w.balance - (amount + feeAmount)) % 100
  else feeAmount

/-- The loop over the UTXOs. -/
def selectUtxos (codec : ScriptCodec) (w : BRWallet) (amount : UInt64) :
    List BRUTXO → RawTransaction → UInt64 → UInt64 → Selection
  | [], transaction, balance, feeAmount => .done transaction balance feeAmount
  | o :: os, transaction, balance, feeAmount =>
      match getTx w.allTx o.hash with
      | none => selectUtxos codec w amount os transaction balance feeAmount
      | some tx =>
          match tx.outputs[o.n.toNat]? with
          | none => selectUtxos codec w amount os transaction balance feeAmount
          | some output =>
              let transaction := transaction.addInput codec tx.txHash o.n
                output.amount output.script txinSequence
              if transaction.size + txOutputSize > txMaxSize then
                .tooLarge balance feeAmount
              else
                let balance := balance + output.amount
                let feeAmount := roundedFee w amount transaction.size
                if balance = amount + feeAmount ∨
                    balance ≥ amount + feeAmount + w.minOutputAmount then
                  .done transaction balance feeAmount
                else selectUtxos codec w amount os transaction balance feeAmount

/-- The part behind the loop: free the transaction or add a change output. -/
def finishTx (codec : ScriptCodec)
    (shuffle : List BRTxOutput → List BRTxOutput) (fuel : Nat) (w : BRWallet)
    (outputs : List BRTxOutput) (amount : UInt64) (transaction : RawTransaction)
    (balance feeAmount : UInt64) :
    Except Fault (Option RawTransaction × BRWallet) :=
  if outputs.length < 1 ∨ balance < amount + feeAmount then .ok (none, w)
  else if balance - (amount + feeAmount) > w.minOutputAmount then
    match w.unusedAddrs fuel 1 true with
    | .error e => .error e
    | .ok (w, addrs) =>
        let script := codec.addressScriptPubKey (addrs.headD [])
        let transaction := transaction.addOutput codec
          (balance - (amount + feeAmount)) script
        .ok (some { transaction with outputs := shuffle transaction.outputs }, w)
  else .ok (some transaction, w)

/-- `BRWalletCreateTxForOutputs`. -/
def BRWallet.createTxForOutputs (codec : ScriptCodec)
    (shuffle : List BRTxOutput → List BRTxOutput) :
    Nat → List BRTxOutput → BRWallet →
      Except Fault (Option RawTransaction × BRWallet)
  | 0, _, _ => .error .outOfFuel
  | fuel + 1, outputs, w =>
      let transaction := outputs.foldl
        (fun t o => t.addOutput codec o.amount o.script) RawTransaction.new
      let amount := (outputs.map BRTxOutput.amount).sum
      let feeAmount := txFee w.feePerKb (transaction.size + txOutputSize)
      match selectUtxos codec w amount w.utxos transaction 0 feeAmount with
      | .done transaction balance feeAmount =>
          finishTx codec shuffle (fuel + 1) w outputs amount transaction balance
            feeAmount
      | .tooLarge balance feeAmount =>
          -- check for sufficient total funds before building a smaller one
          if w.balance < amount + txFee w.feePerKb
              (10 + w.utxos.length * txInputSize +
                (outputs.length + 1) * txOutputSize) then .ok (none, w)
          else
            match outputs.getLast? with
            | none => .error .nullTx
            | some last =>
                if last.amount > amount + feeAmount + w.minOutputAmount - balance then
                  createTxForOutputs codec shuffle fuel
                    (outputs.dropLast ++
                      [{ last with
                         amount := last.amount - (amount + feeAmount - balance) }]) w
                else createTxForOutputs codec shuffle fuel outputs.dropLast w

/-! ## Inputs come from the UTXO set -/

theorem selectUtxos_inputs
    {codec : ScriptCodec} {w : BRWallet} {amount : UInt64}
    {os : List BRUTXO} {transaction t : RawTransaction}
    {balance feeAmount b f : UInt64}
    (hos : ∀ o ∈ os, o ∈ w.utxos)
    (hin : ∀ i ∈ transaction.inputs, i.outpoint ∈ w.utxos)
    (h : selectUtxos codec w amount os transaction balance feeAmount = .done t b f) :
    ∀ i ∈ t.inputs, i.outpoint ∈ w.utxos := by
  induction os generalizing transaction balance feeAmount with
  | nil =>
      cases h
      exact hin
  | cons o os ih =>
      have hos' : ∀ o ∈ os, o ∈ w.utxos :=
        fun p hp => hos p (List.mem_cons_of_mem _ hp)
      rw [selectUtxos] at h
      split at h
      · exact ih hos' hin h
      · rename_i tx htx
        split at h
        · exact ih hos' hin h
        · rename_i output _
          have hin' : ∀ i ∈ (transaction.addInput codec tx.txHash o.n output.amount
              output.script txinSequence).inputs, i.outpoint ∈ w.utxos := by
            intro i hi
            rw [RawTransaction.addInput] at hi
            rcases List.mem_append.mp hi with hi | hi
            · exact hin i hi
            · rw [List.mem_singleton.mp hi]
              have hhash := getTx_hash htx
              simpa [BRTxInput.outpoint, hhash] using hos o (by simp)
          dsimp only at h
          split at h
          · cases h
          · split at h
            · cases h
              exact hin'
            · exact ih hos' hin' h

theorem finishTx_inputs
    {codec : ScriptCodec} {shuffle : List BRTxOutput → List BRTxOutput}
    {fuel : Nat} {w w' : BRWallet} {outputs : List BRTxOutput}
    {amount balance feeAmount : UInt64} {transaction t : RawTransaction}
    (h : finishTx codec shuffle fuel w outputs amount transaction balance feeAmount =
      .ok (some t, w')) :
    t.inputs = transaction.inputs := by
  rw [finishTx] at h
  split at h
  · cases h
  · split at h
    · split at h
      · cases h
      · cases h
        rfl
    · cases h
      rfl

/-- A created transaction only spends elements of `utxos`. -/
theorem createTxForOutputs_inputs
    {codec : ScriptCodec} {shuffle : List BRTxOutput → List BRTxOutput}
    {fuel : Nat} {w w' : BRWallet} {outputs : List BRTxOutput} {t : RawTransaction}
    (h : w.createTxForOutputs codec shuffle fuel outputs = .ok (some t, w')) :
    ∀ i ∈ t.inputs, i.outpoint ∈ w.utxos := by
  induction fuel generalizing outputs with
  | zero =>
      cases h
  | succ fuel ih =>
      rw [BRWallet.createTxForOutputs] at h
      split at h
      · rename_i transaction balance feeAmount hsel
        rw [finishTx_inputs h]
        refine selectUtxos_inputs (fun o ho => ho) ?_ hsel
        -- outputs are added before any input
        have hnone : ∀ (os : List BRTxOutput) (tx : RawTransaction),
            (os.foldl (fun t o => t.addOutput codec o.amount o.script) tx).inputs =
              tx.inputs := by
          intro os
          induction os with
          | nil =>
              intro tx
              rfl
          | cons o os ih =>
              intro tx
              rw [List.foldl_cons, ih]
              rfl
        intro i hi
        rw [hnone] at hi
        cases hi
      · split at h
        · cases h
        · split at h
          · cases h
          · split at h
            · exact ih h
            · exact ih h

end BreadwalletCore
