import BreadwalletCore.Transaction.Sign
import BreadwalletCore.Wallet.AddressUse
import BreadwalletCore.Wallet.Fees

/-!
# Created transactions

What `BRWalletCreateTxForOutputs` returns when it does not call itself.  Its
inputs, its outputs and its fee are those of the request, but an input looks
signed with a signature of no bytes, has the sequence number zero and is counted
with 41 bytes in the fee.
-/

namespace BreadwalletCore

/-- What an output pays, without the address that its script stands for. -/
def BRTxOutput.payment (o : BRTxOutput) : UInt64 × List UInt8 :=
  (o.amount, o.script)

/-- `BRTransactionShuffleOutputs`.  The number that `BRRand` returns in a round
is a parameter. -/
def shuffleOutputs (rand : ℕ → ℕ) (outputs : List BRTxOutput) : List BRTxOutput :=
  (List.range (outputs.length - 1)).foldl (fun os i => os.swap i (i + rand i)) outputs

theorem shuffleOutputs_perm
    (rand : ℕ → ℕ) (outputs : List BRTxOutput) :
    (shuffleOutputs rand outputs).Perm outputs := by
  have hrounds : ∀ (rounds : List ℕ) (os : List BRTxOutput),
      (rounds.foldl (fun os i => os.swap i (i + rand i)) os).Perm os := by
    intro rounds
    induction rounds with
    | nil =>
        intro os
        exact List.Perm.refl _
    | cons i rounds ih =>
        intro os
        exact (ih _).trans (List.swap_perm _ _ _)
  exact hrounds _ _

/-- The transaction before the loop over the UTXOs. -/
def requestTx (codec : ScriptCodec) (outputs : List BRTxOutput) : RawTransaction :=
  RawTransaction.copyOutputs codec outputs RawTransaction.new

/-- The loop over the UTXOs for a request. -/
def BRWallet.selection (codec : ScriptCodec) (w : BRWallet) (outputs : List BRTxOutput) :
    Selection :=
  selectUtxos codec w (outputs.map BRTxOutput.amount).sum w.utxos (requestTx codec outputs) 0
    (txFee w.feePerKb ((requestTx codec outputs).size + txOutputSize))

/-- The call does not reach the branch in which it calls itself. -/
def Direct (codec : ScriptCodec) (w : BRWallet) (outputs : List BRTxOutput) : Prop :=
  ∃ transaction balance feeAmount,
    w.selection codec outputs = .done transaction balance feeAmount

/-- All amounts and fees together are below `2 ^ 64`, for every number of inputs,
and the standard fee of the request does not wrap. -/
structure AmountsFit (w : BRWallet) (outputs : List BRTxOutput) : Prop where
  standard : (sizeFor outputs bareInputSize 0 + txOutputSize) * 10000 < 2 ^ 64
  total : ∀ n, n ≤ w.utxos.length → outputTotal outputs + w.coinTotal +
    (txFee w.feePerKb (sizeFor outputs bareInputSize n + txOutputSize)).toNat + 100 +
      w.minOutputAmount.toNat < 2 ^ 64

/-- A change output that is worth its fee, to the internal address that
`BRWalletUnusedAddrs` writes. -/
def IsChange (codec : ScriptCodec) (fuel : Nat) (w w' : BRWallet) (c : UInt64 × List UInt8) :
    Prop :=
  w.minOutputAmount.toNat < c.1.toNat ∧
    ∃ addrs, w.unusedAddrs fuel 1 true = .ok (w', addrs) ∧
      (∀ a ∈ addrs, a ∉ w.usedAddrs ∧ a ∈ w'.internalChain) ∧
      c.2 = codec.addressScriptPubKey (addrs.headD [])

/-- The answer to a request: which inputs and outputs it has, and between which
bounds its fee is.  The signature and the sequence number of the inputs and the
size that is counted for an input are left open. -/
structure CreatedAs (codec : ScriptCodec) (fuel : Nat) (w w' : BRWallet)
    (outputs : List BRTxOutput) (signature : Option (List UInt8)) (sequence : UInt32)
    (perInput : ℕ) (t : RawTransaction) : Prop where
  outpoints : t.outpoints.Sublist w.utxos
  spent : ∀ i ∈ t.inputs, ∃ o, w.spentOutput i.outpoint = some o ∧
    i.amount = o.amount ∧ i.script = some o.script
  unsigned : ∀ i ∈ t.inputs, i.signature = signature ∧ i.sequence = sequence
  payments : ∃ change, change.length ≤ 1 ∧
    (t.outputs.map BRTxOutput.payment).Perm (outputs.map BRTxOutput.payment ++ change) ∧
    ∀ c ∈ change, IsChange codec fuel w w' c
  fee_le : outputTotal t.outputs +
      (txFee w.feePerKb (sizeFor outputs perInput t.inputs.length + txOutputSize)).toNat ≤
    (t.inputs.map (fun i => i.amount.toNat)).sum
  lt_fee : (t.inputs.map (fun i => i.amount.toNat)).sum < outputTotal t.outputs +
    (txFee w.feePerKb (sizeFor outputs perInput t.inputs.length + txOutputSize)).toNat + 100 +
      w.minOutputAmount.toNat + 1

section Request

variable {codec : ScriptCodec} {shuffle : List BRTxOutput → List BRTxOutput} {fuel : Nat}
  {w w' : BRWallet} {outputs : List BRTxOutput} {t : RawTransaction}

theorem requestTx_inputs :
    (requestTx codec outputs).inputs = [] := by
  rw [requestTx, RawTransaction.copyOutputs_eq]
  rfl

theorem requestTx_payments :
    (requestTx codec outputs).outputs.map BRTxOutput.payment =
      outputs.map BRTxOutput.payment := by
  rw [requestTx, RawTransaction.copyOutputs_eq]
  simp [RawTransaction.new, BRTxOutput.payment, Function.comp_def]

theorem sizeFor_congr
    {outputs outputs' : List BRTxOutput} {perInput n : ℕ}
    (h : outputs'.map BRTxOutput.payment = outputs.map BRTxOutput.payment) :
    sizeFor outputs' perInput n = sizeFor outputs perInput n := by
  have hlength : outputs'.length = outputs.length := by
    simpa using congrArg List.length h
  have hsizes := congrArg
    (List.map (fun p : UInt64 × List UInt8 => 8 + varIntSize p.2.length + p.2.length)) h
  rw [List.map_map, List.map_map] at hsizes
  rw [sizeFor, sizeFor, hlength]
  exact congrArg _ (congrArg List.sum hsizes)

theorem outputTotal_eq
    (outputs : List BRTxOutput) :
    outputTotal outputs = ((outputs.map BRTxOutput.payment).map (fun p => p.1.toNat)).sum := by
  rw [outputTotal, List.map_map]
  rfl

theorem size_requestTx
    (codec : ScriptCodec) (outputs : List BRTxOutput) (coins : List (BRUTXO × BRTxOutput)) :
    (withCoins codec (requestTx codec outputs) coins).size =
      sizeFor outputs bareInputSize coins.length := by
  rw [size_withCoins requestTx_inputs, sizeFor_congr requestTx_payments]

/-- A call that does not recurse returns what comes behind its loop. -/
theorem createTxForOutputs_direct
    {transaction : RawTransaction} {balance feeAmount : UInt64}
    (h : w.selection codec outputs = .done transaction balance feeAmount) :
    w.createTxForOutputs codec shuffle (fuel + 1) outputs =
      finishTx codec shuffle (fuel + 1) w outputs (outputs.map BRTxOutput.amount).sum transaction
        balance feeAmount := by
  have hselect : selectUtxos codec w (outputs.map BRTxOutput.amount).sum w.utxos
      (outputs.foldl (fun t o => t.addOutput codec o.amount o.script) RawTransaction.new) 0
      (txFee w.feePerKb ((outputs.foldl (fun t o => t.addOutput codec o.amount o.script)
        RawTransaction.new).size + txOutputSize)) = .done transaction balance feeAmount := h
  rw [BRWallet.createTxForOutputs, hselect]

/-- How a transaction comes out of the part behind the loop. -/
theorem finishTx_cases
    {transaction : RawTransaction} {amount balance feeAmount : UInt64}
    (h : finishTx codec shuffle fuel w outputs amount transaction balance feeAmount =
      .ok (some t, w')) :
    amount + feeAmount ≤ balance ∧
      ((balance - (amount + feeAmount) ≤ w.minOutputAmount ∧ t = transaction) ∨
        ∃ addrs, w.unusedAddrs fuel 1 true = .ok (w', addrs) ∧
          w.minOutputAmount < balance - (amount + feeAmount) ∧
          t = { transaction with
            outputs := shuffle (transaction.addOutput codec (balance - (amount + feeAmount))
              (codec.addressScriptPubKey (addrs.headD []))).outputs }) := by
  rw [finishTx] at h
  split at h
  · cases h
  · rename_i hfunds
    have hle : amount + feeAmount ≤ balance :=
      UInt64.not_lt.mp (fun hlt => hfunds (Or.inr hlt))
    split at h
    · rename_i hchange
      split at h
      · cases h
      · rename_i addrs haddrs
        cases h
        exact ⟨hle, Or.inr ⟨addrs, haddrs, hchange, rfl⟩⟩
    · rename_i hchange
      cases h
      exact ⟨hle, Or.inl ⟨UInt64.not_lt.mp hchange, rfl⟩⟩

variable {coins : List (BRUTXO × BRTxOutput)} {transaction : RawTransaction} {b f : UInt64}

/-- The coins that the loop for a request has added. -/
abbrev ChosenFor (codec : ScriptCodec) (w : BRWallet) (outputs : List BRTxOutput)
    (transaction : RawTransaction) (b f : UInt64) (coins : List (BRUTXO × BRTxOutput)) : Prop :=
  Chosen codec w (outputs.map BRTxOutput.amount).sum w.utxos (requestTx codec outputs) 0
    (txFee w.feePerKb ((requestTx codec outputs).size + txOutputSize)) transaction b f coins

theorem amount_toNat
    (hfit : AmountsFit w outputs) :
    (outputs.map BRTxOutput.amount).sum.toNat = outputTotal outputs := by
  have htotal := hfit.total 0 (Nat.zero_le _)
  have hmap : (outputs.map BRTxOutput.amount).map UInt64.toNat =
      outputs.map (fun o => o.amount.toNat) := by
    rw [List.map_map]
    rfl
  rw [toNat_sum (by rw [hmap, ← outputTotal]; omega), hmap, outputTotal]

theorem ChosenFor.length_le
    (h : ChosenFor codec w outputs transaction b f coins) :
    coins.length ≤ w.utxos.length := by
  simpa using h.sublist.length_le

/-- The fee is the one for the transaction with a change output, rounded up by
less than 100. -/
theorem ChosenFor.fee_bounds
    (hfit : AmountsFit w outputs)
    (h : ChosenFor codec w outputs transaction b f coins) :
    (txFee w.feePerKb (sizeFor outputs bareInputSize coins.length + txOutputSize)).toNat ≤
        f.toNat ∧
      f.toNat ≤
        (txFee w.feePerKb (sizeFor outputs bareInputSize coins.length + txOutputSize)).toNat +
          99 := by
  have htotal := hfit.total _ h.length_le
  rcases h.fee_eq with ⟨rfl, hfee⟩ | ⟨-, hfee, -⟩
  · have hrequest := size_requestTx codec outputs []
    rw [withCoins_nil] at hrequest
    rw [hfee, hrequest]
    exact ⟨le_rfl, Nat.le_add_right _ _⟩
  · rw [hfee, h.tx_eq, size_requestTx]
    exact roundedFee_bounds (by omega)

/-- What a request pays does not depend on whether there is a change output. -/
theorem ChosenFor.payments
    (h : ChosenFor codec w outputs transaction b f coins) :
    transaction.outputs.map BRTxOutput.payment = outputs.map BRTxOutput.payment := by
  rw [h.tx_eq]
  exact requestTx_payments

theorem ChosenFor.inputs
    (h : ChosenFor codec w outputs transaction b f coins) :
    transaction.inputs = coins.map (spendInput codec) := by
  rw [h.tx_eq, withCoins, requestTx_inputs, List.nil_append]

/-- The outputs and their sum, without and with a change output. -/
theorem finishTx_payments
    {amount : UInt64}
    (hshuffle : ∀ l, (shuffle l).Perm l)
    (hpay : transaction.outputs.map BRTxOutput.payment = outputs.map BRTxOutput.payment)
    (h : finishTx codec shuffle fuel w outputs amount transaction b f = .ok (some t, w')) :
    amount + f ≤ b ∧ t.inputs = transaction.inputs ∧ ∃ change : List (UInt64 × List UInt8),
      change.length ≤ 1 ∧
      (t.outputs.map BRTxOutput.payment).Perm (outputs.map BRTxOutput.payment ++ change) ∧
      (∀ c ∈ change, IsChange codec fuel w w' c) ∧
      (change = [] ∧ b - (amount + f) ≤ w.minOutputAmount ∨
        ∃ script, change = [(b - (amount + f), script)]) := by
  obtain ⟨hle, hend⟩ := finishTx_cases h
  refine ⟨hle, finishTx_inputs h, ?_⟩
  rcases hend with ⟨hsmall, rfl⟩ | ⟨addrs, haddrs, hchange, rfl⟩
  · refine ⟨[], Nat.zero_le _, ?_, by simp, Or.inl ⟨rfl, hsmall⟩⟩
    rw [hpay, List.append_nil]
  · refine ⟨[(b - (amount + f), codec.addressScriptPubKey (addrs.headD []))], le_rfl, ?_, ?_,
      Or.inr ⟨_, rfl⟩⟩
    · refine ((hshuffle _).map _).trans ?_
      rw [RawTransaction.addOutput, List.map_append, hpay]
      exact List.Perm.refl _
    · intro c hc
      rw [List.mem_singleton.mp hc]
      exact ⟨UInt64.lt_iff_toNat_lt.mp hchange, addrs, haddrs, unusedAddrs_unused haddrs, rfl⟩

/-- The coins pay the outputs, the fee and what is left. -/
theorem ChosenFor.balance_split
    (hfit : AmountsFit w outputs)
    (h : ChosenFor codec w outputs transaction b f coins)
    (hle : (outputs.map BRTxOutput.amount).sum + f ≤ b) :
    outputTotal outputs + f.toNat + (b - ((outputs.map BRTxOutput.amount).sum + f)).toNat =
      b.toNat := by
  have htotal := hfit.total _ h.length_le
  obtain ⟨-, hhigh⟩ := h.fee_bounds hfit
  have hamount := amount_toNat hfit
  have hsum : ((outputs.map BRTxOutput.amount).sum + f).toNat =
      outputTotal outputs + f.toNat := by
    rw [toNat_add_of_lt (by omega), hamount]
  rw [UInt64.toNat_sub_of_le _ _ hle, hsum]
  rw [UInt64.le_iff_toNat_le, hsum] at hle
  omega

/-- Behind the outputs the fee is left, and less than an output is worth. -/
theorem finishTx_pays
    (hshuffle : ∀ l, (shuffle l).Perm l)
    (hfit : AmountsFit w outputs)
    (hcoins : ChosenFor codec w outputs transaction b f coins)
    (h : finishTx codec shuffle fuel w outputs (outputs.map BRTxOutput.amount).sum transaction b f =
      .ok (some t, w')) :
    outputTotal t.outputs + f.toNat ≤ b.toNat ∧
      b.toNat ≤ outputTotal t.outputs + f.toNat + w.minOutputAmount.toNat := by
  obtain ⟨hle, -, change, -, hperm, -, hrest⟩ := finishTx_payments hshuffle hcoins.payments h
  have hsplit := hcoins.balance_split hfit hle
  have hpaid : outputTotal t.outputs =
      outputTotal outputs + (change.map (fun p => p.1.toNat)).sum := by
    rw [outputTotal_eq, outputTotal_eq, (hperm.map _).sum_eq, List.map_append, List.sum_append]
  rcases hrest with ⟨rfl, hsmall⟩ | ⟨script, rfl⟩
  · rw [UInt64.le_iff_toNat_le] at hsmall
    simp only [List.map_nil, List.sum_nil] at hpaid
    omega
  · simp only [List.map_cons, List.map_nil, List.sum_cons, List.sum_nil] at hpaid
    omega

/-- A created transaction is what was asked for, with inputs that look signed,
a sequence number of zero and a fee for inputs of 41 bytes. -/
theorem createdAs_bare
    (hshuffle : ∀ l, (shuffle l).Perm l)
    (hfit : AmountsFit w outputs)
    (hdirect : Direct codec w outputs)
    (h : w.createTxForOutputs codec shuffle fuel outputs = .ok (some t, w')) :
    CreatedAs codec fuel w w' outputs (some []) 0 bareInputSize t ∧ t.inputs ≠ [] := by
  obtain ⟨transaction, b, f, hsel⟩ := hdirect
  obtain ⟨coins, hcoins⟩ : ∃ coins, ChosenFor codec w outputs transaction b f coins :=
    selectUtxos_done hsel
  cases fuel with
  | zero =>
      cases h
  | succ fuel =>
      rw [createTxForOutputs_direct hsel] at h
      obtain ⟨hpays, hkeeps⟩ := finishTx_pays hshuffle hfit hcoins h
      obtain ⟨-, hin, change, hone, hperm, hto, -⟩ :=
        finishTx_payments hshuffle hcoins.payments h
      rw [hcoins.inputs] at hin
      obtain ⟨hlow, hhigh⟩ := hcoins.fee_bounds hfit
      have htotal := hfit.total _ hcoins.length_le
      have hins : (t.inputs.map (fun i => i.amount.toNat)).sum = b.toNat := by
        rw [hin, List.map_map, hcoins.balance_toNat (by omega)]
        rfl
      have hlength : t.inputs.length = coins.length := by
        rw [hin, List.length_map]
      refine ⟨⟨?_, ?_, ?_, ⟨change, hone, hperm, hto⟩, ?_, ?_⟩, ?_⟩
      · rw [RawTransaction.outpoints, hin, List.map_map]
        exact hcoins.sublist
      · intro i hi
        obtain ⟨coin, hcoin, rfl⟩ := List.mem_map.mp (hin ▸ hi)
        exact ⟨coin.2, hcoins.resolve coin hcoin, rfl, rfl⟩
      · intro i hi
        obtain ⟨coin, -, rfl⟩ := List.mem_map.mp (hin ▸ hi)
        exact ⟨rfl, rfl⟩
      · rw [hins, hlength]
        omega
      · rw [hins, hlength]
        omega
      · -- the fee is not zero, so it is paid by an input
        intro hnone
        rw [hnone, List.map_nil, List.sum_nil] at hins
        rw [hnone, List.length_nil] at hlength
        have hstandard := @txFee_ge w.feePerKb _ hfit.standard
        rw [← hlength] at hlow
        have hsize : 34 ≤ sizeFor outputs bareInputSize 0 + txOutputSize := Nat.le_add_left _ _
        omega

/-- **Created transactions.**  A transaction that `BRWalletCreateTxForOutputs`
returns without calling itself has the inputs, the outputs and the fee of the
request, but never for unsigned inputs of the sequence number `TXIN_SEQUENCE`
that are counted with `TX_INPUT_SIZE`. -/
theorem createdTx_not_as_requested
    {rand : ℕ → ℕ}
    (hfit : AmountsFit w outputs)
    (hdirect : Direct codec w outputs)
    (h : w.createTxForOutputs codec (shuffleOutputs rand) fuel outputs = .ok (some t, w')) :
    CreatedAs codec fuel w w' outputs (some []) 0 bareInputSize t ∧
      ¬ CreatedAs codec fuel w w' outputs none txinSequence txInputSize t := by
  obtain ⟨hbare, hne⟩ := createdAs_bare (shuffleOutputs_perm rand) hfit hdirect h
  refine ⟨hbare, fun hclaim => ?_⟩
  obtain ⟨i, hi⟩ := List.exists_mem_of_ne_nil _ hne
  have hsigned := (hbare.unsigned i hi).1
  rw [(hclaim.unsigned i hi).1] at hsigned
  cases hsigned

end Request

open RawTransaction (toyCodec)

/-- A payment of 20000 to a pubkey hash. -/
def sampleRequest : List BRTxOutput :=
  [{ address := [8], amount := 20000, script := toyCodec.addressScriptPubKey [8] }]

theorem sampleRequest_fits :
    AmountsFit (sampleNew [samplePayment]) sampleRequest := by
  refine ⟨?_, ?_⟩
  · decide +kernel
  · intro n hn
    have hone : n ≤ 1 := hn
    interval_cases n <;> decide +kernel

theorem sampleRequest_created :
    ∃ t w', (sampleNew [samplePayment]).createTxForOutputs toyCodec (shuffleOutputs (fun _ => 1)) 20
        sampleRequest = .ok (some t, w') ∧
      CreatedAs toyCodec 20 (sampleNew [samplePayment]) w' sampleRequest (some []) 0
        bareInputSize t ∧
      ¬ CreatedAs toyCodec 20 (sampleNew [samplePayment]) w' sampleRequest none txinSequence
        txInputSize t :=
  ⟨_, _, rfl, createdTx_not_as_requested sampleRequest_fits
    ⟨_, _, _, rfl⟩ rfl⟩

/-- The one input is counted with 41 bytes, and the fee is too low for an input
of 148. -/
theorem sampleRequest_underpaid :
    AmountsFit (sampleNew [samplePayment]) sampleRequest ∧
      Direct toyCodec (sampleNew [samplePayment]) sampleRequest ∧
      ∃ t w', (sampleNew [samplePayment]).createTxForOutputs toyCodec (shuffleOutputs (fun _ => 1)) 20
          sampleRequest = .ok (some t, w') ∧
        t.inputs.map (fun i => (i.signature, i.sequence)) = [(some [], 0)] ∧
        (t.inputs.map (fun i => i.amount.toNat)).sum - outputTotal t.outputs = 6000 ∧
        txFee 50000 (sizeFor sampleRequest txInputSize t.inputs.length + txOutputSize) = 11300 ∧
        ¬ CreatedAs toyCodec 20 (sampleNew [samplePayment]) w' sampleRequest none txinSequence
          txInputSize t := by
  refine ⟨sampleRequest_fits, ⟨_, _, _, rfl⟩, _, _, rfl, rfl, by decide +kernel, by decide +kernel,
    fun h => ?_⟩
  have hfee := h.fee_le
  revert hfee
  decide +kernel

end BreadwalletCore
