import BreadwalletCore.Wallet.Fees
import BreadwalletCore.WalletManager.SpendingLimit

/-!
# The summary of a transaction

`RvnTransaction.init`, which shows a transaction with the balances before and
after it.  What is received, what is sent and the fee come from three functions of
`BRWallet.c`, each over inputs and outputs of its own.

`none` is a trap.
-/

namespace BreadwalletCore

/-- `UINT64_MAX`. -/
def uint64Max : UInt64 := 0xffffffffffffffff

namespace BRWallet

/-- The output that an input spends, if its transaction is known. -/
def parentOutput (w : BRWallet) (i : BRTxInput) : Option BRTxOutput :=
  (getTx w.allTx i.txHash).bind (fun t => t.outputs[i.index.toNat]?)

/-- The first loop of `BRWalletFeeForTx`. -/
def feeInputs (w : BRWallet) : UInt64 → List BRTxInput → UInt64
  | amount, [] => amount
  | amount, i :: is =>
      if amount = uint64Max then amount
      else feeInputs w ((w.parentOutput i).elim uint64Max (fun o => amount + o.amount)) is

/-- The second loop of `BRWalletFeeForTx`. -/
def feeOutputs : UInt64 → List BRTxOutput → UInt64
  | amount, [] => amount
  | amount, o :: os =>
      if amount = uint64Max then amount else feeOutputs (amount - o.amount) os

/-- `BRWalletFeeForTx`. -/
def feeForTx (w : BRWallet) (tx : BRTransaction) : UInt64 :=
  feeOutputs (w.feeInputs 0 tx.inputs) tx.outputs

/-- `feeForTx` of the app. -/
def knownFeeForTx (w : BRWallet) (tx : BRTransaction) : Option UInt64 :=
  if w.feeForTx tx = uint64Max then none else some (w.feeForTx tx)

end BRWallet

inductive TransactionDirection
  | sent
  | received
  | moved
deriving DecidableEq

/-- `RvnTransaction`, without what does not depend on the amounts or the blocks. -/
structure RvnTransaction where
  direction : TransactionDirection
  toAddress : Address
  amount : UInt64
  fee : UInt64
  startingBalance : UInt64
  endingBalance : UInt64
  blockHeight : UInt64
  confirmations : UInt64
deriving DecidableEq

namespace RvnTransaction

/-- `+` and `-` on `UInt64`. -/
def addTrap (a b : UInt64) : Option UInt64 :=
  if a.toNat + b.toNat < 2 ^ 64 then some (a + b) else none

def subTrap (a b : UInt64) : Option UInt64 :=
  if b ≤ a then some (a - b) else none

/-- The direction.  The sum is only computed if something has been sent. -/
def directionOf (received sent fee : UInt64) : Option TransactionDirection :=
  if sent > 0 then
    (addTrap received fee).map (fun total => if total = sent then .moved else .sent)
  else some .received

/-- The amount and the starting balance. -/
def amounts (received sent fee endingBalance : UInt64) :
    TransactionDirection → Option (UInt64 × UInt64)
  | .received => some (received, endingBalance - received - fee)
  | .sent =>
      (subTrap sent received).bind (fun net =>
        (subTrap net fee).map (fun amount => (amount, endingBalance + amount + fee)))
  | .moved => some (sent, endingBalance + fee)

/-- The address that is shown, of the wallet or not. -/
def firstAddress (w : BRWallet) (tx : BRTransaction) (own : Bool) : Address :=
  ((tx.outputs.find? (fun o => decide (o.address ∈ w.allAddrs) = own)).map
    (fun o => o.address)).getD []

/-- The number of confirmations. -/
def confirmationsOf (blockHeight lastBlockHeight : UInt64) : Option UInt64 :=
  if blockHeight > lastBlockHeight then some 0
  else (subTrap lastBlockHeight blockHeight).bind (fun n => addTrap n 1)

/-- `init`, for a wallet and the height of the last block. -/
def init (w : BRWallet) (lastBlockHeight : UInt32) (tx : BRTransaction) :
    Option RvnTransaction :=
  let received := w.amountReceivedFromTx tx
  let sent := w.amountSentByTx tx
  let fee := (w.knownFeeForTx tx).getD 0
  let endingBalance := w.balanceAfterTx tx
  let blockHeight := if tx.blockHeight = 0xffffffff then uint64Max else tx.blockHeight.toUInt64
  (directionOf received sent fee).bind (fun direction =>
    (amounts received sent fee endingBalance direction).bind (fun a =>
      (confirmationsOf blockHeight lastBlockHeight.toUInt64).map (fun confirmations =>
        { direction := direction
          toAddress := firstAddress w tx (direction ≠ .sent)
          amount := a.1
          fee := fee
          startingBalance := a.2
          endingBalance := endingBalance
          blockHeight := blockHeight
          confirmations := confirmations })))

/-- The summary exists, and its balances differ by what has been received and
sent. -/
def Consistent (w : BRWallet) (lastBlockHeight : UInt32) (tx : BRTransaction) : Prop :=
  ∃ t ∈ init w lastBlockHeight tx,
    t.startingBalance + w.amountReceivedFromTx tx - w.amountSentByTx tx = t.endingBalance

end RvnTransaction

/-! ## The ledger -/

namespace BRWallet

/-- The known outputs that a transaction spends. -/
def spentByTx (w : BRWallet) (tx : BRTransaction) : List BRTxOutput :=
  tx.inputs.filterMap w.parentOutput

/-- The outputs of the wallet among some. -/
def own (w : BRWallet) (outputs : List BRTxOutput) : List BRTxOutput :=
  outputs.filter (fun o => o.address ∈ w.allAddrs)

/-- Every input is known, and no intermediate result of the fee is
`UINT64_MAX`, which stands for an unknown input. -/
def FeeKnown (w : BRWallet) (tx : BRTransaction) : Prop :=
  (∀ i ∈ tx.inputs, (w.parentOutput i).isSome = true) ∧
    outputTotal (w.spentByTx tx) + 1 < 2 ^ 64 ∧
    ∀ pre ∈ tx.outputs.inits, outputTotal pre ≠ outputTotal (w.spentByTx tx) + 1

instance (w : BRWallet) (tx : BRTransaction) : Decidable (w.FeeKnown tx) :=
  inferInstanceAs (Decidable (_ ∧ _ ∧ _))

/-- What the known inputs have more than the outputs, modulo `2 ^ 64`, and nothing
if an input is not known. -/
def apparentFee (w : BRWallet) (tx : BRTransaction) : ℕ :=
  if w.FeeKnown tx then
    (outputTotal (w.spentByTx tx) + 2 ^ 64 - outputTotal tx.outputs) % 2 ^ 64
  else 0

/-- A transaction that spends nothing of the wallet has no apparent fee, and one
that does brings no more into the wallet than it takes out of it for the fee. -/
structure Accountable (w : BRWallet) (tx : BRTransaction) : Prop where
  received : outputTotal (w.own (w.spentByTx tx)) = 0 → w.apparentFee tx = 0
  sent : 0 < outputTotal (w.own (w.spentByTx tx)) →
    outputTotal (w.own tx.outputs) + w.apparentFee tx ≤ outputTotal (w.own (w.spentByTx tx))

/-! ## The three functions on the ledger -/

@[simp] theorem outputTotal_cons
    (o : BRTxOutput) (os : List BRTxOutput) :
    outputTotal (o :: os) = o.amount.toNat + outputTotal os := by
  rfl

theorem outputTotal_append
    (as bs : List BRTxOutput) :
    outputTotal (as ++ bs) = outputTotal as + outputTotal bs := by
  simp [outputTotal]

/-- What an output brings into the wallet. -/
def ownAmount (w : BRWallet) (o : BRTxOutput) : UInt64 :=
  if o.address ∈ w.allAddrs then o.amount else 0

theorem own_cons
    (w : BRWallet) (o : BRTxOutput) (os : List BRTxOutput) :
    w.own (o :: os) = if o.address ∈ w.allAddrs then o :: w.own os else w.own os := by
  simp [own, List.filter_cons]

theorem sum_ownAmount
    (w : BRWallet) (outputs : List BRTxOutput) :
    ((outputs.map w.ownAmount).map UInt64.toNat).sum = outputTotal (w.own outputs) ∧
      outputTotal (w.own outputs) ≤ outputTotal outputs := by
  induction outputs with
  | nil =>
      exact ⟨rfl, le_refl _⟩
  | cons o os ih =>
      obtain ⟨heq, hle⟩ := ih
      rw [List.map_cons, List.map_cons, List.sum_cons, heq, own_cons, ownAmount]
      split_ifs
      · exact ⟨rfl, Nat.add_le_add_left hle _⟩
      · exact ⟨by rw [UInt64.toNat_zero, Nat.zero_add], hle.trans (Nat.le_add_left _ _)⟩

/-- The sum over the outputs of the wallet. -/
theorem toNat_sum_ownAmount
    {w : BRWallet} {outputs : List BRTxOutput}
    (h : outputTotal outputs < 2 ^ 64) :
    (outputs.map w.ownAmount).sum.toNat = outputTotal (w.own outputs) := by
  obtain ⟨heq, hle⟩ := sum_ownAmount w outputs
  rw [toNat_sum (by omega), heq]

theorem amountReceivedFromTx_eq
    {w : BRWallet} {tx : BRTransaction}
    (h : outputTotal tx.outputs < 2 ^ 64) :
    (w.amountReceivedFromTx tx).toNat = outputTotal (w.own tx.outputs) :=
  toNat_sum_ownAmount h

theorem amountSentByTx_sum
    (w : BRWallet) (tx : BRTransaction) :
    w.amountSentByTx tx = ((w.spentByTx tx).map w.ownAmount).sum := by
  rw [amountSentByTx, spentByTx]
  induction tx.inputs with
  | nil =>
      rfl
  | cons i is ih =>
      rw [List.map_cons, List.sum_cons, ih, List.filterMap_cons, parentOutput]
      cases hget : getTx w.allTx i.txHash with
      | none =>
          simp
      | some t =>
          cases hout : t.outputs[i.index.toNat]? with
          | none =>
              simp [hout]
          | some o =>
              simp [hout, ownAmount]

theorem amountSentByTx_eq
    {w : BRWallet} {tx : BRTransaction}
    (h : outputTotal (w.spentByTx tx) < 2 ^ 64) :
    (w.amountSentByTx tx).toNat = outputTotal (w.own (w.spentByTx tx)) := by
  rw [amountSentByTx_sum, toNat_sum_ownAmount h]

theorem feeInputs_max
    (w : BRWallet) (is : List BRTxInput) :
    w.feeInputs uint64Max is = uint64Max := by
  cases is with
  | nil => rfl
  | cons i is => exact if_pos rfl

/-- The known inputs are added up. -/
theorem feeInputs_known
    {w : BRWallet} {is : List BRTxInput} {amount : UInt64}
    (hknown : ∀ i ∈ is, (w.parentOutput i).isSome = true)
    (h : amount.toNat + outputTotal (is.filterMap w.parentOutput) < 2 ^ 64) :
    (w.feeInputs amount is).toNat =
      amount.toNat + outputTotal (is.filterMap w.parentOutput) := by
  induction is generalizing amount with
  | nil =>
      rfl
  | cons i is ih =>
      obtain ⟨o, ho⟩ := Option.isSome_iff_exists.mp (hknown i List.mem_cons_self)
      rw [List.filterMap_cons, ho] at h ⊢
      dsimp only at h ⊢
      rw [outputTotal_cons] at h ⊢
      rw [feeInputs, ho]
      split_ifs with hmax
      · -- nothing is left to add
        have htop : amount.toNat = 2 ^ 64 - 1 := by
          rw [hmax]
          rfl
        omega
      · have hadd : (amount + o.amount).toNat = amount.toNat + o.amount.toNat :=
          toNat_add_of_lt (by omega)
        have hrest := @ih (amount + o.amount)
          (fun j hj => hknown j (List.mem_cons_of_mem _ hj)) (by omega)
        rw [Option.elim_some, hrest, hadd]
        omega

/-- An input that is not known makes the fee unknown. -/
theorem feeInputs_unknown
    {w : BRWallet} {is : List BRTxInput} {amount : UInt64}
    (h : ∃ i ∈ is, w.parentOutput i = none) :
    w.feeInputs amount is = uint64Max := by
  induction is generalizing amount with
  | nil =>
      obtain ⟨i, hi, -⟩ := h
      exact absurd hi List.not_mem_nil
  | cons i is ih =>
      rw [feeInputs]
      split_ifs with hmax
      · exact hmax
      · cases ho : w.parentOutput i with
        | none =>
            exact feeInputs_max w is
        | some o =>
            obtain ⟨j, hj, hnone⟩ := h
            rcases List.mem_cons.mp hj with rfl | hj
            · rw [ho] at hnone
              exact absurd hnone (Option.some_ne_none o)
            · exact ih ⟨j, hj, hnone⟩

/-- The outputs are taken away, until `UINT64_MAX` is left. -/
theorem feeOutputs_eq
    (amount : UInt64) (os : List BRTxOutput) :
    feeOutputs amount os =
      if ∃ pre ∈ os.inits, amount - (pre.map BRTxOutput.amount).sum = uint64Max
      then uint64Max
      else amount - (os.map BRTxOutput.amount).sum := by
  induction os generalizing amount with
  | nil =>
      simp [feeOutputs, eq_comm]
  | cons o os ih =>
      rw [feeOutputs]
      by_cases hmax : amount = uint64Max
      · rw [if_pos hmax, if_pos ⟨[], by simp, by simp [hmax]⟩, hmax]
      · have hiff : (∃ pre ∈ (o :: os).inits,
            amount - (pre.map BRTxOutput.amount).sum = uint64Max) ↔
              ∃ pre ∈ os.inits,
                amount - o.amount - (pre.map BRTxOutput.amount).sum = uint64Max := by
          simp [hmax, sub_sub]
        rw [if_neg hmax, ih]
        simp only [hiff, List.map_cons, List.sum_cons, sub_sub]

theorem toNat_sum_amount
    {outputs : List BRTxOutput}
    (h : outputTotal outputs < 2 ^ 64) :
    (outputs.map BRTxOutput.amount).sum.toNat = outputTotal outputs := by
  have heq : ((outputs.map BRTxOutput.amount).map UInt64.toNat).sum = outputTotal outputs := by
    rw [List.map_map]
    rfl
  rw [toNat_sum (by omega), heq]

/-- What is left of the inputs behind some outputs. -/
theorem toNat_sub_sum
    {amount : UInt64} {outputs : List BRTxOutput}
    (h : outputTotal outputs < 2 ^ 64) :
    (amount - (outputs.map BRTxOutput.amount).sum).toNat =
      (amount.toNat + 2 ^ 64 - outputTotal outputs) % 2 ^ 64 := by
  rw [UInt64.toNat_sub, toNat_sum_amount h]
  omega

theorem outputTotal_le_of_prefix
    {pre outputs : List BRTxOutput}
    (h : pre ∈ outputs.inits) :
    outputTotal pre ≤ outputTotal outputs := by
  obtain ⟨post, rfl⟩ := (List.mem_inits _ _).mp h
  rw [outputTotal_append]
  exact Nat.le_add_right _ _

/-- An intermediate result is `UINT64_MAX`. -/
theorem sub_sum_eq_max_iff
    {amount : UInt64} {outputs : List BRTxOutput}
    (h : outputTotal outputs < 2 ^ 64) :
    amount - (outputs.map BRTxOutput.amount).sum = uint64Max ↔
      outputTotal outputs = amount.toNat + 1 ∨
        outputTotal outputs = 0 ∧ amount.toNat + 1 = 2 ^ 64 := by
  have hlt := amount.toNat_lt
  have hmax : uint64Max.toNat = 2 ^ 64 - 1 := rfl
  rw [← UInt64.toNat_inj, toNat_sub_sum h, hmax]
  omega

/-- The fee that is shown. -/
theorem knownFeeForTx_eq
    {w : BRWallet} {tx : BRTransaction}
    (hin : outputTotal (w.spentByTx tx) < 2 ^ 64)
    (hout : outputTotal tx.outputs < 2 ^ 64) :
    ((w.knownFeeForTx tx).getD 0).toNat = w.apparentFee tx := by
  by_cases hknown : ∀ i ∈ tx.inputs, (w.parentOutput i).isSome = true
  · have hinputs : (w.feeInputs 0 tx.inputs).toNat = outputTotal (w.spentByTx tx) := by
      rw [feeInputs_known hknown (by rw [UInt64.toNat_zero, Nat.zero_add]; exact hin),
        UInt64.toNat_zero, Nat.zero_add, spentByTx]
    obtain ⟨amount, hamount⟩ : ∃ amount, w.feeInputs 0 tx.inputs = amount := ⟨_, rfl⟩
    rw [hamount] at hinputs
    have hiff : (∃ pre ∈ tx.outputs.inits,
        amount - (pre.map BRTxOutput.amount).sum = uint64Max) ↔ ¬ w.FeeKnown tx := by
      constructor
      · rintro ⟨pre, hpre, hmax⟩ ⟨-, hroom, hne⟩
        have hle := outputTotal_le_of_prefix hpre
        rw [sub_sum_eq_max_iff (by omega), hinputs] at hmax
        have hne := hne pre hpre
        omega
      · intro hnot
        by_contra hall
        refine hnot ⟨hknown, ?_, ?_⟩
        · by_contra hroom
          refine hall ⟨[], by simp, (sub_sum_eq_max_iff (by decide)).mpr (.inr ⟨rfl, ?_⟩)⟩
          omega
        · intro pre hpre heq
          have hle := outputTotal_le_of_prefix hpre
          exact hall ⟨pre, hpre, (sub_sum_eq_max_iff (by omega)).mpr (.inl (by omega))⟩
    have hfee : w.feeForTx tx = if ¬ w.FeeKnown tx then uint64Max
        else amount - (tx.outputs.map BRTxOutput.amount).sum := by
      rw [feeForTx, hamount, feeOutputs_eq]
      simp only [hiff]
    by_cases hfk : w.FeeKnown tx
    · rw [if_neg (not_not.mpr hfk)] at hfee
      have hne : w.feeForTx tx ≠ uint64Max := by
        intro hmax
        rw [hfee] at hmax
        exact hiff.mp ⟨tx.outputs, by simp, hmax⟩ hfk
      rw [knownFeeForTx, if_neg hne, Option.getD_some, hfee, toNat_sub_sum hout, hinputs,
        apparentFee, if_pos hfk]
    · rw [if_pos hfk] at hfee
      rw [knownFeeForTx, if_pos hfee, apparentFee, if_neg hfk]
      rfl
  · have hnone : ∃ i ∈ tx.inputs, w.parentOutput i = none := by
      by_contra hall
      exact hknown (fun i hi => Option.isSome_iff_ne_none.mpr (fun h => hall ⟨i, hi, h⟩))
    have hmax : w.feeForTx tx = uint64Max := by
      rw [feeForTx, feeInputs_unknown hnone]
      cases tx.outputs with
      | nil => rfl
      | cons o os => exact if_pos rfl
    rw [knownFeeForTx, if_pos hmax, apparentFee, if_neg (fun h => hknown h.1)]
    rfl

end BRWallet

namespace RvnTransaction

variable {w : BRWallet} {tx : BRTransaction}

/-! ## The summary -/

/-- The confirmations never trap. -/
theorem confirmationsOf_isSome
    (blockHeight : UInt64) (lastBlockHeight : UInt32) :
    ∃ n, confirmationsOf blockHeight lastBlockHeight.toUInt64 = some n := by
  rw [confirmationsOf]
  split_ifs with h
  · exact ⟨0, rfl⟩
  · have hle : blockHeight ≤ lastBlockHeight.toUInt64 := UInt64.not_lt.mp h
    have hlt : lastBlockHeight.toUInt64.toNat < 2 ^ 32 := by
      rw [UInt32.toNat_toUInt64]
      exact lastBlockHeight.toNat_lt
    have hsub : (lastBlockHeight.toUInt64 - blockHeight).toNat ≤
        lastBlockHeight.toUInt64.toNat := by
      rw [UInt64.toNat_sub_of_le _ _ hle]
      exact Nat.sub_le _ _
    rw [subTrap, if_pos hle, Option.bind_some, addTrap, if_pos]
    · exact ⟨_, rfl⟩
    · have hone : (1 : UInt64).toNat = 1 := rfl
      omega

/-- The direction, the amount and the starting balance of what is received, sent
and paid as a fee. -/
def balances (received sent fee endingBalance : UInt64) : Option UInt64 :=
  (directionOf received sent fee).bind (fun direction =>
    (amounts received sent fee endingBalance direction).map Prod.snd)

theorem balances_received_iff
    {received fee endingBalance : UInt64} :
    (∃ s ∈ balances received 0 fee endingBalance, s + received - 0 = endingBalance) ↔
      fee = 0 := by
  have heq : balances received 0 fee endingBalance = some (endingBalance - received - fee) := by
    rw [balances, directionOf, if_neg (by decide)]
    rfl
  rw [heq]
  constructor
  · rintro ⟨s, hs, hbalance⟩
    obtain rfl := Option.some.inj hs
    grind
  · intro hfee
    exact ⟨_, rfl, by grind⟩

theorem balances_sent_iff
    {received sent fee endingBalance : UInt64}
    (hsent : 0 < sent) :
    (∃ s ∈ balances received sent fee endingBalance, s + received - sent = endingBalance) ↔
      received.toNat + fee.toNat ≤ sent.toNat := by
  have hlt := sent.toNat_lt
  rw [balances, directionOf, if_pos hsent, addTrap]
  by_cases hadd : received.toNat + fee.toNat < 2 ^ 64
  · have htotal : (received + fee).toNat = received.toNat + fee.toNat := toNat_add_of_lt hadd
    rw [if_pos hadd, Option.map_some, Option.bind_some]
    by_cases hmoved : received + fee = sent
    · -- everything stays in the wallet
      rw [if_pos hmoved]
      refine iff_of_true ⟨_, rfl, ?_⟩ ?_
      · rw [← hmoved]
        grind
      · rw [← hmoved, htotal]
    · rw [if_neg hmoved, amounts, subTrap]
      by_cases hreceived : received ≤ sent
      · have hnet : (sent - received).toNat = sent.toNat - received.toNat :=
          UInt64.toNat_sub_of_le _ _ hreceived
        have hle := UInt64.le_iff_toNat_le.mp hreceived
        rw [if_pos hreceived, Option.bind_some, subTrap]
        by_cases hfee : fee ≤ sent - received
        · rw [if_pos hfee]
          refine iff_of_true ⟨_, rfl, ?_⟩ ?_
          · dsimp only
            grind
          · have hle' := UInt64.le_iff_toNat_le.mp hfee
            omega
        · rw [if_neg hfee]
          refine iff_of_false ?_ ?_
          · rintro ⟨s, hs, -⟩
            exact absurd hs (Option.not_mem_none s)
          · rw [UInt64.le_iff_toNat_le] at hfee
            omega
      · rw [if_neg hreceived]
        refine iff_of_false ?_ ?_
        · rintro ⟨s, hs, -⟩
          exact absurd hs (Option.not_mem_none s)
        · rw [UInt64.le_iff_toNat_le] at hreceived
          omega
  · rw [if_neg hadd]
    refine iff_of_false ?_ (by omega)
    rintro ⟨s, hs, -⟩
    exact absurd hs (Option.not_mem_none s)

/-- The summary exists where the balances do. -/
theorem consistent_iff_balances
    (w : BRWallet) (lastBlockHeight : UInt32) (tx : BRTransaction) :
    Consistent w lastBlockHeight tx ↔
      ∃ s ∈ balances (w.amountReceivedFromTx tx) (w.amountSentByTx tx)
          ((w.knownFeeForTx tx).getD 0) (w.balanceAfterTx tx),
        s + w.amountReceivedFromTx tx - w.amountSentByTx tx = w.balanceAfterTx tx := by
  obtain ⟨n, hn⟩ := confirmationsOf_isSome
    (if tx.blockHeight = 0xffffffff then uint64Max else tx.blockHeight.toUInt64) lastBlockHeight
  rw [Consistent, init, balances, hn]
  cases directionOf (w.amountReceivedFromTx tx) (w.amountSentByTx tx)
      ((w.knownFeeForTx tx).getD 0) with
  | none =>
      simp
  | some direction =>
      simp only [Option.bind_some]
      cases amounts (w.amountReceivedFromTx tx) (w.amountSentByTx tx)
          ((w.knownFeeForTx tx).getD 0) (w.balanceAfterTx tx) direction with
      | none =>
          simp
      | some a =>
          simp

/-- **The summary of a transaction.**  It exists and agrees with the ledger if and
only if the transaction is accountable. -/
theorem consistent_iff
    (w : BRWallet) (lastBlockHeight : UInt32) (tx : BRTransaction)
    (hin : outputTotal (w.spentByTx tx) < 2 ^ 64)
    (hout : outputTotal tx.outputs < 2 ^ 64) :
    Consistent w lastBlockHeight tx ↔ w.Accountable tx := by
  have hreceived := @BRWallet.amountReceivedFromTx_eq w tx hout
  have hsent := @BRWallet.amountSentByTx_eq w tx hin
  have hfee := BRWallet.knownFeeForTx_eq hin hout
  rw [consistent_iff_balances]
  by_cases hzero : w.amountSentByTx tx = 0
  · have hown : outputTotal (w.own (w.spentByTx tx)) = 0 := by
      rw [← hsent, hzero]
      rfl
    rw [hzero, balances_received_iff]
    constructor
    · intro h
      refine ⟨fun _ => ?_, fun hpos => absurd hown hpos.ne'⟩
      rw [← hfee, h]
      rfl
    · intro h
      have := h.received hown
      rw [← hfee] at this
      exact UInt64.toNat_inj.mp this
  · have hpos : 0 < w.amountSentByTx tx := UInt64.pos_iff_ne_zero.mpr hzero
    have hown : 0 < outputTotal (w.own (w.spentByTx tx)) := by
      rw [← hsent]
      exact UInt64.lt_iff_toNat_lt.mp hpos
    rw [balances_sent_iff hpos, hreceived, hsent, hfee]
    exact ⟨fun h => ⟨fun hz => absurd hz hown.ne', fun _ => h⟩, fun h => h.sent hown⟩

/-- A payment of the sample wallet to itself. -/
theorem consistent_iff_sampleSpend :
    Consistent sampleWallet 100 sampleSpend ↔ sampleWallet.Accountable sampleSpend :=
  consistent_iff sampleWallet 100 sampleSpend (by decide) (by decide)

/-- A payment with an output for somebody else, who spends it on the wallet. -/
def sharedPayment : BRTransaction :=
  { samplePayment with
      outputs := [⟨[1, 0], 50000, [0x51]⟩, ⟨[9, 9], 30000, [0x51]⟩]
      outCount_lt := by decide }

def foreignSpend : BRTransaction :=
  sampleTx 2 [⟨1, 1⟩] [2, 0] 20000 100

def payeeWallet : BRWallet :=
  { sampleWallet with
      transactions := [sharedPayment, foreignSpend]
      allTx := [sharedPayment, foreignSpend]
      balance := 70000
      balanceHist := [50000, 70000] }

/-- The fee that somebody else has paid is taken off the starting balance. -/
theorem not_consistent :
    ¬ ∀ (w : BRWallet) (lastBlockHeight : UInt32) (tx : BRTransaction), tx ∈ w.transactions →
      outputTotal (w.spentByTx tx) < 2 ^ 64 → outputTotal tx.outputs < 2 ^ 64 →
        Consistent w lastBlockHeight tx := by
  intro hall
  obtain ⟨t, ht, hbalance⟩ := hall payeeWallet 100 foreignSpend (by decide) (by decide)
    (by decide)
  have heq : init payeeWallet 100 foreignSpend =
      some ⟨.received, [2, 0], 20000, 10000, 40000, 70000, 100, 1⟩ := by
    decide
  obtain rfl := Option.some.inj (heq.symm.trans ht)
  exact absurd hbalance (by decide)

end RvnTransaction

end BreadwalletCore
