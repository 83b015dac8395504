import BreadwalletCore.Wallet.CreateTx

/-!
# Fees and coin selection

`_txFee` computes with 64 bits; `feeNat` is the same fee without a wrap.  The
loop of `BRWalletCreateTxForOutputs` over the UTXOs chooses a sublist of them,
and its fee is the one for the transaction built so far with a change output,
increased by less than 100.
-/

namespace BreadwalletCore

/-! ## Fees -/

theorem toNat_ofNat_size
    {size : ℕ}
    (h : size * 10000 < 2 ^ 64) :
    (UInt64.ofNat size).toNat = size := by
  rw [UInt64.toNat_ofNat', Nat.mod_eq_of_lt (by omega)]

theorem standardFee_toNat
    {size : ℕ}
    (h : size * 10000 < 2 ^ 64) :
    (UInt64.ofNat size * txFeePerKb / 1000).toNat = size * 10000 / 1000 := by
  rw [UInt64.toNat_div, UInt64.toNat_mul, toNat_ofNat_size h]
  change size * 10000 % 2 ^ 64 / 1000 = _
  rw [Nat.mod_eq_of_lt h]

/-- Whatever the rate, the standard fee is taken. -/
theorem txFee_ge
    {feePerKb : UInt64} {size : ℕ}
    (h : size * 10000 < 2 ^ 64) :
    size * 10000 / 1000 ≤ (txFee feePerKb size).toNat := by
  have hstandard := standardFee_toNat h
  rw [txFee]
  split
  · rename_i hlt
    rw [gt_iff_lt, UInt64.lt_iff_toNat_lt, hstandard] at hlt
    omega
  · rw [hstandard]

theorem toNat_add_of_lt
    {a b : UInt64}
    (h : a.toNat + b.toNat < 2 ^ 64) :
    (a + b).toNat = a.toNat + b.toNat := by
  rw [UInt64.toNat_add, Nat.mod_eq_of_lt h]

/-- Rounding off the balance adds less than 100 to the fee. -/
theorem roundedFee_bounds
    {w : BRWallet} {amount : UInt64} {size : ℕ}
    (h : (txFee w.feePerKb (size + txOutputSize)).toNat + 99 < 2 ^ 64) :
    (txFee w.feePerKb (size + txOutputSize)).toNat ≤ (roundedFee w amount size).toNat ∧
      (roundedFee w amount size).toNat ≤ (txFee w.feePerKb (size + txOutputSize)).toNat + 99 := by
  rw [roundedFee]
  split
  · have hmod : ((w.balance - (amount + txFee w.feePerKb (size + txOutputSize))) % 100).toNat ≤
        99 := by
      rw [UInt64.toNat_mod]
      change _ % 100 ≤ 99
      omega
    rw [toNat_add_of_lt (by omega)]
    omega
  · omega

/-! ## Selected coins -/

/-- The output a UTXO stands for. -/
def BRWallet.spentOutput (w : BRWallet) (o : BRUTXO) : Option BRTxOutput :=
  (getTx w.allTx o.hash).bind (fun tx => tx.outputs[o.n.toNat]?)

/-- The amount of a UTXO, zero if it does not resolve. -/
def BRWallet.coinAmount (w : BRWallet) (o : BRUTXO) : ℕ :=
  (w.spentOutput o).elim 0 (fun output => output.amount.toNat)

theorem coinAmount_eq
    {w : BRWallet} {o : BRUTXO} {output : BRTxOutput}
    (h : w.spentOutput o = some output) :
    w.coinAmount o = output.amount.toNat := by
  rw [BRWallet.coinAmount, h]
  rfl

/-- The sum of all UTXOs without a wrap. -/
def BRWallet.coinTotal (w : BRWallet) : ℕ :=
  (w.utxos.map w.coinAmount).sum

/-- The sum of the amounts of some outputs without a wrap. -/
def outputTotal (outputs : List BRTxOutput) : ℕ :=
  (outputs.map (fun o => o.amount.toNat)).sum

theorem toNat_sum
    {amounts : List UInt64}
    (h : (amounts.map UInt64.toNat).sum < 2 ^ 64) :
    amounts.sum.toNat = (amounts.map UInt64.toNat).sum := by
  induction amounts with
  | nil =>
      rfl
  | cons a amounts ih =>
      rw [List.map_cons, List.sum_cons] at h
      have hrest := ih (by omega)
      rw [List.sum_cons, toNat_add_of_lt (by omega), hrest, List.map_cons, List.sum_cons]

/-- The input that `BRTransactionAddInput` makes of a UTXO and its output for
the sequence number `TXIN_SEQUENCE`. -/
def spendInput (codec : ScriptCodec) (coin : BRUTXO × BRTxOutput) : BRTxInput where
  txHash := coin.1.hash
  index := coin.1.n
  address := codec.addressFromScriptPubKey coin.2.script
  amount := coin.2.amount
  script := some coin.2.script
  signature := some []
  sequence := 0
  strayPointer := true

/-- The transaction with coins added to its inputs. -/
def withCoins (codec : ScriptCodec) (tx : RawTransaction) (coins : List (BRUTXO × BRTxOutput)) :
    RawTransaction :=
  { tx with inputs := tx.inputs ++ coins.map (spendInput codec) }

/-- The size of a transaction with these outputs and `n` inputs of one size. -/
def sizeFor (outputs : List BRTxOutput) (perInput n : ℕ) : ℕ :=
  8 + varIntSize n + varIntSize outputs.length + perInput * n +
    (outputs.map (fun o => 8 + varIntSize o.script.length + o.script.length)).sum

/-- The size `BRTransactionSize` gives an input without a signature that looks
signed. -/
def bareInputSize : ℕ := 41

section Selection

variable {codec : ScriptCodec} {w : BRWallet} {amount : UInt64}

theorem size_withCoins
    {tx : RawTransaction}
    (hnone : tx.inputs = [])
    (coins : List (BRUTXO × BRTxOutput)) :
    (withCoins codec tx coins).size = sizeFor tx.outputs bareInputSize coins.length := by
  have hsum : ((coins.map (spendInput codec)).map RawTransaction.inputSize).sum =
      bareInputSize * coins.length := by
    rw [List.map_map]
    have hconst : RawTransaction.inputSize ∘ spendInput codec = fun _ => bareInputSize := by
      funext coin
      rfl
    rw [hconst, List.map_const', List.sum_replicate, smul_eq_mul, Nat.mul_comm]
  rw [RawTransaction.size, sizeFor, withCoins]
  simp only [hnone, List.nil_append, hsum, List.length_map]

theorem withCoins_nil
    (tx : RawTransaction) :
    withCoins codec tx [] = tx := by
  simp [withCoins]

theorem withCoins_withCoins
    (tx : RawTransaction) (coins coins' : List (BRUTXO × BRTxOutput)) :
    withCoins codec (withCoins codec tx coins) coins' = withCoins codec tx (coins ++ coins') := by
  simp [withCoins]

/-- One iteration: a UTXO that does not resolve is skipped, another one is
added. -/
theorem selectUtxos_cons
    (o : BRUTXO) (os : List BRUTXO) (tx : RawTransaction) (balance feeAmount : UInt64) :
    selectUtxos codec w amount (o :: os) tx balance feeAmount =
      match w.spentOutput o with
      | none => selectUtxos codec w amount os tx balance feeAmount
      | some output =>
          if (withCoins codec tx [(o, output)]).size + txOutputSize > txMaxSize then
            .tooLarge balance feeAmount
          else if balance + output.amount = amount +
                roundedFee w amount (withCoins codec tx [(o, output)]).size ∨
              balance + output.amount ≥ amount +
                roundedFee w amount (withCoins codec tx [(o, output)]).size +
                  w.minOutputAmount then
            .done (withCoins codec tx [(o, output)]) (balance + output.amount)
              (roundedFee w amount (withCoins codec tx [(o, output)]).size)
          else
            selectUtxos codec w amount os (withCoins codec tx [(o, output)])
              (balance + output.amount)
              (roundedFee w amount (withCoins codec tx [(o, output)]).size) := by
  rw [selectUtxos, BRWallet.spentOutput]
  cases htx : getTx w.allTx o.hash with
  | none =>
      rfl
  | some t =>
      have hhash := getTx_hash htx
      dsimp only [Option.bind_some]
      cases t.outputs[o.n.toNat]? with
      | none =>
          rfl
      | some output =>
          have hadd : tx.addInput codec t.txHash o.n output.amount output.script txinSequence =
              withCoins codec tx [(o, output)] := by
            rw [hhash]
            rfl
          dsimp only
          rw [hadd]

/-- The coins that the loop has added when it is done. -/
structure Chosen (codec : ScriptCodec) (w : BRWallet) (amount : UInt64) (os : List BRUTXO)
    (tx : RawTransaction) (balance feeAmount : UInt64) (t : RawTransaction) (b f : UInt64)
    (coins : List (BRUTXO × BRTxOutput)) : Prop where
  sublist : (coins.map Prod.fst).Sublist os
  resolve : ∀ coin ∈ coins, w.spentOutput coin.1 = some coin.2
  tx_eq : t = withCoins codec tx coins
  balance_eq : b = balance + (coins.map (fun coin => coin.2.amount)).sum
  fee_eq : coins = [] ∧ f = feeAmount ∨
    coins ≠ [] ∧ f = roundedFee w amount t.size ∧ t.size + txOutputSize ≤ txMaxSize

theorem selectUtxos_done
    {os : List BRUTXO} {tx t : RawTransaction} {balance feeAmount b f : UInt64}
    (h : selectUtxos codec w amount os tx balance feeAmount = .done t b f) :
    ∃ coins, Chosen codec w amount os tx balance feeAmount t b f coins := by
  induction os generalizing tx balance feeAmount with
  | nil =>
      cases h
      exact ⟨[], List.Sublist.refl _, by simp, (withCoins_nil _).symm, by simp, Or.inl ⟨rfl, rfl⟩⟩
  | cons o os ih =>
      rw [selectUtxos_cons] at h
      cases hout : w.spentOutput o with
      | none =>
          rw [hout] at h
          obtain ⟨coins, hcoins⟩ := ih h
          exact ⟨coins, { hcoins with sublist := hcoins.sublist.cons o }⟩
      | some output =>
          rw [hout] at h
          dsimp only at h
          have hone : ∀ coin ∈ [(o, output)], w.spentOutput coin.1 = some coin.2 := by
            intro coin hcoin
            rw [List.mem_singleton.mp hcoin]
            exact hout
          split at h
          · cases h
          · rename_i hsize
            split at h
            · cases h
              exact ⟨[(o, output)], by simp, hone, rfl, by simp,
                Or.inr ⟨by simp, rfl, by omega⟩⟩
            · obtain ⟨coins, hcoins⟩ := ih h
              refine ⟨(o, output) :: coins, hcoins.sublist.cons_cons o, ?_, ?_, ?_, Or.inr ?_⟩
              · intro coin hcoin
                rcases List.mem_cons.mp hcoin with rfl | hcoin
                · exact hout
                · exact hcoins.resolve coin hcoin
              · rw [hcoins.tx_eq, withCoins_withCoins]
                rfl
              · rw [hcoins.balance_eq, List.map_cons, List.sum_cons, add_assoc]
              · rcases hcoins.fee_eq with ⟨hnil, hfee⟩ | ⟨hne, hfee, hle⟩
                · have ht := hcoins.tx_eq
                  rw [hnil, withCoins_nil] at ht
                  rw [ht]
                  exact ⟨by simp, hfee, by omega⟩
                · exact ⟨by simp, hfee, hle⟩

variable {os : List BRUTXO} {tx t : RawTransaction} {balance feeAmount b f : UInt64}
  {coins : List (BRUTXO × BRTxOutput)}

theorem Chosen.coins_le
    (h : Chosen codec w amount w.utxos tx balance feeAmount t b f coins) :
    (coins.map (fun coin => coin.2.amount.toNat)).sum ≤ w.coinTotal := by
  have hamounts : coins.map (fun coin => coin.2.amount.toNat) =
      (coins.map Prod.fst).map w.coinAmount := by
    rw [List.map_map]
    refine List.map_congr_left (fun coin hcoin => ?_)
    rw [Function.comp_apply, coinAmount_eq (h.resolve coin hcoin)]
  rw [hamounts, BRWallet.coinTotal]
  exact (h.sublist.map w.coinAmount).sum_le_sum (fun _ _ => Nat.zero_le _)

theorem Chosen.balance_toNat
    (h : Chosen codec w amount w.utxos tx 0 feeAmount t b f coins)
    (htotal : w.coinTotal < 2 ^ 64) :
    b.toNat = (coins.map (fun coin => coin.2.amount.toNat)).sum := by
  have hle := h.coins_le
  have hmap : (coins.map (fun coin => coin.2.amount)).map UInt64.toNat =
      coins.map (fun coin => coin.2.amount.toNat) := by
    rw [List.map_map]
    rfl
  rw [h.balance_eq, zero_add, toNat_sum (by rw [hmap]; omega), hmap]

end Selection

end BreadwalletCore
