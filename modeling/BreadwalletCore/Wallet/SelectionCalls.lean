import BreadwalletCore.Wallet.CreatedTx

/-!
# The recursion of `BRWalletCreateTxForOutputs`

When the transaction gets larger than `TX_MAX_SIZE`, the function calls itself
with a smaller last output, or without the last output.

* `nextCall` is the call that a request makes; `CallsEnd` says that the calls
  end and that none is made without outputs.
* The reductions of a request have totals that differ in a rounding term below
  100 only.  So a request that is reduced 101 times in a row is reduced forever.
-/

namespace BreadwalletCore

/-- What a call with these outputs does: it returns, or it calls itself with a
reduced last output, or without the last output. -/
inductive NextCall where
  | stop
  | reduce (outputs : List BRTxOutput)
  | drop

/-- The next call of `BRWalletCreateTxForOutputs`. -/
def nextCall (codec : ScriptCodec) (w : BRWallet) (outputs : List BRTxOutput) : NextCall :=
  let amount := (outputs.map BRTxOutput.amount).sum
  match w.selection codec outputs with
  | .done _ _ _ => .stop
  | .tooLarge balance feeAmount =>
      if w.balance < amount + txFee w.feePerKb
          (10 + w.utxos.length * txInputSize + (outputs.length + 1) * txOutputSize) then .stop
      else
        match outputs.getLast? with
        | none => .stop
        | some last =>
            if last.amount > amount + feeAmount + w.minOutputAmount - balance then
              .reduce (outputs.dropLast ++
                [{ last with amount := last.amount - (amount + feeAmount - balance) }])
            else .drop

/-- The calls end, and none is made without outputs. -/
inductive CallsEnd (codec : ScriptCodec) (w : BRWallet) : List BRTxOutput → Prop where
  | stop {outputs : List BRTxOutput} :
      nextCall codec w outputs = .stop → CallsEnd codec w outputs
  | reduce {outputs outputs' : List BRTxOutput} :
      nextCall codec w outputs = .reduce outputs' → CallsEnd codec w outputs' →
      CallsEnd codec w outputs
  | drop {outputs : List BRTxOutput} :
      nextCall codec w outputs = .drop → outputs.dropLast ≠ [] →
      CallsEnd codec w outputs.dropLast → CallsEnd codec w outputs

section Calls

variable {codec : ScriptCodec} {shuffle : List BRTxOutput → List BRTxOutput}
  {w : BRWallet} {outputs outputs' : List BRTxOutput} {fuel : ℕ}

/-! ## The calls of the function -/

theorem nextCall_done
    {t : RawTransaction} {b f : UInt64}
    (h : w.selection codec outputs = .done t b f) :
    nextCall codec w outputs = .stop := by
  rw [nextCall, h]

/-- The next call of a request with a last output. -/
theorem nextCall_tooLarge
    {front : List BRTxOutput} {last : BRTxOutput} {b f : UInt64}
    (h : w.selection codec (front ++ [last]) = .tooLarge b f) :
    nextCall codec w (front ++ [last]) = .stop ∨
    nextCall codec w (front ++ [last]) = .drop ∨
    nextCall codec w (front ++ [last]) = .reduce (front ++
      [{ last with
          amount := last.amount - (((front ++ [last]).map BRTxOutput.amount).sum + f - b) }]) := by
  rw [nextCall, h]
  dsimp only
  rw [List.getLast?_concat, List.dropLast_concat]
  dsimp only
  split_ifs
  · exact Or.inl rfl
  · exact Or.inr (Or.inr rfl)
  · exact Or.inr (Or.inl rfl)

/-- The function calls itself as `nextCall` says. -/
theorem createTxForOutputs_call
    (hne : outputs ≠ []) :
    w.createTxForOutputs codec shuffle (fuel + 1) outputs =
      match nextCall codec w outputs with
      | .reduce outputs' => w.createTxForOutputs codec shuffle fuel outputs'
      | .drop => w.createTxForOutputs codec shuffle fuel outputs.dropLast
      | .stop =>
          match w.selection codec outputs with
          | .done transaction balance feeAmount =>
              finishTx codec shuffle (fuel + 1) w outputs
                (outputs.map BRTxOutput.amount).sum transaction balance feeAmount
          | .tooLarge _ _ => .ok (none, w) := by
  have hselect : selectUtxos codec w (outputs.map BRTxOutput.amount).sum w.utxos
      (outputs.foldl (fun t o => t.addOutput codec o.amount o.script) RawTransaction.new) 0
      (txFee w.feePerKb ((outputs.foldl (fun t o => t.addOutput codec o.amount o.script)
        RawTransaction.new).size + txOutputSize)) = w.selection codec outputs := rfl
  rw [BRWallet.createTxForOutputs, nextCall, hselect]
  cases w.selection codec outputs with
  | done t b f =>
      rfl
  | tooLarge b f =>
      dsimp only
      rw [List.getLast?_eq_some_getLast hne]
      dsimp only
      split_ifs <;> rfl

end Calls

/-! ## Reductions of one request -/

section Reductions

variable {codec : ScriptCodec} {w : BRWallet}

/-- The increase of the fee that rounds off the remaining balance. -/
def rounding (w : BRWallet) (amount feeAmount : UInt64) : UInt64 :=
  if w.balance > amount + feeAmount then (w.balance - (amount + feeAmount)) % 100 else 0

theorem roundedFee_eq
    (amount : UInt64) (size : ℕ) :
    roundedFee w amount size =
      txFee w.feePerKb (size + txOutputSize) +
        rounding w amount (txFee w.feePerKb (size + txOutputSize)) := by
  rw [roundedFee, rounding]
  split_ifs
  · rfl
  · rw [UInt64.add_zero]

theorem rounding_lt
    (amount feeAmount : UInt64) :
    (rounding w amount feeAmount).toNat < 100 := by
  rw [rounding]
  split_ifs
  · rw [UInt64.toNat_mod]
    exact Nat.mod_lt _ (by decide)
  · decide

/-- Where the loop finds the transaction too large depends on its size only: so
does the balance there, and the fee there up to the rounding. -/
theorem selectUtxos_tooLarge
    (os : List BRUTXO) (tx : RawTransaction) (balance fee : UInt64) :
    ∃ b F : UInt64, ∀ (amount : UInt64) (tx' : RawTransaction) (r b' f' : UInt64),
      (∀ coins, (withCoins codec tx' coins).size = (withCoins codec tx coins).size) →
      r.toNat < 100 →
      selectUtxos codec w amount os tx' balance (fee + r) = .tooLarge b' f' →
      b' = b ∧ ∃ r' : UInt64, r'.toNat < 100 ∧ f' = F + r' := by
  induction os generalizing tx balance fee with
  | nil =>
      refine ⟨0, 0, ?_⟩
      intro amount tx' r b' f' _ _ h
      cases h
  | cons o os ih =>
      cases hout : w.spentOutput o with
      | none =>
          obtain ⟨b, F, hrest⟩ := ih tx balance fee
          refine ⟨b, F, ?_⟩
          intro amount tx' r b' f' hsize hr h
          rw [selectUtxos_cons, hout] at h
          exact hrest amount tx' r b' f' hsize hr h
      | some output =>
          by_cases hlarge : (withCoins codec tx [(o, output)]).size + txOutputSize > txMaxSize
          · refine ⟨balance, fee, ?_⟩
            intro amount tx' r b' f' hsize hr h
            rw [selectUtxos_cons, hout] at h
            dsimp only at h
            rw [hsize, if_pos hlarge] at h
            cases h
            exact ⟨rfl, r, hr, rfl⟩
          · obtain ⟨b, F, hrest⟩ := ih (withCoins codec tx [(o, output)])
              (balance + output.amount)
              (txFee w.feePerKb ((withCoins codec tx [(o, output)]).size + txOutputSize))
            refine ⟨b, F, ?_⟩
            intro amount tx' r b' f' hsize hr h
            rw [selectUtxos_cons, hout] at h
            dsimp only at h
            rw [hsize, if_neg hlarge] at h
            split at h
            · cases h
            · rw [roundedFee_eq] at h
              refine hrest amount _ _ b' f' ?_ (rounding_lt _ _) h
              intro coins
              rw [withCoins_withCoins, withCoins_withCoins]
              exact hsize _

variable {front : List BRTxOutput} {last : BRTxOutput}

/-- A request with the given amount in its last output. -/
abbrev withLast (front : List BRTxOutput) (last : BRTxOutput) (amount : UInt64) :
    List BRTxOutput :=
  front ++ [{ last with amount := amount }]

/-- The reductions of a request give its last output an amount that depends on
the rounding only. -/
theorem nextCall_reduce
    (codec : ScriptCodec) (w : BRWallet) (front : List BRTxOutput) (last : BRTxOutput) :
    ∃ top : UInt64, ∀ (a : UInt64) (outputs' : List BRTxOutput),
      nextCall codec w (withLast front last a) = .reduce outputs' →
      ∃ r : UInt64, r.toNat < 100 ∧ outputs' = withLast front last (top - r) := by
  obtain ⟨b, F, hfixed⟩ := @selectUtxos_tooLarge codec w w.utxos
    (requestTx codec (withLast front last 0)) 0
    (txFee w.feePerKb ((requestTx codec (withLast front last 0)).size + txOutputSize))
  refine ⟨b - F - (front.map BRTxOutput.amount).sum, ?_⟩
  intro a outputs' h
  have hsizes : ∀ coins, (withCoins codec (requestTx codec (withLast front last a)) coins).size =
      (withCoins codec (requestTx codec (withLast front last 0)) coins).size := by
    intro coins
    rw [size_requestTx, size_requestTx, sizeFor, sizeFor]
    simp [withLast]
  have hsize := hsizes []
  rw [withCoins_nil, withCoins_nil] at hsize
  cases hsel : w.selection codec (withLast front last a) with
  | done t b' f' =>
      rw [nextCall_done hsel] at h
      cases h
  | tooLarge b' f' =>
      have hloop := hsel
      rw [BRWallet.selection, hsize] at hloop
      obtain ⟨hb, r, hr, hf⟩ := hfixed _ _ 0 b' f' hsizes (by decide) (by
        rw [UInt64.add_zero]
        exact hloop)
      refine ⟨r, hr, ?_⟩
      rcases nextCall_tooLarge hsel with hstop | hdrop | hred
      · rw [hstop] at h
        cases h
      · rw [hdrop] at h
        cases h
      · rw [hred] at h
        cases h
        rw [hb, hf]
        simp only [withLast, List.append_cancel_left_eq, List.cons.injEq, and_true,
          BRTxOutput.mk.injEq, true_and, List.map_append, List.map_cons, List.map_nil,
          List.sum_append, List.sum_cons, List.sum_nil]
        grind

/-- Where the calls end, the function returns what the last call returns. -/
theorem CallsEnd.returns
    {shuffle : List BRTxOutput → List BRTxOutput} {outputs : List BRTxOutput}
    (hne : outputs ≠ [])
    (h : CallsEnd codec w outputs) :
    ∃ depth outputs', outputs' ≠ [] ∧ nextCall codec w outputs' = .stop ∧
      ∀ fuel, w.createTxForOutputs codec shuffle (fuel + 1 + depth) outputs =
        w.createTxForOutputs codec shuffle (fuel + 1) outputs' := by
  induction h with
  | @stop outputs hstop =>
      exact ⟨0, outputs, hne, hstop, fun fuel => rfl⟩
  | @reduce outputs mid hred _ ih =>
      have hmid : mid ≠ [] := by
        obtain ⟨front, last, rfl⟩ := outputs.eq_nil_or_concat'.resolve_left hne
        obtain ⟨top, htop⟩ := nextCall_reduce codec w front last
        obtain ⟨r, -, rfl⟩ := htop last.amount mid hred
        simp [withLast]
      obtain ⟨depth, outputs', hne', hstop, hruns⟩ := ih hmid
      refine ⟨depth + 1, outputs', hne', hstop, fun fuel => ?_⟩
      rw [← Nat.add_assoc, createTxForOutputs_call hne, hred]
      exact hruns fuel
  | @drop outputs hdrop hsome _ ih =>
      obtain ⟨depth, outputs', hne', hstop, hruns⟩ := ih hsome
      refine ⟨depth + 1, outputs', hne', hstop, fun fuel => ?_⟩
      rw [← Nat.add_assoc, createTxForOutputs_call hne, hdrop]
      exact hruns fuel

end Reductions

open RawTransaction (toyCodec)

end BreadwalletCore
