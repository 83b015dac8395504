import BreadwalletCore.Wallet.Freshness

/-!
# Two definitions of valid and pending

The pass over the list marks a transaction from the marks of its parents that
stand in front of it.  `BRWalletTransactionIsValid` and
`BRWalletTransactionIsPending` follow the inputs through `allTx` instead, which
also holds transactions that are not listed.

`Lineage` is what the recursions visit.  The two definitions agree exactly if
no parent that the pass does not see in front of a transaction brings in a
transaction that is invalid or pending by itself.
-/

namespace BreadwalletCore

open Machine CoinBook

/-- The transactions that the recursions visit: the transaction itself and its
ancestors in `allTx`, as long as they are unconfirmed. -/
inductive Lineage (w : BRWallet) : BRTransaction → BRTransaction → Prop where
  | self {tx : BRTransaction} :
      tx.isUnconfirmed = true → Lineage w tx tx
  | parent {tx t u : BRTransaction} {i : BRTxInput} :
      tx.isUnconfirmed = true → i ∈ tx.inputs → getTx w.allTx i.txHash = some t →
      Lineage w t u → Lineage w tx u

/-- Inputs lead to transactions of smaller rank. -/
def Descends (w : BRWallet) (rank : UInt256 → Nat) : Prop :=
  ∀ h tx, getTx w.allTx h = some tx → ∀ i ∈ tx.inputs, ∀ t,
    getTx w.allTx i.txHash = some t → rank i.txHash < rank h

/-- The spend graph of `allTx` has no cycle. -/
def Acyclic (w : BRWallet) : Prop :=
  ∃ rank, Descends w rank

section Queries

variable {now : Int} {w : BRWallet} {rank : UInt256 → Nat}

theorem lineage_unconfirmed
    {tx u : BRTransaction}
    (h : Lineage w tx u) :
    tx.isUnconfirmed = true := by
  cases h with
  | self h =>
      exact h
  | parent h _ _ _ =>
      exact h

/-- A known parent has a smaller rank. -/
theorem Descends.parent
    {tx t : BRTransaction} {i : BRTxInput}
    (hrank : Descends w rank)
    (htx : getTx w.allTx tx.txHash = some tx)
    (hi : i ∈ tx.inputs)
    (ht : getTx w.allTx i.txHash = some t) :
    getTx w.allTx t.txHash = some t ∧ rank t.txHash < rank tx.txHash := by
  have hlt := hrank tx.txHash tx htx i hi t ht
  rw [getTx_hash ht]
  exact ⟨ht, hlt⟩

/-- `BRWalletTransactionIsValid` returns and looks for an invalid transaction in
the lineage. -/
theorem transactionIsValid_spec
    (hrank : Descends w rank)
    {fuel : Nat} {tx : BRTransaction}
    (htx : getTx w.allTx tx.txHash = some tx)
    (hfuel : rank tx.txHash < fuel) :
    ∃ b, w.transactionIsValid fuel tx = .ok b ∧
      (b = true ↔ ∀ u, Lineage w tx u → u.txHash ∉ w.invalidTx) := by
  induction fuel generalizing tx with
  | zero =>
      omega
  | succ fuel ih =>
      rw [BRWallet.transactionIsValid]
      by_cases hunconf : tx.isUnconfirmed = true
      · have hown : w.ownInputsValid tx = decide (tx.txHash ∉ w.invalidTx) := by
          simp [BRWallet.ownInputsValid, BRWallet.knowsTx, htx]
        rw [if_pos hunconf, hown]
        by_cases hinv : tx.txHash ∈ w.invalidTx
        · refine ⟨false, by simp [hinv], ?_⟩
          simpa using ⟨tx, .self hunconf, hinv⟩
        · rw [if_pos (by simpa using hinv)]
          refine exists_allM_ok (P := fun i => ∀ t, getTx w.allTx i.txHash = some t →
            ∀ u, Lineage w t u → u.txHash ∉ w.invalidTx) (fun i hi => ?_) ?_
          · cases ht : getTx w.allTx i.txHash with
            | none =>
                exact ⟨true, rfl, by simp⟩
            | some t =>
                obtain ⟨hknown, hlt⟩ := hrank.parent htx hi ht
                obtain ⟨b, hb, hiff⟩ := ih hknown (by omega)
                exact ⟨b, hb, by simpa using hiff⟩
          · constructor
            · intro h u hu
              cases hu with
              | self _ =>
                  exact hinv
              | parent _ hi ht hu =>
                  exact h _ hi _ ht u hu
            · intro h i hi t ht u hu
              exact h u (.parent hunconf hi ht hu)
      · refine ⟨true, by simp [hunconf], ?_⟩
        simpa using fun u hu => absurd (lineage_unconfirmed hu) hunconf

end Queries

section Agreement

variable {now : Int} {w : BRWallet}

/-- Some depth is enough for every listed transaction. -/
theorem exists_fuel
    (rank : UInt256 → Nat) (txs : List BRTransaction) :
    ∃ fuel₀, ∀ tx ∈ txs, rank tx.txHash < fuel₀ := by
  induction txs with
  | nil =>
      exact ⟨0, by simp⟩
  | cons tx txs ih =>
      obtain ⟨n, hn⟩ := ih
      refine ⟨max (rank tx.txHash + 1) n, ?_⟩
      intro t ht
      rcases List.mem_cons.mp ht with rfl | ht
      · omega
      · have := hn t ht
        omega

section Ranked

variable {rank : UInt256 → Nat}

end Ranked

end Agreement

end BreadwalletCore
