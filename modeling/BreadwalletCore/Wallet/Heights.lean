import BreadwalletCore.Wallet.Freshness
import BreadwalletCore.Wallet.History

/-!
# Writing heights

What `BRWalletUpdateTransactions` and `BRWalletSetTxUnconfirmedAfter` do to the
heights of the listed transactions, in a wallet that is `Tidy`.
-/

namespace BreadwalletCore

open Machine

/-- The listed transactions are live, sorted by height and the wallet's own. -/
structure Tidy (w : BRWallet) : Prop where
  listed : Listed w
  sorted : HeightSorted w
  own : ∀ tx ∈ w.transactions, w.containsTx tx = true

/-- The heights of the listed transactions have been rewritten. -/
def Reheighted (f : UInt256 → UInt32 → UInt32) (w w' : BRWallet) : Prop :=
  ∀ tx' ∈ w'.transactions, ∃ tx ∈ w.transactions,
    tx.txHash = tx'.txHash ∧ tx'.blockHeight = f tx.txHash tx.blockHeight

section Wallet

variable {now : Int} {w w' : BRWallet} {events : List Event}

theorem containsTx_congr
    {tx : BRTransaction}
    (hall : w'.allTx = w.allTx)
    (haddrs : w'.allAddrs = w.allAddrs) :
    w'.containsTx tx = w.containsTx tx := by
  have hspends : w'.spendsOwn = w.spendsOwn := by
    funext i
    rw [BRWallet.spendsOwn, BRWallet.spendsOwn, hall, haddrs]
  rw [BRWallet.containsTx, BRWallet.containsTx, hspends, haddrs]

theorem Tidy.updateTransactions
    {txHashes : List UInt256} {blockHeight timestamp : UInt32}
    (hw : Tidy w)
    (h : w.updateTransactions now txHashes blockHeight timestamp = .ok (w', events)) :
    Tidy w' ∧ Reheighted (fun t b => if t ∈ txHashes then blockHeight else b) w w' := by
  have hlisted := hw.listed.updateTransactions h
  have hcall : step 0 w ⟨now, .updateTransactions txHashes blockHeight timestamp⟩ =
      .ok (w', events) := h
  have hsorted : HeightSorted w' := by
    refine hw.sorted.step hw.listed ?_ hcall
    intro tx htx _ _
    exact Or.inl (hw.own tx htx)
  obtain ⟨s, hs, -, hend⟩ := updateTransactions_cases h
  have hinv := SweepInv.loop hw.listed hs
  have hsame : w'.transactions = s.wallet.transactions ∧ w'.allTx = s.wallet.allTx ∧
      w'.allAddrs = s.wallet.allAddrs := by
    rcases hend with ⟨-, hbal⟩ | ⟨-, rfl⟩
    · obtain ⟨L, rfl⟩ := updateBalance_frame hbal
      exact ⟨rfl, rfl, rfl⟩
    · exact ⟨rfl, rfl, rfl⟩
  have hold : ∀ tx' ∈ w'.transactions, ∃ tx ∈ w.transactions, tx.txHash = tx'.txHash ∧
      tx' = if tx'.txHash ∈ txHashes then tx.setBlock blockHeight timestamp else tx := by
    intro tx' htx'
    have hget := hlisted.known tx' htx'
    rw [hsame.2.1] at hget
    obtain ⟨tx, htx, heq⟩ := updateLoop_getTx hs hget
    have hlists : s.wallet.listsTx tx'.txHash = true :=
      listsTx_iff.mpr ⟨tx', by rw [← hsame.1]; exact htx', rfl⟩
    rw [hinv.lists] at hlists
    obtain ⟨t, ht, hhash, hknown⟩ := (hw.listed.raiseHeight blockHeight).lists hlists
    rw [htx] at hknown
    cases hknown
    rw [raiseHeight_transactions] at ht
    exact ⟨tx, ht, hhash, heq⟩
  refine ⟨⟨hlisted, hsorted, ?_⟩, ?_⟩
  · intro tx' htx'
    obtain ⟨tx, htx, -, heq⟩ := hold tx' htx'
    have hsame' : w'.containsTx tx' = w.containsTx tx := by
      rw [containsTx_congr hsame.2.1 hsame.2.2, hinv.relevant, containsTx_raiseHeight, heq]
      split
      · exact containsTx_setBlock _ _ _
      · rfl
    rw [hsame']
    exact hw.own tx htx
  · intro tx' htx'
    obtain ⟨tx, htx, hhash, heq⟩ := hold tx' htx'
    refine ⟨tx, htx, hhash, ?_⟩
    rw [heq, ← hhash]
    dsimp only
    split <;> rfl

theorem Tidy.setTxUnconfirmedAfter
    {h : UInt32}
    (hw : Tidy w)
    (hle : h ≤ txUnconfirmed)
    (hset : w.setTxUnconfirmedAfter now h = .ok (w', events)) :
    Tidy w' ∧ Reheighted (fun _ b => if h < b then txUnconfirmed else b) w w' := by
  have htxs := setTxUnconfirmedAfter_transactions hw.listed hw.sorted hset
  have hcall : step 0 w ⟨now, .setTxUnconfirmedAfter h⟩ = .ok (w', events) := hset
  have hsorted : HeightSorted w' := by
    refine hw.sorted.step hw.listed ?_ hcall
    rintro a - b - ⟨hgt, hale, -⟩
    rw [UInt32.lt_iff_toNat_lt] at hgt
    rw [UInt32.le_iff_toNat_le] at hale hle
    omega
  have hcontains : ∀ tx, w'.containsTx tx = w.containsTx tx := by
    intro tx
    rcases setTxUnconfirmedAfter_cases hset with ⟨-, rfl, -⟩ | ⟨-, hbal, -⟩
    · rfl
    · obtain ⟨L, rfl⟩ := updateBalance_frame hbal
      have hmark : (BRWallet.markUnconfirmed { w with blockHeight := h }
          ((w.txAfter h).map (·.txHash))).containsTx tx = w.containsTx tx :=
        containsTx_writeTx _ (fun t => t.setBlock_txHash txUnconfirmed t.timestamp)
          (fun t => t.setBlock_outputs txUnconfirmed t.timestamp) tx
      exact hmark
  refine ⟨⟨hw.listed.step hcall, hsorted, ?_⟩, ?_⟩
  · intro tx' htx'
    rw [htxs] at htx'
    obtain ⟨tx, htx, rfl⟩ := List.mem_map.mp htx'
    rw [hcontains]
    split
    · exact (containsTx_setBlock _ _ _).trans (hw.own tx htx)
    · exact hw.own tx htx
  · intro tx' htx'
    rw [htxs] at htx'
    obtain ⟨tx, htx, rfl⟩ := List.mem_map.mp htx'
    refine ⟨tx, htx, ?_, ?_⟩
    · split <;> rfl
    · dsimp only
      split <;> rfl

end Wallet

end BreadwalletCore
