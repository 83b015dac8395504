import BreadwalletCore.Wallet.Accounting
import BreadwalletCore.Wallet.Operations

/-!
# What an operation can do

One inversion lemma for each operation: the states it can return, with the
conditions of the source under which it returns them and the callbacks it
makes.  Invariants are derived from these lemmas; nothing behind this module
unfolds an operation.

The invariant `Listed` (distinct transactions, all of them live objects of
`allTx`) holds in every reachable state.
-/

namespace BreadwalletCore

open Machine

section Frames

variable {now : Int} {w w' : BRWallet}

/-- The pass over the list only writes the ledger. -/
theorem updateBalance_frame
    (h : w.updateBalance now = .ok w') :
    ∃ L : Ledger, w' = { w with toLedger := L } := by
  rw [BRWallet.updateBalance, BRWallet.updateBalanceWith] at h
  cases hp : passTxs .wrapping now w w.transactions with
  | none =>
      rw [hp] at h
      cases h
  | some s =>
      rw [hp] at h
      cases h
      exact ⟨s.toLedger, rfl⟩

theorem updateBalance_transactions
    (h : w.updateBalance now = .ok w') :
    w'.transactions = w.transactions := by
  obtain ⟨L, rfl⟩ := updateBalance_frame h
  rfl

theorem updateBalance_listsTx
    (h : w.updateBalance now = .ok w')
    (txHash : UInt256) :
    w'.listsTx txHash = w.listsTx txHash := by
  rw [BRWallet.listsTx, BRWallet.listsTx, updateBalance_transactions h]

/-- The ledger that a successful pass leaves on a listed wallet. -/
theorem updateBalance_ledger
    (hw : Listed w)
    (h : w.updateBalance now = .ok w') :
    w' = { w with
      toLedger := ledgerOf now w.blockHeight w.allAddrs w.transactions } := by
  rw [updateBalance_eq hw.known] at h
  cases h
  rfl

/-- The wallet with both chains filled up to their gap limits. -/
def BRWallet.filled (fuel : Nat) (w : BRWallet) : BRWallet :=
  let w₁ := w.growChain false (w.newAddrs fuel sequenceGapLimitExternal false)
  w₁.growChain true (w₁.newAddrs fuel sequenceGapLimitInternal true)

@[simp] theorem filled_transactions
    (fuel : Nat) (w : BRWallet) :
    (w.filled fuel).transactions = w.transactions := by
  rfl

theorem fillChains_ok
    {fuel : Nat}
    (h : w.fillChains fuel = .ok w') :
    w' = w.filled fuel := by
  rw [BRWallet.fillChains, bind_eq_ok] at h
  obtain ⟨⟨w₁, a₁⟩, h₁, h⟩ := h
  rw [bind_eq_ok] at h
  obtain ⟨⟨w₂, a₂⟩, h₂, h⟩ := h
  cases h
  obtain rfl := unusedAddrs_ok h₁
  obtain rfl := unusedAddrs_ok h₂
  rfl

end Frames

/-! ## Inversion lemmas -/

section Inversion

variable {now : Int} {fuel : Nat} {w w' : BRWallet} {events : List Event}

/-- What `BRWalletRegisterTransaction` can do. -/
inductive Registered (fuel : Nat) (now : Int) (w : BRWallet) (tx : BRTransaction) :
    BRWallet → List Event → Bool → Prop where
  | unsigned :
      tx.isSigned = false → Registered fuel now w tx w [] false
  | known :
      tx.isSigned = true → w.knowsTx tx.txHash = true →
      Registered fuel now w tx w [] true
  | added {w₁ : BRWallet} :
      tx.isSigned = true → w.knowsTx tx.txHash = false → w.containsTx tx = true →
      ((w.addTx tx).insertTx tx).updateBalance now = .ok w₁ →
      Registered fuel now w tx (w₁.filled fuel)
        [.balanceChanged w₁.balance, .txAdded tx] true
  | refused :
      tx.isSigned = true → w.knowsTx tx.txHash = false → w.containsTx tx = false →
      Registered fuel now w tx (if tx.isUnconfirmed then w.addTx tx else w) [] false

theorem registerTransaction_cases
    {tx : BRTransaction} {r : Bool}
    (h : w.registerTransaction fuel now tx = .ok (w', events, r)) :
    Registered fuel now w tx w' events r := by
  rw [BRWallet.registerTransaction] at h
  split at h
  · rename_i hsigned
    split at h
    · rename_i hknown
      cases h
      exact .known hsigned hknown
    · rename_i hknown
      have hknown : w.knowsTx tx.txHash = false := by simpa using hknown
      split at h
      · rename_i hcontains
        rw [bind_eq_ok] at h
        obtain ⟨w₁, h₁, h⟩ := h
        rw [bind_eq_ok] at h
        obtain ⟨w₂, h₂, h⟩ := h
        cases h
        obtain rfl := fillChains_ok h₂
        exact .added hsigned hknown hcontains h₁
      · rename_i hcontains
        cases h
        exact .refused hsigned hknown (by simpa using hcontains)
  · rename_i hsigned
    cases h
    exact .unsigned (by simpa using hsigned)

/-- The write of `BRWalletUpdateTransactions` to one transaction. -/
def BRWallet.writeBlock (w : BRWallet) (txHash : UInt256)
    (blockHeight timestamp : UInt32) : BRWallet :=
  w.writeTx (fun h => h = txHash) (·.setBlock blockHeight timestamp)

/-- Writes to heights and timestamps do not change which transactions are
relevant. -/
theorem containsTx_writeTx
    (p : UInt256 → Bool) {f : BRTransaction → BRTransaction}
    (hhash : ∀ t, (f t).txHash = t.txHash)
    (houtputs : ∀ t, (f t).outputs = t.outputs)
    (tx : BRTransaction) :
    (w.writeTx p f).containsTx tx = w.containsTx tx := by
  have hspends : (w.writeTx p f).spendsOwn = w.spendsOwn := by
    funext i
    have hget : getTx (w.writeTx p f).allTx i.txHash =
        (getTx w.allTx i.txHash).map (fun a => if p i.txHash then f a else a) :=
      KeyedList.get_modify hhash p w.allTx i.txHash
    rw [BRWallet.spendsOwn, BRWallet.spendsOwn, hget]
    cases getTx w.allTx i.txHash with
    | none =>
        rfl
    | some t =>
        by_cases hp : p i.txHash = true
        · simp only [Option.map_some, hp, if_true, houtputs]
          rfl
        · simp only [Option.map_some, hp]
          rfl
  rw [BRWallet.containsTx, BRWallet.containsTx, hspends]
  rfl

theorem containsTx_writeBlock
    (txHash : UInt256) (blockHeight timestamp : UInt32) (tx : BRTransaction) :
    (w.writeBlock txHash blockHeight timestamp).containsTx tx = w.containsTx tx :=
  containsTx_writeTx _ (fun t => t.setBlock_txHash blockHeight timestamp)
    (fun t => t.setBlock_outputs blockHeight timestamp) tx

theorem containsTx_setBlock
    (blockHeight timestamp : UInt32) (tx : BRTransaction) :
    w.containsTx (tx.setBlock blockHeight timestamp) = w.containsTx tx := by
  rfl

/-- What one iteration of `BRWalletUpdateTransactions` can do. -/
inductive Updated (blockHeight timestamp : UInt32) (s : BRWallet.Sweep)
    (txHash : UInt256) : BRWallet.Sweep → Prop where
  | skipped :
      (∀ tx, getTx s.wallet.allTx txHash = some tx →
        tx.blockHeight = blockHeight ∧ tx.timestamp = timestamp) →
      Updated blockHeight timestamp s txHash s
  | moved {tx : BRTransaction} :
      getTx s.wallet.allTx txHash = some tx →
      ¬ (tx.blockHeight = blockHeight ∧ tx.timestamp = timestamp) →
      s.wallet.containsTx tx = true →
      Updated blockHeight timestamp s txHash
        { wallet :=
            if s.wallet.listsTx txHash then
              ((s.wallet.writeBlock txHash blockHeight timestamp).rmTx txHash).insertTx
                (tx.setBlock blockHeight timestamp)
            else s.wallet.writeBlock txHash blockHeight timestamp
          hashes := s.hashes ++ [txHash]
          needsUpdate :=
            s.needsUpdate || txHash ∈ s.wallet.pendingTx || txHash ∈ s.wallet.invalidTx }
  | freed {tx : BRTransaction} :
      getTx s.wallet.allTx txHash = some tx →
      ¬ (tx.blockHeight = blockHeight ∧ tx.timestamp = timestamp) →
      s.wallet.containsTx tx = false →
      blockHeight ≠ txUnconfirmed →
      s.wallet.listsTx txHash = false →
      Updated blockHeight timestamp s txHash
        { s with
          wallet :=
            { s.wallet.writeBlock txHash blockHeight timestamp with
              allTx := KeyedList.remove (·.txHash)
                (s.wallet.writeBlock txHash blockHeight timestamp).allTx txHash } }
  | foreign {tx : BRTransaction} :
      getTx s.wallet.allTx txHash = some tx →
      ¬ (tx.blockHeight = blockHeight ∧ tx.timestamp = timestamp) →
      s.wallet.containsTx tx = false →
      blockHeight = txUnconfirmed →
      Updated blockHeight timestamp s txHash
        { s with wallet := s.wallet.writeBlock txHash blockHeight timestamp }

theorem listsTx_iff
    {txHash : UInt256} :
    w.listsTx txHash = true ↔ ∃ tx ∈ w.transactions, tx.txHash = txHash := by
  simp [BRWallet.listsTx]

@[simp] theorem listsTx_writeTx
    (p : UInt256 → Bool) {f : BRTransaction → BRTransaction} (txHash : UInt256)
    (hf : ∀ t, (f t).txHash = t.txHash) :
    (w.writeTx p f).listsTx txHash = w.listsTx txHash := by
  rw [Bool.eq_iff_iff, listsTx_iff, listsTx_iff]
  constructor
  · rintro ⟨tx, htx, rfl⟩
    obtain ⟨b, hb, rfl⟩ := KeyedList.mem_modify.mp htx
    refine ⟨b, hb, ?_⟩
    split <;> simp [hf]
  · rintro ⟨tx, htx, rfl⟩
    refine ⟨_, KeyedList.mem_modify.mpr ⟨tx, htx, rfl⟩, ?_⟩
    split <;> simp [hf]

theorem listsTx_writeBlock
    (txHash h : UInt256) (blockHeight timestamp : UInt32) :
    (w.writeBlock txHash blockHeight timestamp).listsTx h = w.listsTx h :=
  listsTx_writeTx _ h (fun _ => rfl)

theorem updateTx_cases
    {blockHeight timestamp : UInt32} {s s' : BRWallet.Sweep} {txHash : UInt256}
    (h : BRWallet.updateTx blockHeight timestamp s txHash = .ok s') :
    Updated blockHeight timestamp s txHash s' := by
  rw [BRWallet.updateTx] at h
  split at h
  · rename_i hnone
    cases h
    exact .skipped (by simp [hnone])
  · rename_i tx htx
    split at h
    · rename_i hsame
      cases h
      refine .skipped ?_
      intro tx' htx'
      rw [htx] at htx'
      cases htx'
      exact hsame
    · rename_i hchanged
      dsimp only at h
      rw [← BRWallet.writeBlock, listsTx_writeBlock, containsTx_writeBlock,
        containsTx_setBlock] at h
      split at h
      · rename_i hcontains
        cases h
        exact .moved htx hchanged hcontains
      · rename_i hcontains
        have hcontains : s.wallet.containsTx tx = false := by
          simpa using hcontains
        split at h
        · rename_i hconf
          split at h
          · cases h
          · rename_i hlists
            cases h
            exact .freed htx hchanged hcontains hconf (by simpa using hlists)
        · rename_i hconf
          cases h
          exact .foreign htx hchanged hcontains (by simpa using hconf)

/-- An iteration only fails by freeing a listed transaction. -/
theorem updateTx_error
    {blockHeight timestamp : UInt32} {s : BRWallet.Sweep} {txHash : UInt256} {e : Fault}
    (h : BRWallet.updateTx blockHeight timestamp s txHash = .error e) :
    ∃ tx, getTx s.wallet.allTx txHash = some tx ∧
      ¬ (tx.blockHeight = blockHeight ∧ tx.timestamp = timestamp) ∧
      s.wallet.containsTx tx = false ∧
      blockHeight ≠ txUnconfirmed ∧ s.wallet.listsTx txHash = true := by
  rw [BRWallet.updateTx] at h
  split at h
  · cases h
  · rename_i tx htx
    split at h
    · cases h
    · rename_i hchanged
      dsimp only at h
      rw [← BRWallet.writeBlock, listsTx_writeBlock, containsTx_writeBlock,
        containsTx_setBlock] at h
      split at h
      · cases h
      · rename_i hcontains
        split at h
        · rename_i hconf
          split at h
          · rename_i hlists
            exact ⟨tx, htx, hchanged, by simpa using hcontains, hconf, hlists⟩
          · cases h
        · cases h

/-- What `BRWalletUpdateTransactions` does with the result of its loop. -/
theorem updateTransactions_cases
    {txHashes : List UInt256} {blockHeight timestamp : UInt32}
    (h : w.updateTransactions now txHashes blockHeight timestamp = .ok (w', events)) :
    ∃ s, txHashes.foldlM (BRWallet.updateTx blockHeight timestamp)
        { wallet := w.raiseHeight blockHeight } = .ok s ∧
      events = (if s.hashes = [] then []
        else [.txUpdated s.hashes blockHeight timestamp]) ∧
      (s.needsUpdate = true ∧ s.wallet.updateBalance now = .ok w' ∨
        s.needsUpdate = false ∧ w' = s.wallet) := by
  rw [BRWallet.updateTransactions, bind_eq_ok] at h
  obtain ⟨s, hs, h⟩ := h
  rw [bind_eq_ok] at h
  obtain ⟨w₁, h₁, h⟩ := h
  cases h
  refine ⟨s, hs, rfl, ?_⟩
  split at h₁
  · rename_i hneeds
    exact Or.inl ⟨hneeds, h₁⟩
  · rename_i hneeds
    cases h₁
    exact Or.inr ⟨by simpa using hneeds, rfl⟩

/-- What `BRWalletSetTxUnconfirmedAfter` can do. -/
theorem setTxUnconfirmedAfter_cases
    {blockHeight : UInt32}
    (h : w.setTxUnconfirmedAfter now blockHeight = .ok (w', events)) :
    (w.txAfter blockHeight = [] ∧ w' = { w with blockHeight := blockHeight } ∧
        events = []) ∨
      (w.txAfter blockHeight ≠ [] ∧
        BRWallet.updateBalance now
            (BRWallet.markUnconfirmed { w with blockHeight := blockHeight }
              ((w.txAfter blockHeight).map (·.txHash))) = .ok w' ∧
        events =
          [.txUpdated ((w.txAfter blockHeight).map (·.txHash)) txUnconfirmed 0]) := by
  rw [BRWallet.setTxUnconfirmedAfter] at h
  have hafter : BRWallet.txAfter { w with blockHeight := blockHeight } blockHeight =
      w.txAfter blockHeight := rfl
  rw [hafter] at h
  split at h
  · rename_i hnone
    cases h
    exact Or.inl ⟨List.map_eq_nil_iff.mp hnone, rfl, rfl⟩
  · rename_i hsome
    rw [bind_eq_ok] at h
    obtain ⟨w₁, h₁, h⟩ := h
    cases h
    refine Or.inr ⟨?_, h₁, rfl⟩
    intro hnil
    exact hsome (by rw [hnil]; rfl)

/-- **Removal rule.**  What the removal of one transaction keeps, the removal
with all dependent transactions keeps. -/
theorem removeTransaction_invariant
    {I : BRWallet → List Event → Prop}
    (hrm : ∀ w log txHash w' notifyUser recommendRescan,
      I w log → w.knowsTx txHash = true →
      (w.rmTx txHash).updateBalance now = .ok w' →
      I w' (log ++ [.balanceChanged w'.balance,
        .txDeleted txHash notifyUser recommendRescan]))
    {txHash : UInt256} {log : List Event}
    (hI : I w log)
    (h : BRWallet.removeTransaction now fuel w txHash = .ok (w', events)) :
    I w' (log ++ events) := by
  induction fuel generalizing w w' txHash log events with
  | zero =>
      cases h
  | succ fuel ih =>
      rw [BRWallet.removeTransaction] at h
      split at h
      · cases h
        simpa using hI
      · rename_i tx htx
        dsimp only at h
        split at h
        · rw [bind_eq_ok] at h
          obtain ⟨w₁, h₁, h⟩ := h
          rw [bind_eq_ok] at h
          obtain ⟨⟨notifyUser, recommendRescan⟩, -, h⟩ := h
          cases h
          exact hrm w log txHash _ notifyUser recommendRescan hI
            (by simp [BRWallet.knowsTx, htx]) h₁
        · -- the dependents first, then the transaction itself
          exact run_invariant
            (fun w log i w' o hw _ hs => ih hw hs) hI
            (guarded_of_forall (fun _ _ => trivial) _ _) h

/-- The removal rule for invariants that do not mention the callbacks. -/
theorem removeTransaction_state_invariant
    {I : BRWallet → Prop}
    (hrm : ∀ w txHash w', I w → w.knowsTx txHash = true →
      (w.rmTx txHash).updateBalance now = .ok w' → I w')
    {txHash : UInt256}
    (hI : I w)
    (h : BRWallet.removeTransaction now fuel w txHash = .ok (w', events)) :
    I w' := by
  have hlog : ∀ (w : BRWallet) (_ : List Event) txHash w' (_ _ : Bool), I w →
      w.knowsTx txHash = true → (w.rmTx txHash).updateBalance now = .ok w' → I w' :=
    fun w _ txHash w' _ _ => hrm w txHash w'
  exact @removeTransaction_invariant now fuel w w' events (fun w _ => I w) hlog
    txHash [] hI h

end Inversion

/-! ## `Listed` is an invariant -/

section Listed

variable {now : Int} {fuel : Nat} {w w' : BRWallet} {tx : BRTransaction}

theorem knowsTx_eq_false
    {txHash : UInt256} :
    w.knowsTx txHash = false ↔ getTx w.allTx txHash = none := by
  simp [BRWallet.knowsTx]

theorem Listed.lists
    (hw : Listed w)
    {txHash : UInt256}
    (h : w.listsTx txHash = true) :
    ∃ tx ∈ w.transactions, tx.txHash = txHash ∧ getTx w.allTx txHash = some tx := by
  obtain ⟨tx, htx, rfl⟩ := listsTx_iff.mp h
  exact ⟨tx, htx, rfl, hw.known tx htx⟩

theorem Listed.not_lists
    (hw : Listed w)
    {txHash : UInt256}
    (h : w.knowsTx txHash = false) :
    w.listsTx txHash = false := by
  rw [Bool.eq_false_iff]
  intro hlists
  obtain ⟨t, -, -, hget⟩ := hw.lists hlists
  rw [knowsTx_eq_false.mp h] at hget
  cases hget

/-- `Listed` only looks at the two containers. -/
theorem Listed.congr
    (hw : Listed w)
    (htxs : w'.transactions = w.transactions)
    (hall : w'.allTx = w.allTx) :
    Listed w' where
  nodup := by rw [htxs]; exact hw.nodup
  known := by rw [htxs, hall]; exact hw.known

theorem Listed.updateBalance
    (hw : Listed w)
    (h : w.updateBalance now = .ok w') :
    Listed w' := by
  obtain ⟨L, rfl⟩ := updateBalance_frame h
  exact hw.congr rfl rfl

theorem getTx_addTx
    (txHash : UInt256) :
    getTx (w.addTx tx).allTx txHash =
      if tx.txHash = txHash then some tx else getTx w.allTx txHash :=
  KeyedList.get_add w.allTx tx txHash

theorem Listed.addTx
    (hw : Listed w)
    (hnew : w.knowsTx tx.txHash = false) :
    Listed (w.addTx tx) where
  nodup := hw.nodup
  known := by
    intro t ht
    have hget := hw.known t ht
    have hne : tx.txHash ≠ t.txHash := by
      intro heq
      rw [← heq, knowsTx_eq_false.mp hnew] at hget
      cases hget
    rw [getTx_addTx, if_neg hne]
    exact hget

theorem insertTx_perm
    (w : BRWallet) (tx : BRTransaction) :
    (w.insertTx tx).transactions.Perm (tx :: w.transactions) :=
  TailScan.insert_perm _ tx w.transactions

@[simp] theorem mem_insertTx
    {t : BRTransaction} :
    t ∈ (w.insertTx tx).transactions ↔ t = tx ∨ t ∈ w.transactions :=
  TailScan.mem_insert

theorem Listed.insertTx
    (hw : Listed w)
    (hknown : getTx w.allTx tx.txHash = some tx)
    (hnew : w.listsTx tx.txHash = false) :
    Listed (w.insertTx tx) where
  nodup := by
    rw [((insertTx_perm w tx).map _).nodup_iff, List.map_cons, List.nodup_cons]
    refine ⟨?_, hw.nodup⟩
    intro hmem
    obtain ⟨t, ht, heq⟩ := List.mem_map.mp hmem
    rw [listsTx_iff.mpr ⟨t, ht, heq⟩] at hnew
    cases hnew
  known := by
    intro t ht
    rcases mem_insertTx.mp ht with rfl | ht
    · exact hknown
    · exact hw.known t ht

theorem getTx_writeTx
    {p : UInt256 → Bool} {f : BRTransaction → BRTransaction}
    (hf : ∀ t, (f t).txHash = t.txHash) (txHash : UInt256) :
    getTx (w.writeTx p f).allTx txHash =
      (getTx w.allTx txHash).map (fun t => if p txHash then f t else t) :=
  KeyedList.get_modify hf p w.allTx txHash

theorem Listed.writeTx
    (hw : Listed w)
    (p : UInt256 → Bool) {f : BRTransaction → BRTransaction}
    (hf : ∀ t, (f t).txHash = t.txHash) :
    Listed (w.writeTx p f) where
  nodup := by
    have hkeys : (w.writeTx p f).transactions.map (·.txHash) =
        w.transactions.map (·.txHash) :=
      KeyedList.map_key_modify hf p w.transactions
    rw [hkeys]
    exact hw.nodup
  known := by
    intro t ht
    obtain ⟨b, hb, rfl⟩ := KeyedList.mem_modify.mp ht
    have hkey : (if p b.txHash then f b else b).txHash = b.txHash := by
      split <;> simp [hf]
    rw [hkey, getTx_writeTx hf, hw.known b hb]
    rfl

theorem Listed.rmTx
    (hw : Listed w)
    (txHash : UInt256) :
    Listed (w.rmTx txHash) where
  nodup := hw.nodup.sublist ((KeyedList.eraseLast_sublist _ _).map _)
  known := fun t ht => hw.known t ((KeyedList.eraseLast_sublist _ _).subset ht)

/-- Removing a transaction leaves the other ones. -/
theorem Listed.rmTx_transactions
    (hw : Listed w)
    (txHash : UInt256) :
    (w.rmTx txHash).transactions = w.transactions.filter (fun t => t.txHash ≠ txHash) :=
  KeyedList.eraseLast_eq_filter hw.nodup txHash

theorem Listed.rmTx_not_lists
    (hw : Listed w)
    (txHash : UInt256) :
    (w.rmTx txHash).listsTx txHash = false := by
  rw [Bool.eq_false_iff]
  intro hlists
  obtain ⟨t, ht, heq⟩ := listsTx_iff.mp hlists
  rw [hw.rmTx_transactions, List.mem_filter] at ht
  simp [heq] at ht

theorem getTx_remove
    (l : List BRTransaction) (txHash h : UInt256) :
    getTx (KeyedList.remove (·.txHash) l txHash) h =
      if h = txHash then none else getTx l h :=
  KeyedList.get_remove l h txHash

theorem Listed.freeTx
    (hw : Listed w)
    {txHash : UInt256}
    (hunlisted : w.listsTx txHash = false) :
    Listed { w with allTx := KeyedList.remove (·.txHash) w.allTx txHash } where
  nodup := hw.nodup
  known := by
    intro t ht
    have hne : t.txHash ≠ txHash := by
      intro heq
      have hlists : w.listsTx txHash = true := listsTx_iff.mpr ⟨t, ht, heq⟩
      rw [hlists] at hunlisted
      cases hunlisted
    rw [getTx_remove, if_neg hne]
    exact hw.known t ht

theorem Listed.writeBlock
    (hw : Listed w)
    (txHash : UInt256) (blockHeight timestamp : UInt32) :
    Listed (w.writeBlock txHash blockHeight timestamp) :=
  hw.writeTx _ (fun t => t.setBlock_txHash blockHeight timestamp)

theorem getTx_writeBlock
    (txHash h : UInt256) (blockHeight timestamp : UInt32) :
    getTx (w.writeBlock txHash blockHeight timestamp).allTx h =
      (getTx w.allTx h).map
        (fun t => if h = txHash then t.setBlock blockHeight timestamp else t) := by
  have hget : getTx (w.writeBlock txHash blockHeight timestamp).allTx h =
      (getTx w.allTx h).map (fun t => if decide (h = txHash) = true then
        t.setBlock blockHeight timestamp else t) :=
    getTx_writeTx (fun t => t.setBlock_txHash blockHeight timestamp) h
  simpa using hget

theorem Listed.updateTx
    {blockHeight timestamp : UInt32} {s s' : BRWallet.Sweep} {txHash : UInt256}
    (hw : Listed s.wallet)
    (h : BRWallet.updateTx blockHeight timestamp s txHash = .ok s') :
    Listed s'.wallet := by
  have hwrite := hw.writeBlock txHash blockHeight timestamp
  cases updateTx_cases h with
  | skipped _ =>
      exact hw
  | @moved tx htx _ _ =>
      have hhash := getTx_hash htx
      split
      · refine (hwrite.rmTx txHash).insertTx ?_ ?_
        · change getTx (s.wallet.writeBlock txHash blockHeight timestamp).allTx
            tx.txHash = _
          rw [getTx_writeBlock, hhash, htx]
          simp
        · rw [BRTransaction.setBlock_txHash, hhash]
          exact hwrite.rmTx_not_lists txHash
      · exact hwrite
  | freed _ _ _ _ hunlisted =>
      exact hwrite.freeTx (by rw [listsTx_writeBlock]; exact hunlisted)
  | foreign _ _ _ _ =>
      exact hwrite

theorem raiseHeight_transactions
    (w : BRWallet) (blockHeight : UInt32) :
    (w.raiseHeight blockHeight).transactions = w.transactions := by
  rw [BRWallet.raiseHeight]
  split <;> rfl

theorem raiseHeight_allTx
    (w : BRWallet) (blockHeight : UInt32) :
    (w.raiseHeight blockHeight).allTx = w.allTx := by
  rw [BRWallet.raiseHeight]
  split <;> rfl

theorem Listed.raiseHeight
    (hw : Listed w)
    (blockHeight : UInt32) :
    Listed (w.raiseHeight blockHeight) :=
  hw.congr (raiseHeight_transactions w blockHeight) (raiseHeight_allTx w blockHeight)

theorem Listed.updateTransactions
    {txHashes : List UInt256} {blockHeight timestamp : UInt32} {events : List Event}
    (hw : Listed w)
    (h : w.updateTransactions now txHashes blockHeight timestamp = .ok (w', events)) :
    Listed w' := by
  obtain ⟨s, hs, -, hend⟩ := updateTransactions_cases h
  have hloop : Listed s.wallet :=
    foldlM_invariant (I := fun s => Listed s.wallet)
      (fun _ _ _ _ hs hstep => hs.updateTx hstep) (hw.raiseHeight blockHeight) hs
  rcases hend with ⟨-, hbal⟩ | ⟨-, rfl⟩
  · exact hloop.updateBalance hbal
  · exact hloop

theorem Listed.registerTransaction
    {events : List Event} {r : Bool}
    (hw : Listed w)
    (h : w.registerTransaction fuel now tx = .ok (w', events, r)) :
    Listed w' := by
  cases registerTransaction_cases h with
  | unsigned _ =>
      exact hw
  | known _ _ =>
      exact hw
  | added _ hknown _ hbal =>
      have hadd := (hw.addTx hknown).insertTx (by rw [getTx_addTx]; simp)
        (hw.not_lists hknown)
      exact (hadd.updateBalance hbal).congr rfl rfl
  | refused _ hknown _ =>
      split
      · exact hw.addTx hknown
      · exact hw

theorem Listed.step
    {c : Call} {events : List Event}
    (hw : Listed w)
    (h : step fuel w c = .ok (w', events)) :
    Listed w' := by
  obtain ⟨now, op⟩ := c
  cases op with
  | registerTransaction tx =>
      obtain ⟨⟨w₁, es, r⟩, hreg, hret⟩ := bind_eq_ok.mp h
      cases hret
      exact hw.registerTransaction hreg
  | updateTransactions txHashes blockHeight timestamp =>
      exact hw.updateTransactions h
  | setTxUnconfirmedAfter blockHeight =>
      rcases setTxUnconfirmedAfter_cases h with ⟨-, rfl, -⟩ | ⟨-, hbal, -⟩
      · exact hw.congr rfl rfl
      · have hset : Listed { w with blockHeight := blockHeight } := hw.congr rfl rfl
        exact (hset.writeTx _ (fun t => t.setBlock_txHash _ _)).updateBalance hbal
  | removeTransaction txHash =>
      exact removeTransaction_state_invariant
        (fun _ txHash _ hw _ hbal => (hw.rmTx txHash).updateBalance hbal) hw h
  | unusedAddrs gapLimit internal =>
      obtain ⟨⟨w₁, addrs⟩, hun, hret⟩ := bind_eq_ok.mp h
      cases hret
      obtain rfl := unusedAddrs_ok hun
      exact hw.congr rfl rfl

theorem Listed.run
    {calls : List Call} {log : List Event}
    (hw : Listed w)
    (h : runCalls fuel w calls = .ok (w', log)) :
    Listed w' :=
  run_preserves (fun _ _ _ _ hw hs => hw.step hs) hw h

theorem Listed.loadTx
    (hw : Listed w)
    (tx : BRTransaction) :
    Listed (w.loadTx tx) := by
  rw [BRWallet.loadTx]
  split
  · exact hw
  · rename_i hload
    have hknown : w.knowsTx tx.txHash = false := by
      simp only [Bool.or_eq_true, not_or, Bool.not_eq_true] at hload
      exact hload.2
    have hadd := (hw.addTx hknown).insertTx (by rw [getTx_addTx]; simp)
      (hw.not_lists hknown)
    exact hadd.congr rfl rfl

/-- What `BRWalletNew` returns. -/
theorem new_cases
    {txs : List BRTransaction} {mpk : BRMasterPubKey}
    (h : BRWallet.new fuel now txs mpk = .ok (some w)) :
    ((txs.foldl BRWallet.loadTx (.empty mpk)).filled fuel).updateBalance now = .ok w := by
  rw [BRWallet.new] at h
  obtain ⟨w₁, hfill, hnext⟩ := bind_eq_ok.mp h
  obtain ⟨w₂, hbal, hret⟩ := bind_eq_ok.mp hnext
  obtain rfl := fillChains_ok hfill
  rw [hbal]
  cases txs with
  | nil =>
      rw [Option.some.inj (Except.ok.inj hret)]
  | cons tx txs =>
      have hsome := Except.ok.inj hret
      split at hsome
      · rw [Option.some.inj hsome]
      · cases hsome

theorem Listed.loadTxs
    (txs : List BRTransaction)
    (hw : Listed w) :
    Listed (txs.foldl BRWallet.loadTx w) := by
  induction txs generalizing w with
  | nil =>
      exact hw
  | cons tx txs ih =>
      exact ih (hw.loadTx tx)

theorem Listed.new
    {txs : List BRTransaction} {mpk : BRMasterPubKey}
    (h : BRWallet.new fuel now txs mpk = .ok (some w)) :
    Listed w := by
  have hbal := new_cases h
  have hempty : Listed (.empty mpk) := ⟨List.nodup_nil, by intro t ht; cases ht⟩
  have hload := hempty.loadTxs txs
  have hfill : Listed ((txs.foldl BRWallet.loadTx (.empty mpk)).filled fuel) :=
    hload.congr rfl rfl
  exact hfill.updateBalance hbal

/-! ### What a new wallet lists -/

/-- What is found in the list: the listed part of `allTx`. -/
theorem Listed.getTx_transactions
    (hw : Listed w)
    (h : UInt256) :
    getTx w.transactions h = if w.listsTx h then getTx w.allTx h else none := by
  split
  · rename_i hlists
    obtain ⟨t, ht, rfl, hget⟩ := hw.lists hlists
    rw [hget]
    exact KeyedList.get_eq_some_of_mem hw.nodup ht
  · rename_i hlists
    rw [getTx, KeyedList.get, List.find?_eq_none]
    intro t ht heq
    exact hlists (listsTx_iff.mpr ⟨t, ht, by simpa using heq⟩)

/-- While transactions are loaded, exactly the known ones are listed. -/
structure Loaded (w : BRWallet) : Prop extends Listed w where
  knows_eq : ∀ h, w.knowsTx h = w.listsTx h

theorem knowsTx_addTx
    (h : UInt256) :
    (w.addTx tx).knowsTx h = (decide (tx.txHash = h) || w.knowsTx h) := by
  rw [BRWallet.knowsTx, getTx_addTx, BRWallet.knowsTx]
  by_cases heq : tx.txHash = h <;> simp [heq]

theorem listsTx_insertTx
    (w : BRWallet) (tx : BRTransaction) (h : UInt256) :
    (w.insertTx tx).listsTx h = (decide (tx.txHash = h) || w.listsTx h) := by
  rw [Bool.eq_iff_iff, Bool.or_eq_true, listsTx_iff, listsTx_iff]
  constructor
  · rintro ⟨t, ht, rfl⟩
    rcases mem_insertTx.mp ht with rfl | ht
    · exact Or.inl (by simp)
    · exact Or.inr ⟨t, ht, rfl⟩
  · rintro (heq | ⟨t, ht, rfl⟩)
    · exact ⟨tx, by simp, by simpa using heq⟩
    · exact ⟨t, by simp [ht], rfl⟩

theorem Loaded.loadTx
    (hw : Loaded w)
    (tx : BRTransaction) :
    Loaded (w.loadTx tx) := by
  refine ⟨hw.toListed.loadTx tx, ?_⟩
  intro h
  rw [BRWallet.loadTx]
  split
  · exact hw.knows_eq h
  · change (w.addTx tx).knowsTx h = ((w.addTx tx).insertTx tx).listsTx h
    rw [knowsTx_addTx, listsTx_insertTx, hw.knows_eq]
    rfl

/-- What is found after one more transaction has been loaded. -/
theorem Loaded.getTx_loadTx
    (hw : Loaded w)
    (tx : BRTransaction) (h : UInt256) :
    getTx (w.loadTx tx).transactions h =
      (getTx w.transactions h).or (getTx ([tx].filter (·.isSigned)) h) := by
  have hload := (hw.loadTx tx).toListed
  by_cases hsigned : tx.isSigned = true
  · have hone : getTx ([tx].filter (·.isSigned)) h =
        if tx.txHash = h then some tx else none := by
      have hfilter : [tx].filter (·.isSigned) = [tx] := by simp [hsigned]
      rw [hfilter, getTx, KeyedList.get_cons]
      rfl
    rw [hone, hw.toListed.getTx_transactions]
    by_cases hknown : w.knowsTx tx.txHash = true
    · have hsame : w.loadTx tx = w := by simp [BRWallet.loadTx, hknown]
      rw [hsame, hw.toListed.getTx_transactions]
      by_cases heq : tx.txHash = h
      · subst heq
        rw [← hw.knows_eq, hknown]
        obtain ⟨t, ht⟩ := Option.isSome_iff_exists.mp hknown
        simp [ht]
      · simp [heq]
    · have hloaded : (w.loadTx tx).transactions = ((w.addTx tx).insertTx tx).transactions ∧
          (w.loadTx tx).allTx = (w.addTx tx).allTx := by
        simp [BRWallet.loadTx, hknown, hsigned, BRWallet.insertTx]
      have hlists : (w.loadTx tx).listsTx h =
          (decide (tx.txHash = h) || w.listsTx h) := by
        rw [BRWallet.listsTx, hloaded.1]
        exact listsTx_insertTx (w.addTx tx) tx h
      rw [hload.getTx_transactions, hlists, hloaded.2, getTx_addTx]
      by_cases heq : tx.txHash = h
      · subst heq
        rw [← hw.knows_eq]
        simp [hknown]
      · simp [heq]
  · have hsame : w.loadTx tx = w := by simp [BRWallet.loadTx, hsigned]
    have hnone : [tx].filter (·.isSigned) = [] := by simp [hsigned]
    rw [hsame, hnone]
    simp

theorem getTx_append
    (l₁ l₂ : List BRTransaction) (h : UInt256) :
    getTx (l₁ ++ l₂) h = (getTx l₁ h).or (getTx l₂ h) :=
  List.find?_append

/-- What is found after an array of transactions has been loaded: for each hash
the first signed transaction. -/
theorem Loaded.getTx_loadTxs
    (hw : Loaded w)
    (txs : List BRTransaction) (h : UInt256) :
    getTx (txs.foldl BRWallet.loadTx w).transactions h =
      (getTx w.transactions h).or (getTx (txs.filter (·.isSigned)) h) := by
  induction txs generalizing w with
  | nil =>
      simp
  | cons tx txs ih =>
      have hsplit : tx :: txs = [tx] ++ txs := rfl
      rw [List.foldl_cons, ih (hw.loadTx tx), hw.getTx_loadTx, hsplit,
        List.filter_append, getTx_append, Option.or_assoc]

theorem getTx_new
    {txs : List BRTransaction} {mpk : BRMasterPubKey}
    (hnew : BRWallet.new fuel now txs mpk = .ok (some w))
    (h : UInt256) :
    getTx w.transactions h = getTx (txs.filter (·.isSigned)) h := by
  have hbal := new_cases hnew
  obtain ⟨L, rfl⟩ := updateBalance_frame hbal
  have hempty : Loaded (.empty mpk) :=
    ⟨⟨List.nodup_nil, by intro t ht; cases ht⟩, fun _ => rfl⟩
  have hload := hempty.getTx_loadTxs txs h
  have hnone : getTx (BRWallet.empty mpk).transactions h = none := rfl
  rw [hnone, Option.none_or] at hload
  exact hload

theorem new_subset
    {txs : List BRTransaction} {mpk : BRMasterPubKey}
    (hnew : BRWallet.new fuel now txs mpk = .ok (some w)) :
    ∀ tx ∈ w.transactions, tx ∈ txs := by
  intro tx htx
  have hget : getTx w.transactions tx.txHash = some tx :=
    KeyedList.get_eq_some_of_mem (Listed.new hnew).nodup htx
  rw [getTx_new hnew] at hget
  exact (List.mem_filter.mp (mem_of_getTx hget)).1

end Listed

/-! ## The loop of `BRWalletUpdateTransactions` -/

section Sweep

variable {w : BRWallet} {blockHeight timestamp : UInt32} {s s' : BRWallet.Sweep}

/-- Freeing an irrelevant transaction does not change which transactions are
relevant: none of its outputs is the wallet's. -/
theorem containsTx_freeTx
    {txHash : UInt256} {t : BRTransaction}
    (hget : getTx w.allTx txHash = some t)
    (hforeign : w.containsTx t = false)
    (tx : BRTransaction) :
    BRWallet.containsTx
        { w with allTx := KeyedList.remove (·.txHash) w.allTx txHash } tx =
      w.containsTx tx := by
  have hout : ∀ o ∈ t.outputs, o.address ∉ w.allAddrs := by
    intro o ho hmem
    have hpays : t.outputs.any (fun o => o.address ∈ w.allAddrs) = true := by
      simpa using ⟨o, ho, hmem⟩
    rw [BRWallet.containsTx, hpays] at hforeign
    cases hforeign
  have hspends : BRWallet.spendsOwn
      { w with allTx := KeyedList.remove (·.txHash) w.allTx txHash } = w.spendsOwn := by
    funext i
    rw [BRWallet.spendsOwn, BRWallet.spendsOwn, getTx_remove]
    by_cases hi : i.txHash = txHash
    · rw [if_pos hi, hi, hget]
      dsimp only
      split
      · rfl
      · rename_i o ho
        have hnot := hout o (List.mem_of_getElem? ho)
        simp [hnot]
    · rw [if_neg hi]
  rw [BRWallet.containsTx, BRWallet.containsTx, hspends]

/-- What holds at every iteration, compared with the wallet `w` in front of the
loop: the listed and the relevant transactions are the same, a transaction
without the new height and timestamp is as it was, and the collected hashes are
distinct and done with. -/
structure SweepInv (w : BRWallet) (blockHeight timestamp : UInt32)
    (s : BRWallet.Sweep) : Prop where
  listed : Listed s.wallet
  lists : ∀ h, s.wallet.listsTx h = w.listsTx h
  relevant : ∀ tx, s.wallet.containsTx tx = w.containsTx tx
  untouched : ∀ h tx, getTx s.wallet.allTx h = some tx →
    ¬ (tx.blockHeight = blockHeight ∧ tx.timestamp = timestamp) →
    getTx w.allTx h = some tx
  done : ∀ h ∈ s.hashes, ∀ tx, getTx s.wallet.allTx h = some tx →
    tx.blockHeight = blockHeight ∧ tx.timestamp = timestamp
  hashes_nodup : s.hashes.Nodup
  ledger : s.wallet.toLedger = w.toLedger
  allAddrs : s.wallet.allAddrs = w.allAddrs
  height : s.wallet.blockHeight = w.blockHeight

theorem SweepInv.start
    (hw : Listed w) :
    SweepInv (w.raiseHeight blockHeight) blockHeight timestamp
      { wallet := w.raiseHeight blockHeight } where
  listed := hw.raiseHeight blockHeight
  lists := fun _ => rfl
  relevant := fun _ => rfl
  untouched := fun _ _ h _ => h
  done := by
    intro h hmem
    cases hmem
  hashes_nodup := List.nodup_nil
  ledger := rfl
  allAddrs := rfl
  height := rfl

/-- After a write an item either has the new height and timestamp or is as it
was before. -/
theorem getTx_writeBlock_cases
    {txHash h : UInt256} {tx : BRTransaction}
    (hget : getTx (w.writeBlock txHash blockHeight timestamp).allTx h = some tx) :
    (tx.blockHeight = blockHeight ∧ tx.timestamp = timestamp) ∨
      h ≠ txHash ∧ getTx w.allTx h = some tx := by
  rw [getTx_writeBlock] at hget
  obtain ⟨t, ht, rfl⟩ := Option.map_eq_some_iff.mp hget
  by_cases hh : h = txHash
  · left
    simp [hh]
  · right
    simpa [hh] using ht

theorem Listed.listsTx_rmTx
    (hw : Listed w)
    (txHash h : UInt256) :
    (w.rmTx txHash).listsTx h = (decide (h ≠ txHash) && w.listsTx h) := by
  rw [Bool.eq_iff_iff, Bool.and_eq_true, listsTx_iff, listsTx_iff,
    hw.rmTx_transactions]
  constructor
  · rintro ⟨t, ht, rfl⟩
    rw [List.mem_filter] at ht
    exact ⟨ht.2, t, ht.1, rfl⟩
  · rintro ⟨hne, t, ht, rfl⟩
    exact ⟨t, List.mem_filter.mpr ⟨ht, hne⟩, rfl⟩

section WriteBlock

variable {txHash : UInt256}

/-- A transaction that a write leaves with another block is the one from before
the loop. -/
theorem SweepInv.writeBlock_untouched
    (hs : SweepInv w blockHeight timestamp s)
    {h : UInt256} {tx : BRTransaction}
    (hget : getTx (s.wallet.writeBlock txHash blockHeight timestamp).allTx h = some tx)
    (hnew : ¬ (tx.blockHeight = blockHeight ∧ tx.timestamp = timestamp)) :
    getTx w.allTx h = some tx := by
  rcases getTx_writeBlock_cases hget with hset | ⟨-, hold⟩
  · exact absurd hset hnew
  · exact hs.untouched h tx hold hnew

/-- The hashes collected so far, and the one written, have the new block. -/
theorem SweepInv.writeBlock_done
    (hs : SweepInv w blockHeight timestamp s)
    {h : UInt256} {tx : BRTransaction}
    (hmem : h ∈ s.hashes ++ [txHash])
    (hget : getTx (s.wallet.writeBlock txHash blockHeight timestamp).allTx h = some tx) :
    tx.blockHeight = blockHeight ∧ tx.timestamp = timestamp := by
  rcases getTx_writeBlock_cases hget with hset | ⟨hne, hold⟩
  · exact hset
  · rcases List.mem_append.mp hmem with hmem | hmem
    · exact hs.done h hmem tx hold
    · exact absurd (List.mem_singleton.mp hmem) hne

/-- A hash is collected once: the second time nothing would change. -/
theorem SweepInv.hashes_concat_nodup
    (hs : SweepInv w blockHeight timestamp s)
    {tx : BRTransaction}
    (htx : getTx s.wallet.allTx txHash = some tx)
    (hchanged : ¬ (tx.blockHeight = blockHeight ∧ tx.timestamp = timestamp)) :
    (s.hashes ++ [txHash]).Nodup := by
  refine List.nodup_append.mpr ⟨hs.hashes_nodup, List.nodup_singleton _, ?_⟩
  rintro a ha b hb rfl
  rw [List.mem_singleton.mp hb] at ha
  exact hchanged (hs.done txHash ha tx htx)

/-- Moving a listed transaction changes no membership. -/
theorem Listed.listsTx_moved
    {tx : BRTransaction}
    (hw : Listed w)
    (htx : getTx w.allTx txHash = some tx)
    (hlists : w.listsTx txHash = true)
    (h : UInt256) :
    (((w.writeBlock txHash blockHeight timestamp).rmTx txHash).insertTx
      (tx.setBlock blockHeight timestamp)).listsTx h = w.listsTx h := by
  rw [listsTx_insertTx, (hw.writeBlock txHash blockHeight timestamp).listsTx_rmTx,
    listsTx_writeBlock, BRTransaction.setBlock_txHash, getTx_hash htx]
  by_cases hh : txHash = h
  · subst hh
    simp [hlists]
  · have hne : h ≠ txHash := fun heq => hh heq.symm
    simp [hh, hne]

theorem SweepInv.updateTx
    (hs : SweepInv w blockHeight timestamp s)
    (h : BRWallet.updateTx blockHeight timestamp s txHash = .ok s') :
    SweepInv w blockHeight timestamp s' := by
  have hlisted := hs.listed.updateTx h
  cases updateTx_cases h with
  | skipped _ =>
      exact hs
  | @moved tx htx hchanged _ =>
      have hnodup := hs.hashes_concat_nodup htx hchanged
      by_cases hlists : s.wallet.listsTx txHash = true
      · rw [if_pos hlists] at hlisted ⊢
        refine ⟨hlisted, ?_, ?_, fun _ _ hget => hs.writeBlock_untouched hget,
          fun _ hmem _ => hs.writeBlock_done hmem, hnodup, hs.ledger, hs.allAddrs, hs.height⟩
        · intro h
          exact (hs.listed.listsTx_moved htx hlists h).trans (hs.lists h)
        · intro tx'
          exact (containsTx_writeBlock txHash blockHeight timestamp tx').trans
            (hs.relevant tx')
      · rw [if_neg hlists] at hlisted ⊢
        refine ⟨hlisted, ?_, ?_, fun _ _ hget => hs.writeBlock_untouched hget,
          fun _ hmem _ => hs.writeBlock_done hmem, hnodup, hs.ledger, hs.allAddrs, hs.height⟩
        · intro h
          rw [listsTx_writeBlock, hs.lists]
        · intro tx'
          rw [containsTx_writeBlock, hs.relevant]
  | @freed tx htx hchanged hforeign _ _ =>
      have hremoved : ∀ h tx,
          getTx (KeyedList.remove (·.txHash)
            (s.wallet.writeBlock txHash blockHeight timestamp).allTx txHash) h =
              some tx →
          getTx (s.wallet.writeBlock txHash blockHeight timestamp).allTx h = some tx := by
        intro h tx hget
        rw [getTx_remove] at hget
        split at hget
        · cases hget
        · exact hget
      refine ⟨hlisted, ?_, ?_, ?_, ?_, hs.hashes_nodup, hs.ledger, hs.allAddrs,
        hs.height⟩
      · intro h
        exact (listsTx_writeBlock txHash h blockHeight timestamp).trans (hs.lists h)
      · intro tx'
        have hwritten : getTx (s.wallet.writeBlock txHash blockHeight timestamp).allTx
            txHash = some (tx.setBlock blockHeight timestamp) := by
          rw [getTx_writeBlock, htx]
          simp
        rw [containsTx_freeTx hwritten
            (by rw [containsTx_writeBlock, containsTx_setBlock]; exact hforeign),
          containsTx_writeBlock, hs.relevant]
      · intro h tx' hget hnew
        exact hs.writeBlock_untouched (hremoved h tx' hget) hnew
      · intro h hmem tx' hget
        exact hs.writeBlock_done (List.mem_append_left _ hmem) (hremoved h tx' hget)
  | foreign _ _ _ _ =>
      refine ⟨hlisted, ?_, ?_, fun _ _ hget => hs.writeBlock_untouched hget, ?_,
        hs.hashes_nodup, hs.ledger, hs.allAddrs, hs.height⟩
      · intro h
        rw [listsTx_writeBlock, hs.lists]
      · intro tx'
        rw [containsTx_writeBlock, hs.relevant]
      · intro h hmem tx' hget
        exact hs.writeBlock_done (List.mem_append_left _ hmem) hget

end WriteBlock

/-- The invariant holds behind the loop. -/
theorem SweepInv.loop
    {txHashes : List UInt256}
    (hw : Listed w)
    (hloop : txHashes.foldlM (BRWallet.updateTx blockHeight timestamp)
      { wallet := w.raiseHeight blockHeight } = .ok s) :
    SweepInv (w.raiseHeight blockHeight) blockHeight timestamp s :=
  foldlM_invariant (fun _ _ _ _ hs hstep => SweepInv.updateTx hs hstep)
    (SweepInv.start hw) hloop

end Sweep

end BreadwalletCore
