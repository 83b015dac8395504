import BreadwalletCore.Wallet.Transitions

/-!
# The order of the history

`wallet->transactions` is kept sorted by block height by an insertion sort.
`BRWalletTxUnconfirmedBefore` and `BRWalletSetTxUnconfirmedAfter` scan it from
the end and rely on that order.

Heights are also written in place.  `BRWalletUpdateTransactions` moves a
transaction to its new place only if `_BRWalletContainsTx` holds of it, while
`BRWalletNew` lists transactions without asking, so a listed transaction that
is not the wallet's keeps its place when it becomes unconfirmed, and is freed
when it is confirmed.
-/

namespace BreadwalletCore

open Machine

/-- The list is sorted by block height. -/
def HeightSorted (w : BRWallet) : Prop :=
  TailScan.SortedBy (fun t : BRTransaction => t.blockHeight.toNat) w.transactions

/-- The calls that keep the history in order.  An update changes no listed
transaction that is not the wallet's, except for the timestamp of an
unconfirmed one.  A reset to a height above `TX_UNCONFIRMED` does not mark
transactions behind ones that it leaves above `TX_UNCONFIRMED`. -/
def HeightSafe (w : BRWallet) (c : Call) : Prop :=
  match c.op with
  | .updateTransactions txHashes blockHeight timestamp =>
      ∀ tx ∈ w.transactions, tx.txHash ∈ txHashes →
        ¬ (tx.blockHeight = blockHeight ∧ tx.timestamp = timestamp) →
        w.containsTx tx = true ∨
          blockHeight = txUnconfirmed ∧ tx.blockHeight = txUnconfirmed
  | .setTxUnconfirmedAfter blockHeight =>
      ∀ a ∈ w.transactions, ∀ b ∈ w.transactions,
        ¬ (txUnconfirmed < a.blockHeight ∧ a.blockHeight ≤ blockHeight ∧
          blockHeight < b.blockHeight)
  | _ => True

/-- The history is in order: sorted, without duplicates, made of live
transactions of `allTx`, and the two scans from its end see everything. -/
structure Ordered (w : BRWallet) : Prop where
  sorted : HeightSorted w
  listed : Listed w
  unconfirmedBefore : ∀ h,
    w.txUnconfirmedBefore h = w.transactions.filter (fun t => t.blockHeight ≥ h)
  unconfirmedAfter : ∀ now h, ∃ w' events,
    w.setTxUnconfirmedAfter now h = .ok (w', events) ∧
    w'.transactions = w.transactions.map (fun t =>
      if t.blockHeight > h then t.setBlock txUnconfirmed t.timestamp else t)

/-! ## Insertion -/

section Insertion

variable {w : BRWallet} {tx a : BRTransaction}

theorem txIsAscending_of_gt
    (h : tx.blockHeight < a.blockHeight) :
    w.txIsAscending a tx = true := by
  rw [BRWallet.txIsAscending, txIsAscendingAux, if_pos h]

theorem txIsAscending_of_lt
    (h : a.blockHeight < tx.blockHeight) :
    w.txIsAscending a tx = false := by
  rw [BRWallet.txIsAscending, txIsAscendingAux, if_neg (UInt32.lt_asymm h), if_pos h]

theorem txCompare_of_gt
    (h : tx.blockHeight < a.blockHeight) :
    0 < w.txCompare a tx := by
  simp [BRWallet.txCompare, txIsAscending_of_gt h]

theorem txCompare_of_lt
    (h : a.blockHeight < tx.blockHeight) :
    ¬ 0 < w.txCompare a tx := by
  simp [BRWallet.txCompare, txIsAscending_of_gt h, txIsAscending_of_lt h]

/-- Insertion keeps the list sorted, whatever the comparison answers on equal
heights. -/
theorem HeightSorted.insertTx
    (hw : HeightSorted w)
    (tx : BRTransaction) :
    HeightSorted (w.insertTx tx) := by
  apply TailScan.SortedBy.insert hw
  · intro a ha
    have := @txCompare_of_gt w tx a (UInt32.lt_iff_toNat_lt.mpr ha)
    simpa using this
  · intro a ha
    have := @txCompare_of_lt w tx a (UInt32.lt_iff_toNat_lt.mpr ha)
    simpa using this

theorem HeightSorted.rmTx
    (hw : HeightSorted w)
    (txHash : UInt256) :
    HeightSorted (w.rmTx txHash) :=
  TailScan.SortedBy.sublist hw (KeyedList.eraseLast_sublist _ _)

end Insertion

/-! ## Scans from the end -/

section Scans

variable {w : BRWallet}

theorem HeightSorted.txUnconfirmedBefore_eq
    (hw : HeightSorted w)
    (h : UInt32) :
    w.txUnconfirmedBefore h = w.transactions.filter (fun t => t.blockHeight ≥ h) := by
  apply TailScan.rtakeWhile_eq_filter hw
  intro a b hab ha
  simp only [ge_iff_le, decide_eq_true_eq, UInt32.le_iff_toNat_le] at ha ⊢
  omega

theorem HeightSorted.txAfter_eq
    (hw : HeightSorted w)
    (h : UInt32) :
    w.txAfter h = w.transactions.filter (fun t => t.blockHeight > h) := by
  apply TailScan.rtakeWhile_eq_filter hw
  intro a b hab ha
  simp only [gt_iff_lt, decide_eq_true_eq, UInt32.lt_iff_toNat_lt] at ha ⊢
  omega

/-- Marking through the collected hashes marks the collected transactions. -/
theorem markUnconfirmed_transactions
    (hlisted : Listed w)
    (hsorted : HeightSorted w)
    (h : UInt32) :
    (w.markUnconfirmed ((w.txAfter h).map (·.txHash))).transactions =
      w.transactions.map (fun t =>
        if t.blockHeight > h then t.setBlock txUnconfirmed t.timestamp else t) := by
  rw [hsorted.txAfter_eq]
  apply List.map_congr_left
  intro t ht
  have hiff : t.txHash ∈ (w.transactions.filter (fun t => t.blockHeight > h)).map
      (·.txHash) ↔ t.blockHeight > h := by
    constructor
    · intro hmem
      obtain ⟨u, hu, heq⟩ := List.mem_map.mp hmem
      obtain ⟨hul, huh⟩ := List.mem_filter.mp hu
      have hut : u = t := by
        have hgu := hlisted.known u hul
        rw [heq, hlisted.known t ht] at hgu
        exact (Option.some.inj hgu).symm
      rw [← hut]
      simpa using huh
    · intro hgt
      exact List.mem_map.mpr ⟨t, List.mem_filter.mpr ⟨ht, by simpa using hgt⟩, rfl⟩
  by_cases hgt : t.blockHeight > h
  · simp only [hiff.mpr hgt, hgt, decide_true, if_true]
  · simp only [hiff, hgt, decide_false, if_false, Bool.false_eq_true]

theorem setTxUnconfirmedAfter_transactions
    {now : Int} {h : UInt32} {w' : BRWallet} {events : List Event}
    (hlisted : Listed w)
    (hsorted : HeightSorted w)
    (hset : w.setTxUnconfirmedAfter now h = .ok (w', events)) :
    w'.transactions = w.transactions.map (fun t =>
      if t.blockHeight > h then t.setBlock txUnconfirmed t.timestamp else t) := by
  rcases setTxUnconfirmedAfter_cases hset with ⟨hnone, rfl, -⟩ | ⟨-, hbal, -⟩
  · rw [hsorted.txAfter_eq, List.filter_eq_nil_iff] at hnone
    have hsame : w.transactions.map (fun t =>
        if t.blockHeight > h then t.setBlock txUnconfirmed t.timestamp else t) =
          w.transactions.map id := by
      apply List.map_congr_left
      intro t ht
      rw [if_neg (by simpa using hnone t ht)]
      rfl
    rw [hsame, List.map_id]
  · obtain ⟨L, rfl⟩ := updateBalance_frame hbal
    have hlisted' : Listed { w with blockHeight := h } := hlisted.congr rfl rfl
    have hsorted' : HeightSorted { w with blockHeight := h } := hsorted
    exact markUnconfirmed_transactions hlisted' hsorted' h

theorem setTxUnconfirmedAfter_returns
    (hlisted : Listed w)
    (now : Int) (h : UInt32) :
    ∃ w' events, w.setTxUnconfirmedAfter now h = .ok (w', events) := by
  have hset : Listed { w with blockHeight := h } := hlisted.congr rfl rfl
  have hmark : Listed (BRWallet.markUnconfirmed { w with blockHeight := h }
      ((w.txAfter h).map (·.txHash))) :=
    hset.writeTx _ (fun t => t.setBlock_txHash _ _)
  obtain ⟨w₁, hbal⟩ : ∃ w₁, BRWallet.updateBalance now
      (BRWallet.markUnconfirmed { w with blockHeight := h }
        ((w.txAfter h).map (·.txHash))) = .ok w₁ :=
    ⟨_, updateBalance_eq hmark.known⟩
  by_cases hnone : (w.txAfter h).map (·.txHash) = []
  · exact ⟨_, _, if_pos hnone⟩
  · exact ⟨_, _, Eq.trans (if_neg hnone) (bind_eq_ok.mpr ⟨w₁, hbal, rfl⟩)⟩

theorem ordered_of_sorted
    (hlisted : Listed w)
    (hsorted : HeightSorted w) :
    Ordered w where
  sorted := hsorted
  listed := hlisted
  unconfirmedBefore := hsorted.txUnconfirmedBefore_eq
  unconfirmedAfter := by
    intro now h
    obtain ⟨w', events, hset⟩ := setTxUnconfirmedAfter_returns hlisted now h
    exact ⟨w', events, hset, setTxUnconfirmedAfter_transactions hlisted hsorted hset⟩

end Scans

/-! ## Steps -/

section Steps

variable {now : Int} {fuel : Nat} {w w' : BRWallet}

theorem writeBlock_transactions
    (w : BRWallet) (txHash : UInt256) (blockHeight timestamp : UInt32) :
    (w.writeBlock txHash blockHeight timestamp).transactions =
      w.transactions.map (fun t =>
        if t.txHash = txHash then t.setBlock blockHeight timestamp else t) := by
  change List.map _ w.transactions = _
  simp

/-- A write to an unlisted transaction leaves the list. -/
theorem writeBlock_transactions_of_unlisted
    {txHash : UInt256} {blockHeight timestamp : UInt32}
    (h : w.listsTx txHash = false) :
    (w.writeBlock txHash blockHeight timestamp).transactions = w.transactions := by
  have hsame : w.transactions.map (fun t =>
      if t.txHash = txHash then t.setBlock blockHeight timestamp else t) =
        w.transactions.map id := by
    apply List.map_congr_left
    intro t ht
    have hne : t.txHash ≠ txHash := by
      intro heq
      rw [listsTx_iff.mpr ⟨t, ht, heq⟩] at h
      cases h
    rw [if_neg hne]
    rfl
  rw [writeBlock_transactions, hsame, List.map_id]

/-- Once the written transaction is taken out, the write is not seen. -/
theorem writeBlock_rmTx_transactions
    (hw : Listed w)
    (txHash : UInt256) (blockHeight timestamp : UInt32) :
    ((w.writeBlock txHash blockHeight timestamp).rmTx txHash).transactions =
      w.transactions.filter (fun t => t.txHash ≠ txHash) := by
  rw [(hw.writeBlock txHash blockHeight timestamp).rmTx_transactions,
    writeBlock_transactions, List.filter_map]
  have hkey : ((fun t : BRTransaction => decide (t.txHash ≠ txHash)) ∘ fun t =>
      if t.txHash = txHash then t.setBlock blockHeight timestamp else t) =
        fun t : BRTransaction => decide (t.txHash ≠ txHash) := by
    funext t
    by_cases ht : t.txHash = txHash <;> simp [ht]
  rw [hkey]
  have hsame : (w.transactions.filter (fun t => t.txHash ≠ txHash)).map (fun t =>
      if t.txHash = txHash then t.setBlock blockHeight timestamp else t) =
        (w.transactions.filter (fun t => t.txHash ≠ txHash)).map id := by
    apply List.map_congr_left
    intro t ht
    rw [if_neg (by simpa using (List.mem_filter.mp ht).2)]
    rfl
  rw [hsame, List.map_id]

/-- A write that keeps the heights keeps the order. -/
theorem HeightSorted.of_heights
    (hw : HeightSorted w)
    (h : w'.transactions.map (·.blockHeight) = w.transactions.map (·.blockHeight)) :
    HeightSorted w' := by
  have hkeys : ∀ l : List BRTransaction,
      TailScan.SortedBy (fun t : BRTransaction => t.blockHeight.toNat) l ↔
        (l.map (·.blockHeight)).Pairwise (fun a b => a.toNat ≤ b.toNat) := by
    intro l
    rw [List.pairwise_map]
    rfl
  rw [HeightSorted, hkeys, h, ← hkeys]
  exact hw

/-- One iteration of an update keeps the list sorted, as long as it does not
change a listed transaction that is not the wallet's. -/
theorem HeightSorted.updateTx
    {blockHeight timestamp : UInt32} {s s' : BRWallet.Sweep} {txHash : UInt256}
    (hlisted : Listed s.wallet)
    (hsorted : HeightSorted s.wallet)
    (hsafe : ∀ tx, getTx s.wallet.allTx txHash = some tx →
      s.wallet.listsTx txHash = true →
      ¬ (tx.blockHeight = blockHeight ∧ tx.timestamp = timestamp) →
      s.wallet.containsTx tx = true ∨
        blockHeight = txUnconfirmed ∧ tx.blockHeight = txUnconfirmed)
    (h : BRWallet.updateTx blockHeight timestamp s txHash = .ok s') :
    HeightSorted s'.wallet := by
  have hunlisted : s.wallet.listsTx txHash = false →
      HeightSorted (s.wallet.writeBlock txHash blockHeight timestamp) := by
    intro hl
    rw [HeightSorted, writeBlock_transactions_of_unlisted hl]
    exact hsorted
  cases updateTx_cases h with
  | skipped _ =>
      exact hsorted
  | moved _ _ _ =>
      by_cases hl : s.wallet.listsTx txHash = true
      · rw [if_pos hl]
        apply HeightSorted.insertTx
        rw [HeightSorted, writeBlock_rmTx_transactions hlisted]
        exact TailScan.SortedBy.sublist hsorted List.filter_sublist
      · rw [if_neg hl]
        exact hunlisted (by simpa using hl)
  | freed _ _ _ _ hl =>
      exact hunlisted hl
  | @foreign tx htx hchanged hforeign _ =>
      by_cases hl : s.wallet.listsTx txHash = true
      · rcases hsafe tx htx hl hchanged with hcontains | ⟨rfl, hheight⟩
        · rw [hforeign] at hcontains
          cases hcontains
        · -- only the timestamp of an unconfirmed transaction changes
          refine hsorted.of_heights ?_
          rw [writeBlock_transactions, List.map_map]
          apply List.map_congr_left
          intro t ht
          by_cases heq : t.txHash = txHash
          · have hget := hlisted.known t ht
            rw [heq, htx] at hget
            cases hget
            simp [heq, hheight]
          · simp [heq]
      · exact hunlisted (by simpa using hl)

/-- Marking everything above a height keeps the list sorted, unless something
is left above `TX_UNCONFIRMED`. -/
theorem heightSorted_mark
    {l : List BRTransaction} {h : UInt32}
    (hl : TailScan.SortedBy (fun t : BRTransaction => t.blockHeight.toNat) l)
    (hsafe : ∀ a ∈ l, ∀ b ∈ l,
      ¬ (txUnconfirmed < a.blockHeight ∧ a.blockHeight ≤ h ∧ h < b.blockHeight)) :
    TailScan.SortedBy (fun t : BRTransaction => t.blockHeight.toNat)
      (l.map (fun t =>
        if t.blockHeight > h then t.setBlock txUnconfirmed t.timestamp else t)) := by
  rw [TailScan.SortedBy, List.pairwise_map]
  refine List.Pairwise.imp_of_mem ?_ hl
  intro a b ha hb hle
  have hab : a.blockHeight.toNat ≤ b.blockHeight.toNat := hle
  have hsafe := hsafe a ha b hb
  simp only [UInt32.lt_iff_toNat_lt, UInt32.le_iff_toNat_le] at hsafe
  simp only [gt_iff_lt, UInt32.lt_iff_toNat_lt]
  by_cases hbh : h.toNat < b.blockHeight.toNat
  · by_cases hah : h.toNat < a.blockHeight.toNat
    · simp [hah, hbh]
    · simp only [hah, hbh, if_true, if_false, BRTransaction.setBlock_blockHeight]
      omega
  · have hah : ¬ h.toNat < a.blockHeight.toNat := by omega
    simpa [hah, hbh] using hab

theorem containsTx_raiseHeight
    (w : BRWallet) (blockHeight : UInt32) (tx : BRTransaction) :
    (w.raiseHeight blockHeight).containsTx tx = w.containsTx tx := by
  rw [BRWallet.raiseHeight]
  split <;> rfl

theorem listsTx_raiseHeight
    (w : BRWallet) (blockHeight : UInt32) (h : UInt256) :
    (w.raiseHeight blockHeight).listsTx h = w.listsTx h := by
  rw [BRWallet.listsTx, BRWallet.listsTx, raiseHeight_transactions]

/-- A listed transaction that an iteration would change is as it was in front of
the loop. -/
theorem SweepInv.listed_before
    {blockHeight timestamp : UInt32} {s : BRWallet.Sweep} {txHash : UInt256}
    {tx : BRTransaction}
    (hinv : SweepInv (w.raiseHeight blockHeight) blockHeight timestamp s)
    (hw : Listed w)
    (htx : getTx s.wallet.allTx txHash = some tx)
    (hlists : s.wallet.listsTx txHash = true)
    (hchanged : ¬ (tx.blockHeight = blockHeight ∧ tx.timestamp = timestamp)) :
    tx ∈ w.transactions ∧ s.wallet.containsTx tx = w.containsTx tx := by
  have hold := hinv.untouched txHash tx htx hchanged
  rw [raiseHeight_allTx] at hold
  rw [hinv.lists, listsTx_raiseHeight] at hlists
  obtain ⟨t, ht, heq, hget⟩ := hw.lists hlists
  rw [hold] at hget
  cases hget
  exact ⟨ht, by rw [hinv.relevant, containsTx_raiseHeight]⟩

/-- A safe call is safe at every iteration. -/
theorem sweep_safe
    {txHashes : List UInt256} {blockHeight timestamp : UInt32} {s : BRWallet.Sweep}
    {txHash : UInt256} {tx : BRTransaction}
    (hw : Listed w)
    (hsafe : HeightSafe w ⟨now, .updateTransactions txHashes blockHeight timestamp⟩)
    (hmem : txHash ∈ txHashes)
    (hinv : SweepInv (w.raiseHeight blockHeight) blockHeight timestamp s)
    (htx : getTx s.wallet.allTx txHash = some tx)
    (hlists : s.wallet.listsTx txHash = true)
    (hchanged : ¬ (tx.blockHeight = blockHeight ∧ tx.timestamp = timestamp)) :
    s.wallet.containsTx tx = true ∨
      blockHeight = txUnconfirmed ∧ tx.blockHeight = txUnconfirmed := by
  obtain ⟨hold, hcontains⟩ := hinv.listed_before hw htx hlists hchanged
  rw [hcontains]
  exact hsafe tx hold (getTx_hash htx ▸ hmem) hchanged

/-! ### Faults -/

/-- The fault is the release of a listed transaction. -/
def Fault.IsFreed : Fault → Prop
  | .freedListed _ => True
  | .nullTx => False
  | .outOfFuel => False

theorem updateBalance_not_freed
    {e : Fault}
    (h : w.updateBalance now = .error e) :
    ¬ e.IsFreed := by
  rw [BRWallet.updateBalance] at h
  split at h
  · cases h
  · cases h
    exact id

theorem extendChain_not_freed
    {addressAt : UInt32 → Option Address} {usedAddrs : Finset Address}
    {gapLimit i : Nat} {chain : List Address} {e : Fault}
    (h : extendChain addressAt usedAddrs gapLimit fuel chain i = .error e) :
    ¬ e.IsFreed := by
  induction fuel generalizing chain i with
  | zero =>
      rw [extendChain] at h
      split at h
      · cases h
        exact id
      · cases h
  | succ fuel ih =>
      rw [extendChain] at h
      split at h
      · split at h
        · cases h
        · split at h
          · cases h
          · exact ih h
      · cases h

theorem unusedAddrs_not_freed
    {gapLimit : Nat} {internal : Bool} {e : Fault}
    (h : w.unusedAddrs fuel gapLimit internal = .error e) :
    ¬ e.IsFreed := by
  rw [BRWallet.unusedAddrs] at h
  split at h
  · rename_i hext
    cases h
    exact extendChain_not_freed hext
  · cases h

theorem fillChains_not_freed
    {e : Fault}
    (h : w.fillChains fuel = .error e) :
    ¬ e.IsFreed := by
  rw [BRWallet.fillChains, bind_eq_error] at h
  rcases h with h | ⟨⟨w₁, a₁⟩, -, h⟩
  · exact unusedAddrs_not_freed h
  · rw [bind_eq_error] at h
    rcases h with h | ⟨⟨w₂, a₂⟩, -, h⟩
    · exact unusedAddrs_not_freed h
    · cases h

theorem transactionIsValid_not_freed
    {tx : BRTransaction} {e : Fault}
    (h : w.transactionIsValid fuel tx = .error e) :
    ¬ e.IsFreed := by
  induction fuel generalizing tx with
  | zero =>
      cases h
      exact id
  | succ fuel ih =>
      rw [BRWallet.transactionIsValid] at h
      split at h
      · split at h
        · obtain ⟨i, -, hi⟩ := allM_error h
          split at hi
          · cases hi
          · exact ih hi
        · cases h
      · cases h

theorem removeTransaction_not_freed
    {txHash : UInt256} {e : Fault}
    (h : BRWallet.removeTransaction now fuel w txHash = .error e) :
    ¬ e.IsFreed := by
  induction fuel generalizing w txHash e with
  | zero =>
      cases h
      exact id
  | succ fuel ih =>
      rw [BRWallet.removeTransaction] at h
      split at h
      · cases h
      · rename_i tx htx
        dsimp only at h
        split at h
        · rw [bind_eq_error] at h
          rcases h with h | ⟨w₁, -, h⟩
          · exact updateBalance_not_freed h
          · rw [bind_eq_error] at h
            rcases h with h | ⟨⟨n, r⟩, -, h⟩
            · rw [BRWallet.removalFlags] at h
              split at h
              · rw [bind_eq_error] at h
                rcases h with h | ⟨v, -, h⟩
                · exact transactionIsValid_not_freed h
                · split at h <;> cases h
              · cases h
            · cases h
        · exact run_error (fun _ _ _ _ _ _ _ => trivial)
            (fun _ _ _ _ _ herr => ih herr) trivial
            (guarded_of_forall (fun _ _ => trivial) _ _) h

theorem registerTransaction_not_freed
    {tx : BRTransaction} {e : Fault}
    (h : w.registerTransaction fuel now tx = .error e) :
    ¬ e.IsFreed := by
  rw [BRWallet.registerTransaction] at h
  split at h
  · split at h
    · cases h
    · split at h
      · rw [bind_eq_error] at h
        rcases h with h | ⟨w₁, -, h⟩
        · exact updateBalance_not_freed h
        · rw [bind_eq_error] at h
          rcases h with h | ⟨w₂, -, h⟩
          · exact fillChains_not_freed h
          · cases h
      · cases h
  · cases h

/-- In a safe call no listed transaction is freed. -/
theorem step_not_freed
    {c : Call} {e : Fault}
    (hlisted : Listed w)
    (hsafe : HeightSafe w c)
    (h : step fuel w c = .error e) :
    ¬ e.IsFreed := by
  obtain ⟨now, op⟩ := c
  cases op with
  | registerTransaction tx =>
      rcases bind_eq_error.mp h with h | ⟨r, -, h⟩
      · exact registerTransaction_not_freed h
      · cases h
  | updateTransactions txHashes blockHeight timestamp =>
      rcases bind_eq_error.mp h with hloop | ⟨s, -, h⟩
      · obtain ⟨s, txHash, hmem, hinv, herr⟩ :=
          foldlM_error (fun _ _ _ _ hs hstep => SweepInv.updateTx hs hstep)
            (SweepInv.start hlisted) hloop
        obtain ⟨tx, htx, hchanged, hforeign, hconf, hlists⟩ := updateTx_error herr
        rcases sweep_safe hlisted hsafe hmem hinv htx hlists hchanged with hc | ⟨hu, -⟩
        · rw [hforeign] at hc
          cases hc
        · exact absurd hu hconf
      · rcases bind_eq_error.mp h with hbal | ⟨w₁, -, h⟩
        · split at hbal
          · exact updateBalance_not_freed hbal
          · cases hbal
        · cases h
  | setTxUnconfirmedAfter blockHeight =>
      change w.setTxUnconfirmedAfter now blockHeight = _ at h
      rw [BRWallet.setTxUnconfirmedAfter] at h
      split at h
      · cases h
      · rcases bind_eq_error.mp h with hbal | ⟨w₁, -, h⟩
        · exact updateBalance_not_freed hbal
        · cases h
  | removeTransaction txHash =>
      exact removeTransaction_not_freed h
  | unusedAddrs gapLimit internal =>
      rcases bind_eq_error.mp h with h | ⟨r, -, h⟩
      · exact unusedAddrs_not_freed h
      · cases h

/-- A safe call keeps the history sorted. -/
theorem HeightSorted.step
    {c : Call} {events : List Event}
    (hlisted : Listed w)
    (hsorted : HeightSorted w)
    (hsafe : HeightSafe w c)
    (h : step fuel w c = .ok (w', events)) :
    HeightSorted w' := by
  obtain ⟨now, op⟩ := c
  cases op with
  | registerTransaction tx =>
      obtain ⟨⟨w₁, es, r⟩, hreg, hret⟩ := bind_eq_ok.mp h
      cases hret
      cases registerTransaction_cases hreg with
      | unsigned _ =>
          exact hsorted
      | known _ _ =>
          exact hsorted
      | added _ _ _ hbal =>
          obtain ⟨L, rfl⟩ := updateBalance_frame hbal
          have hadd : HeightSorted (w.addTx tx) := hsorted
          exact hadd.insertTx tx
      | refused _ _ _ =>
          split <;> exact hsorted
  | updateTransactions txHashes blockHeight timestamp =>
      obtain ⟨s, hs, -, hend⟩ := updateTransactions_cases h
      have hstart : HeightSorted (w.raiseHeight blockHeight) := by
        rw [HeightSorted, raiseHeight_transactions]
        exact hsorted
      obtain ⟨-, hloop⟩ := foldlM_invariant
        (I := fun s => SweepInv (w.raiseHeight blockHeight) blockHeight timestamp s ∧
          HeightSorted s.wallet)
        (fun _ _ hmem _ hs hstep => ⟨hs.1.updateTx hstep,
          hs.2.updateTx hs.1.listed
            (fun _ htx hlists hchanged =>
              sweep_safe hlisted hsafe hmem hs.1 htx hlists hchanged) hstep⟩)
        ⟨SweepInv.start hlisted, hstart⟩ hs
      rcases hend with ⟨-, hbal⟩ | ⟨-, rfl⟩
      · obtain ⟨L, rfl⟩ := updateBalance_frame hbal
        exact hloop
      · exact hloop
  | setTxUnconfirmedAfter blockHeight =>
      rw [HeightSorted, setTxUnconfirmedAfter_transactions hlisted hsorted h]
      exact heightSorted_mark hsorted hsafe
  | removeTransaction txHash =>
      refine removeTransaction_state_invariant (I := HeightSorted) ?_ hsorted h
      intro w txHash w' hw _ hbal
      obtain ⟨L, rfl⟩ := updateBalance_frame hbal
      exact hw.rmTx txHash
  | unusedAddrs gapLimit internal =>
      obtain ⟨⟨w₁, addrs⟩, hun, hret⟩ := bind_eq_ok.mp h
      cases hret
      obtain rfl := unusedAddrs_ok hun
      exact hsorted

theorem HeightSorted.loadTxs
    (txs : List BRTransaction)
    (hw : HeightSorted w) :
    HeightSorted (txs.foldl BRWallet.loadTx w) := by
  induction txs generalizing w with
  | nil =>
      exact hw
  | cons tx txs ih =>
      apply ih
      rw [BRWallet.loadTx]
      split
      · exact hw
      · have hadd : HeightSorted (w.addTx tx) := hw
        exact hadd.insertTx tx

theorem HeightSorted.new
    {txs : List BRTransaction} {mpk : BRMasterPubKey}
    (h : BRWallet.new fuel now txs mpk = .ok (some w)) :
    HeightSorted w := by
  have hbal := new_cases h
  obtain ⟨L, rfl⟩ := updateBalance_frame hbal
  have hempty : HeightSorted (.empty mpk) := List.Pairwise.nil
  exact hempty.loadTxs txs

/--
**The history stays in order.**  In every run from `BRWalletNew` whose calls
are safe, no listed transaction is freed, and in every state reached the list
is sorted by height, has no duplicates and holds live transactions of `allTx`,
so that both scans from its end are exact.
-/
theorem run_ordered
    {w₀ : BRWallet} {txs : List BRTransaction} {mpk : BRMasterPubKey}
    {calls : List Call}
    (hnew : BRWallet.new fuel now txs mpk = .ok (some w₀))
    (hguard : Guarded (step fuel) HeightSafe w₀ calls) :
    (∀ h, runCalls fuel w₀ calls ≠ .error (.freedListed h)) ∧
      ∀ w log, runCalls fuel w₀ calls = .ok (w, log) → Ordered w := by
  have hstart : Listed w₀ ∧ HeightSorted w₀ := ⟨Listed.new hnew, HeightSorted.new hnew⟩
  have hstep : ∀ w c w' (log : List Event), Listed w ∧ HeightSorted w →
      HeightSafe w c → step fuel w c = .ok (w', log) → Listed w' ∧ HeightSorted w' :=
    fun w c w' log hw hsafe hs => ⟨hw.1.step hs, HeightSorted.step hw.1 hw.2 hsafe hs⟩
  constructor
  · intro h hrun
    have hsafe : ∀ w c e, Listed w ∧ HeightSorted w → HeightSafe w c →
        step fuel w c = .error e → ¬ e.IsFreed :=
      fun w c e hw hsafe hs => step_not_freed hw.1 hsafe hs
    exact run_error hstep hsafe hstart hguard hrun trivial
  · intro w log hrun
    obtain ⟨hlisted, hsorted⟩ := run_state_invariant hstep hstart hguard hrun
    exact ordered_of_sorted hlisted hsorted

/-- The wallet that `BRWalletNew` returns for the sample key. -/
def sampleNew (txs : List BRTransaction) : BRWallet :=
  match BRWallet.new 20 0 txs sampleKey with
  | .ok (some w) => w
  | _ => .empty sampleKey

/-- The state and the callbacks behind a run. -/
def sampleRun (w : BRWallet) (calls : List Call) : BRWallet × List Event :=
  match runCalls 20 w calls with
  | .ok r => r
  | .error _ => (w, [])

theorem runCalls_sample
    {w : BRWallet} {calls : List Call}
    (h : (runCalls 20 w calls).isOk = true) :
    runCalls 20 w calls = .ok ((sampleRun w calls).1, (sampleRun w calls).2) := by
  rw [sampleRun]
  cases hrun : runCalls 20 w calls with
  | error e =>
      rw [hrun] at h
      cases h
  | ok r =>
      rfl

theorem run_ordered_sample :
    BRWallet.new 20 0 [samplePayment, sampleSpend] sampleKey =
        .ok (some (sampleNew [samplePayment, sampleSpend])) ∧
      Ordered (sampleRun (sampleNew [samplePayment, sampleSpend])
        [⟨0, .updateTransactions [1] 200 7⟩]).1 := by
  refine ⟨rfl, ?_⟩
  refine (@run_ordered 0 20 _ [samplePayment, sampleSpend] sampleKey
    [⟨0, .updateTransactions [1] 200 7⟩] rfl ?_).2 _ _ rfl
  refine ⟨?_, fun _ _ _ => trivial⟩
  change ∀ tx ∈ (sampleNew [samplePayment, sampleSpend]).transactions, _
  decide

/-- A payment at height 5, a transaction that is not the wallet's at height 10
and a payment at height 20. -/
def mixedHistory : List BRTransaction :=
  [sampleTx 1 [⟨97, 0⟩] [1, 0] 50000 5, sampleTx 2 [⟨98, 0⟩] [9, 9] 50000 10,
    sampleTx 3 [⟨99, 0⟩] [1, 1] 50000 20]

theorem mixedHistory_unordered :
    BRWallet.new 20 0 mixedHistory sampleKey = .ok (some (sampleNew mixedHistory)) ∧
      (∃ w log, runCalls 20 (sampleNew mixedHistory)
          [⟨0, .updateTransactions [2] txUnconfirmed 0⟩] = .ok (w, log) ∧
        ¬ HeightSorted w ∧
        w.txUnconfirmedBefore txUnconfirmed = [] ∧
        ∃ tx ∈ w.transactions, tx.blockHeight = txUnconfirmed) ∧
      runCalls 20 (sampleNew mixedHistory) [⟨0, .updateTransactions [2] 11 0⟩] =
        .error (.freedListed 2) := by
  refine ⟨rfl, ⟨(sampleRun (sampleNew mixedHistory)
    [⟨0, .updateTransactions [2] txUnconfirmed 0⟩]).1, _, rfl, ?_, ?_, ?_⟩, rfl⟩
  · rw [HeightSorted, TailScan.SortedBy]
    decide
  · decide
  · decide

end Steps

end BreadwalletCore
