import BreadwalletCore.Wallet.Callbacks

/-!
# Freshness of the ledger

The ledger is a function of the list, the addresses and the height of the
wallet, but it is recomputed by hand.  It goes stale where an operation changes
one of these and does not recompute, or recomputes before the change:

* `BRWalletRegisterTransaction` generates addresses behind the pass, and
  `BRWalletUnusedAddrs` without one;
* `BRWalletUpdateTransactions` moves transactions and raises the height, and
  recomputes only if it has named a pending or an invalid transaction;
* `BRWalletSetTxUnconfirmedAfter` changes the height and recomputes only if it
  has marked a transaction.
-/

namespace BreadwalletCore

open Machine CoinBook

/-- The stored ledger is the one that a pass would compute. -/
def Fresh (now : Int) (w : BRWallet) : Prop :=
  w.toLedger = ledgerOf now w.blockHeight w.allAddrs w.transactions

/-- No counted transaction of the list pays one of the given addresses, unless
the address is the wallet's already. -/
def NotPaid (now : Int) (w : BRWallet) (addrs : Finset Address) : Prop :=
  ∀ pre tx post, w.transactions = pre ++ tx :: post →
    verdictBehind now w pre tx = .counted →
    ∀ o ∈ tx.outputs, o.address ≠ [] → o.address ∈ addrs → o.address ∈ w.allAddrs

/-- Every listed transaction, rewritten by `f`, is judged at the given height as
it was, behind the same transactions. -/
def SameVerdicts (now : Int) (w : BRWallet) (blockHeight : UInt32)
    (f : BRTransaction → BRTransaction) : Prop :=
  ∀ pre tx post, w.transactions = pre ++ tx :: post →
    judgeTx now blockHeight (walletBook now w.blockHeight w.allAddrs pre).spent
        (walletBook now w.blockHeight w.allAddrs pre).invalid
        (walletBook now w.blockHeight w.allAddrs pre).pending (f tx) =
      verdictBehind now w pre tx

/-- The write of an update to a transaction. -/
def rewriteTx (txHashes : List UInt256) (blockHeight timestamp : UInt32)
    (tx : BRTransaction) : BRTransaction :=
  if tx.txHash ∈ txHashes then tx.setBlock blockHeight timestamp else tx

/-- The update changes a relevant transaction that is pending or invalid. -/
def Recomputes (w : BRWallet) (txHashes : List UInt256)
    (blockHeight timestamp : UInt32) : Prop :=
  ∃ h ∈ txHashes, ∃ tx, getTx w.allTx h = some tx ∧
    ¬ (tx.blockHeight = blockHeight ∧ tx.timestamp = timestamp) ∧
    w.containsTx tx = true ∧ (h ∈ w.pendingTx ∨ h ∈ w.invalidTx)

/-- If the transaction of this hash is listed, relevant and changed, it is
inserted where it was taken out. -/
def StaysInPlace (w : BRWallet) (txHash : UInt256)
    (blockHeight timestamp : UInt32) : Prop :=
  ∀ tx ∈ w.transactions, tx.txHash = txHash →
    ¬ (tx.blockHeight = blockHeight ∧ tx.timestamp = timestamp) →
    w.containsTx tx = true →
    (((w.writeBlock txHash blockHeight timestamp).rmTx txHash).insertTx
        (tx.setBlock blockHeight timestamp)).transactions.map (·.txHash) =
      w.transactions.map (·.txHash)

/-- The transactions that an update moves stay in place, each in the state that
its iteration starts in. -/
def KeepsOrder (w : BRWallet) (txHashes : List UInt256)
    (blockHeight timestamp : UInt32) : Prop :=
  ∀ pre h post s, txHashes = pre ++ h :: post →
    pre.foldlM (BRWallet.updateTx blockHeight timestamp)
      { wallet := w.raiseHeight blockHeight } = .ok s →
    StaysInPlace s.wallet h blockHeight timestamp

/-- The wallet with one more transaction, after the pass. -/
def BRWallet.withTx (now : Int) (w : BRWallet) (tx : BRTransaction) : BRWallet :=
  { (w.addTx tx).insertTx tx with
    toLedger := ledgerOf now w.blockHeight w.allAddrs
      ((w.addTx tx).insertTx tx).transactions }

/-- The calls, at the given clock, that leave the ledger fresh. -/
def LedgerSafe (fuel : Nat) (now : Int) (w : BRWallet) (c : Call) : Prop :=
  c.now = now ∧
    match c.op with
    | .registerTransaction tx =>
        tx.isSigned = true → w.knowsTx tx.txHash = false → w.containsTx tx = true →
          NotPaid now (w.withTx now tx) ((w.withTx now tx).filled fuel).allAddrs
    | .updateTransactions txHashes blockHeight timestamp =>
        Recomputes w txHashes blockHeight timestamp ∨
          KeepsOrder w txHashes blockHeight timestamp ∧
            SameVerdicts now w (w.raiseHeight blockHeight).blockHeight
              (rewriteTx txHashes blockHeight timestamp)
    | .setTxUnconfirmedAfter blockHeight =>
        w.txAfter blockHeight = [] → SameVerdicts now w blockHeight id
    | .removeTransaction _ => True
    | .unusedAddrs gapLimit internal =>
        NotPaid now w (w.newAddrs fuel gapLimit internal).toFinset

/-! ## Ledgers of rewritten lists -/

section Ledgers

variable {now : Int} {w : BRWallet}

theorem credits_congr
    {allAddrs allAddrs' : Finset Address} {tx tx' : BRTransaction}
    (hhash : tx'.txHash = tx.txHash)
    (houtputs : tx'.outputs = tx.outputs)
    (haddrs : ∀ o ∈ tx.outputs, o.address ≠ [] →
      (o.address ∈ allAddrs' ↔ o.address ∈ allAddrs)) :
    credits allAddrs' tx' = credits allAddrs tx := by
  rw [credits, credits, hhash, houtputs]
  generalize tx.outputs = os at haddrs
  generalize 0 = j
  induction os generalizing j with
  | nil =>
      rfl
  | cons o os ih =>
      have hos := ih (fun p hp => haddrs p (List.mem_cons_of_mem _ hp)) (j + 1)
      have hiff : (o.address ≠ [] ∧ o.address ∈ allAddrs') ↔
          (o.address ≠ [] ∧ o.address ∈ allAddrs) :=
        and_congr_right (fun hne => haddrs o (by simp) hne)
      rw [creditsFrom, creditsFrom, hos]
      by_cases h : o.address ≠ [] ∧ o.address ∈ allAddrs
      · rw [if_pos h, if_pos (hiff.mpr h)]
      · rw [if_neg h, if_neg (mt hiff.mp h)]

/-- Rewriting heights and timestamps, raising the height and adding addresses
keeps the ledger, if it keeps the verdicts and nobody counted pays the new
addresses. -/
theorem ledgerOf_map
    {blockHeight : UInt32} {addrs : Finset Address} {f : BRTransaction → BRTransaction}
    (hhash : ∀ t, (f t).txHash = t.txHash)
    (hinputs : ∀ t, (f t).inputs = t.inputs)
    (houtputs : ∀ t, (f t).outputs = t.outputs)
    (hverdicts : SameVerdicts now w blockHeight f)
    (hpaid : NotPaid now w addrs)
    (hsub : w.allAddrs ⊆ addrs) :
    ledgerOf now blockHeight addrs (w.transactions.map f) =
      ledgerOf now w.blockHeight w.allAddrs w.transactions := by
  have hbook := @book_map BRTransaction UInt256 BRUTXO UInt64 _ _ _
    (walletRules now w.blockHeight w.allAddrs) (walletRules now blockHeight addrs)
    f w.transactions hhash
    (fun t => by
      change (f t).outpoints.toFinset = t.outpoints.toFinset
      rw [RawTransaction.outpoints, RawTransaction.outpoints, hinputs])
    hverdicts
    (fun pre t post hl hv => credits_congr (hhash t) (houtputs t)
      (fun o ho hne => ⟨hpaid pre t post hl hv o ho hne, fun h => hsub h⟩))
  rw [ledgerOf, ledgerOf, walletBook, walletBook, hbook]
  have hused : ((walletBook now w.blockHeight w.allAddrs w.transactions).counted.map
        f).flatMap (·.outputs) =
      (walletBook now w.blockHeight w.allAddrs w.transactions).counted.flatMap
        (·.outputs) := by
    rw [List.flatMap_map]
    exact List.flatMap_congr (fun t _ => houtputs t)
  simp only [viewBook, hused]

theorem sameVerdicts_id :
    SameVerdicts now w w.blockHeight id := by
  intro pre tx post _
  rfl

theorem notPaid_self :
    NotPaid now w w.allAddrs := by
  intro pre tx post _ _ o _ _ h
  exact h

/-- New addresses that nobody counted pays do not change the ledger. -/
theorem ledgerOf_grow
    {addrs : Finset Address}
    (hpaid : NotPaid now w addrs)
    (hsub : w.allAddrs ⊆ addrs) :
    ledgerOf now w.blockHeight addrs w.transactions =
      ledgerOf now w.blockHeight w.allAddrs w.transactions := by
  have h := ledgerOf_map (f := id) (fun _ => rfl) (fun _ => rfl) (fun _ => rfl)
    sameVerdicts_id hpaid hsub
  rwa [List.map_id] at h

end Ledgers

/-! ## What the loop of an update leaves -/

section Loop

variable {now : Int} {w : BRWallet} {blockHeight timestamp : UInt32}
variable {s s' : BRWallet.Sweep} {txHash : UInt256}

theorem setBlock_self
    {tx : BRTransaction}
    (h : tx.blockHeight = blockHeight ∧ tx.timestamp = timestamp) :
    tx.setBlock blockHeight timestamp = tx := by
  obtain ⟨rfl, rfl⟩ := h
  rfl

/-- An iteration does not touch the other transactions. -/
theorem updateTx_getTx_ne
    {h : UInt256}
    (hne : h ≠ txHash)
    (hstep : BRWallet.updateTx blockHeight timestamp s txHash = .ok s') :
    getTx s'.wallet.allTx h = getTx s.wallet.allTx h := by
  have hwrite : getTx (s.wallet.writeBlock txHash blockHeight timestamp).allTx h =
      getTx s.wallet.allTx h := by
    rw [getTx_writeBlock]
    simp [hne]
  cases updateTx_cases hstep with
  | skipped _ =>
      rfl
  | moved _ _ _ =>
      rw [← hwrite]
      dsimp only
      split <;> rfl
  | freed _ _ _ _ _ =>
      rw [getTx_remove, if_neg hne, hwrite]
  | foreign _ _ _ _ =>
      exact hwrite

/-- What an iteration leaves under its own hash has the new height and
timestamp. -/
theorem updateTx_getTx_self
    {tx' : BRTransaction}
    (hstep : BRWallet.updateTx blockHeight timestamp s txHash = .ok s')
    (hget : getTx s'.wallet.allTx txHash = some tx') :
    ∃ tx, getTx s.wallet.allTx txHash = some tx ∧
      tx' = tx.setBlock blockHeight timestamp := by
  have hwritten : ∀ tx',
      getTx (s.wallet.writeBlock txHash blockHeight timestamp).allTx txHash = some tx' →
      ∃ tx, getTx s.wallet.allTx txHash = some tx ∧
        tx' = tx.setBlock blockHeight timestamp := by
    intro tx' h
    rw [getTx_writeBlock] at h
    obtain ⟨tx, htx, rfl⟩ := Option.map_eq_some_iff.mp h
    exact ⟨tx, htx, by simp⟩
  cases updateTx_cases hstep with
  | skipped hsame =>
      exact ⟨tx', hget, (setBlock_self (hsame tx' hget)).symm⟩
  | moved _ _ _ =>
      apply hwritten
      dsimp only at hget
      split at hget <;> exact hget
  | freed _ _ _ _ _ =>
      rw [getTx_remove, if_pos rfl] at hget
      cases hget
  | foreign _ _ _ _ =>
      exact hwritten tx' hget

/-- What the whole loop leaves: the named transactions have the new height and
timestamp, the others are as they were. -/
theorem updateLoop_getTx
    {txHashes : List UInt256} {h : UInt256} {tx' : BRTransaction}
    (hloop : txHashes.foldlM (BRWallet.updateTx blockHeight timestamp) s = .ok s')
    (hget : getTx s'.wallet.allTx h = some tx') :
    ∃ tx, getTx s.wallet.allTx h = some tx ∧
      tx' = if h ∈ txHashes then tx.setBlock blockHeight timestamp else tx := by
  induction txHashes generalizing s with
  | nil =>
      cases hloop
      exact ⟨tx', hget, by simp⟩
  | cons x txHashes ih =>
      rw [List.foldlM_cons, bind_eq_ok] at hloop
      obtain ⟨s₁, hstep, hloop⟩ := hloop
      obtain ⟨tx₁, htx₁, rfl⟩ := ih hloop
      by_cases heq : h = x
      · subst heq
        obtain ⟨tx, htx, rfl⟩ := updateTx_getTx_self hstep htx₁
        refine ⟨tx, htx, ?_⟩
        by_cases hmem : h ∈ txHashes
        · simp only [hmem, List.mem_cons, or_true, if_true]
          rfl
        · simp [hmem]
      · rw [updateTx_getTx_ne heq hstep] at htx₁
        exact ⟨tx₁, htx₁, by simp [heq]⟩

/-- A list is determined by its hashes once it resolves in `allTx`. -/
theorem transactions_ext
    {l : List BRTransaction}
    (hw : Listed w)
    (hkeys : w.transactions.map (·.txHash) = l.map (·.txHash))
    (hknown : ∀ t ∈ l, getTx w.allTx t.txHash = some t) :
    w.transactions = l := by
  have hlookup : ∀ l : List BRTransaction,
      (∀ t ∈ l, getTx w.allTx t.txHash = some t) →
      l.map some = (l.map (·.txHash)).map (getTx w.allTx) := by
    intro l hl
    rw [List.map_map]
    exact List.map_congr_left (fun t ht => (hl t ht).symm)
  have hsome : w.transactions.map some = l.map some := by
    rw [hlookup _ hw.known, hlookup _ hknown, hkeys]
  exact List.map_injective_iff.mpr (Option.some_injective _) hsome

theorem updateLoop_order
    {txHashes : List UInt256}
    (hw : Listed w)
    (horder : KeepsOrder w txHashes blockHeight timestamp)
    (hloop : txHashes.foldlM (BRWallet.updateTx blockHeight timestamp)
      { wallet := w.raiseHeight blockHeight } = .ok s) :
    s.wallet.transactions.map (·.txHash) = w.transactions.map (·.txHash) := by
  refine (foldlM_guarded
    (I := fun s => Listed s.wallet ∧
      s.wallet.transactions.map (·.txHash) = w.transactions.map (·.txHash))
    horder ?_ ⟨hw.raiseHeight blockHeight, by rw [raiseHeight_transactions]⟩ hloop).2
  rintro s txHash s' ⟨hlisted, hkeys⟩ hplace hstep
  refine ⟨hlisted.updateTx hstep, ?_⟩
  rw [← hkeys]
  have hsetBlock : ∀ t : BRTransaction,
      (t.setBlock blockHeight timestamp).txHash = t.txHash :=
    fun t => t.setBlock_txHash blockHeight timestamp
  have hwrite : (s.wallet.writeBlock txHash blockHeight timestamp).transactions.map
      (·.txHash) = s.wallet.transactions.map (·.txHash) :=
    KeyedList.map_key_modify hsetBlock (fun h => h = txHash) s.wallet.transactions
  cases updateTx_cases hstep with
  | skipped _ =>
      rfl
  | @moved tx htx hchanged hcontains =>
      dsimp only
      split
      · rename_i hlists
        obtain ⟨t, ht, -, hget⟩ := hlisted.lists hlists
        rw [htx] at hget
        cases hget
        exact hplace tx ht (getTx_hash htx) hchanged hcontains
      · exact hwrite
  | freed _ _ _ _ _ =>
      exact hwrite
  | foreign _ _ _ _ =>
      exact hwrite

/-- A loop that keeps the order only rewrites the named transactions. -/
theorem updateLoop_transactions
    {txHashes : List UInt256}
    (hw : Listed w)
    (hinv : SweepInv (w.raiseHeight blockHeight) blockHeight timestamp s)
    (hloop : txHashes.foldlM (BRWallet.updateTx blockHeight timestamp)
      { wallet := w.raiseHeight blockHeight } = .ok s)
    (horder : s.wallet.transactions.map (·.txHash) = w.transactions.map (·.txHash)) :
    s.wallet.transactions =
      w.transactions.map (rewriteTx txHashes blockHeight timestamp) := by
  have hhash : ∀ t, (rewriteTx txHashes blockHeight timestamp t).txHash = t.txHash := by
    intro t
    rw [rewriteTx]
    split <;> rfl
  apply transactions_ext hinv.listed
  · rw [horder, List.map_map]
    exact List.map_congr_left (fun t _ => (hhash t).symm)
  · intro t ht
    obtain ⟨u, hu, rfl⟩ := List.mem_map.mp ht
    rw [hhash]
    have hlists : s.wallet.listsTx u.txHash = true := by
      rw [hinv.lists, listsTx_raiseHeight]
      exact listsTx_iff.mpr ⟨u, hu, rfl⟩
    obtain ⟨t', -, -, hget⟩ := hinv.listed.lists hlists
    obtain ⟨u', hu', rfl⟩ := updateLoop_getTx hloop hget
    have hold : getTx w.allTx u.txHash = some u' := by
      rw [← raiseHeight_allTx w blockHeight]
      exact hu'
    rw [hw.known u hu] at hold
    cases hold
    rw [hget, rewriteTx]

/-- A pending or invalid transaction that the update changes makes the loop ask
for a pass. -/
theorem needsUpdate_of_recomputes
    {txHashes : List UInt256} {tx : BRTransaction}
    (hinv : SweepInv w blockHeight timestamp s)
    (hmem : txHash ∈ txHashes)
    (hget : getTx s.wallet.allTx txHash = some tx)
    (hchanged : ¬ (tx.blockHeight = blockHeight ∧ tx.timestamp = timestamp))
    (hcontains : w.containsTx tx = true)
    (hmarked : txHash ∈ w.pendingTx ∨ txHash ∈ w.invalidTx)
    (hloop : txHashes.foldlM (BRWallet.updateTx blockHeight timestamp) s = .ok s') :
    s'.needsUpdate = true := by
  have hmono : ∀ (l : List UInt256) (s : BRWallet.Sweep), s.needsUpdate = true →
      l.foldlM (BRWallet.updateTx blockHeight timestamp) s = .ok s' →
      s'.needsUpdate = true := by
    intro l s hs hl
    refine foldlM_invariant (I := fun s => s.needsUpdate = true) ?_ hs hl
    intro s x _ s' hs hstep
    cases updateTx_cases hstep with
    | skipped _ =>
        exact hs
    | moved _ _ _ =>
        simp [hs]
    | freed _ _ _ _ _ =>
        exact hs
    | foreign _ _ _ _ =>
        exact hs
  induction txHashes generalizing s with
  | nil =>
      cases hmem
  | cons x txHashes ih =>
      rw [List.foldlM_cons, bind_eq_ok] at hloop
      obtain ⟨s₁, hstep, hloop⟩ := hloop
      by_cases heq : txHash = x
      · subst heq
        refine hmono txHashes s₁ ?_ hloop
        have hcontains' : s.wallet.containsTx tx = true := by
          rw [hinv.relevant]
          exact hcontains
        cases updateTx_cases hstep with
        | skipped hsame =>
            exact absurd (hsame tx hget) hchanged
        | moved _ _ _ =>
            have hledger := hinv.ledger
            rcases hmarked with h | h
            · simp [hledger, h]
            · simp [hledger, h]
        | freed htx _ hforeign _ _ =>
            rw [hget] at htx
            cases htx
            rw [hcontains'] at hforeign
            cases hforeign
        | foreign htx _ hforeign _ =>
            rw [hget] at htx
            cases htx
            rw [hcontains'] at hforeign
            cases hforeign
      · have hmem' : txHash ∈ txHashes := by
          rcases List.mem_cons.mp hmem with h | h
          · exact absurd h heq
          · exact h
        refine ih (hinv.updateTx hstep) hmem' ?_ hloop
        rw [updateTx_getTx_ne heq hstep]
        exact hget

end Loop

/-! ## Steps and runs -/

section Steps

variable {now : Int} {fuel : Nat} {w w' : BRWallet}

theorem Fresh.updateBalance
    (hw : Listed w)
    (h : w.updateBalance now = .ok w') :
    Fresh now w' := by
  rw [updateBalance_ledger hw h]
  rfl

/-- A fresh ledger is what a pass returns. -/
theorem Fresh.updateBalance_eq
    (hw : Listed w)
    (hfresh : Fresh now w) :
    w.updateBalance now = .ok w := by
  rw [BreadwalletCore.updateBalance_eq hw.known, ← hfresh]

theorem Fresh.grow
    {w₁ : BRWallet}
    (hfresh : Fresh now w)
    (hledger : w₁.toLedger = w.toLedger)
    (htxs : w₁.transactions = w.transactions)
    (hheight : w₁.blockHeight = w.blockHeight)
    (hsub : w.allAddrs ⊆ w₁.allAddrs)
    (hpaid : NotPaid now w w₁.allAddrs) :
    Fresh now w₁ := by
  rw [Fresh, hledger, htxs, hheight, ledgerOf_grow hpaid hsub]
  exact hfresh

/-- What a pass leaves on the wallet with one more transaction. -/
theorem withTx_eq
    {tx : BRTransaction} {w₁ : BRWallet}
    (hw : Listed w)
    (hknown : w.knowsTx tx.txHash = false)
    (hbal : ((w.addTx tx).insertTx tx).updateBalance now = .ok w₁) :
    w₁ = w.withTx now tx := by
  have hadd := (hw.addTx hknown).insertTx (by rw [getTx_addTx]; simp)
    (hw.not_lists hknown)
  exact updateBalance_ledger hadd hbal

theorem filled_allAddrs_subset
    (fuel : Nat) (w : BRWallet) :
    w.allAddrs ⊆ (w.filled fuel).allAddrs := by
  rw [BRWallet.filled, growChain_allAddrs, growChain_allAddrs]
  exact Finset.subset_union_left.trans Finset.subset_union_left

theorem Fresh.updateTransactions
    {txHashes : List UInt256} {blockHeight timestamp : UInt32} {events : List Event}
    (hw : Listed w)
    (hfresh : Fresh now w)
    (hsafe : Recomputes w txHashes blockHeight timestamp ∨
      KeepsOrder w txHashes blockHeight timestamp ∧
        SameVerdicts now w (w.raiseHeight blockHeight).blockHeight
          (rewriteTx txHashes blockHeight timestamp))
    (h : w.updateTransactions now txHashes blockHeight timestamp = .ok (w', events)) :
    Fresh now w' := by
  obtain ⟨s, hs, -, hend⟩ := updateTransactions_cases h
  have hraised : (w.raiseHeight blockHeight).toLedger = w.toLedger ∧
      (w.raiseHeight blockHeight).allAddrs = w.allAddrs := by
    rw [BRWallet.raiseHeight]
    split <;> exact ⟨rfl, rfl⟩
  have hinv := SweepInv.loop hw hs
  rcases hend with ⟨-, hbal⟩ | ⟨hneeds, rfl⟩
  · exact Fresh.updateBalance hinv.listed hbal
  · rcases hsafe with ⟨x, hx, tx, hget, hchanged, hcontains, hmarked⟩ | ⟨horder, hverdicts⟩
    · -- the loop has asked for a pass
      have htrue := needsUpdate_of_recomputes (SweepInv.start hw) hx
        (by rw [raiseHeight_allTx]; exact hget) hchanged
        (by rw [containsTx_raiseHeight]; exact hcontains)
        (by rw [hraised.1]; exact hmarked) hs
      rw [htrue] at hneeds
      cases hneeds
    · rw [Fresh, hinv.ledger, hraised.1, hinv.allAddrs, hraised.2, hinv.height,
        updateLoop_transactions hw hinv hs (updateLoop_order hw horder hs)]
      have hkeep : ∀ t, (rewriteTx txHashes blockHeight timestamp t).txHash = t.txHash ∧
          (rewriteTx txHashes blockHeight timestamp t).inputs = t.inputs ∧
          (rewriteTx txHashes blockHeight timestamp t).outputs = t.outputs := by
        intro t
        rw [rewriteTx]
        split <;> exact ⟨rfl, rfl, rfl⟩
      rw [ledgerOf_map (fun t => (hkeep t).1) (fun t => (hkeep t).2.1)
        (fun t => (hkeep t).2.2) hverdicts notPaid_self (Finset.Subset.refl _)]
      exact hfresh

/-- A safe call leaves the ledger fresh. -/
theorem Fresh.step
    {c : Call} {events : List Event}
    (hw : Listed w)
    (hfresh : Fresh now w)
    (hsafe : LedgerSafe fuel now w c)
    (h : step fuel w c = .ok (w', events)) :
    Fresh now w' := by
  obtain ⟨now', op⟩ := c
  obtain ⟨rfl, hsafe⟩ := hsafe
  cases op with
  | registerTransaction tx =>
      obtain ⟨⟨w₁, es, r⟩, hreg, hret⟩ := bind_eq_ok.mp h
      cases hret
      cases registerTransaction_cases hreg with
      | unsigned _ =>
          exact hfresh
      | known _ _ =>
          exact hfresh
      | @added w₂ hsigned hknown hcontains hbal =>
          obtain rfl := withTx_eq hw hknown hbal
          have hpass : Fresh now' (w.withTx now' tx) := rfl
          exact hpass.grow rfl rfl rfl (filled_allAddrs_subset fuel _)
            (hsafe hsigned hknown hcontains)
      | refused _ _ _ =>
          split <;> exact hfresh
  | updateTransactions txHashes blockHeight timestamp =>
      exact Fresh.updateTransactions hw hfresh hsafe h
  | setTxUnconfirmedAfter blockHeight =>
      rcases setTxUnconfirmedAfter_cases h with ⟨hnone, rfl, -⟩ | ⟨-, hbal, -⟩
      · have hledger := ledgerOf_map (f := id) (fun _ => rfl) (fun _ => rfl)
          (fun _ => rfl) (hsafe hnone) notPaid_self (Finset.Subset.refl _)
        rw [List.map_id] at hledger
        exact hfresh.trans hledger.symm
      · have hset : Listed { w with blockHeight := blockHeight } := hw.congr rfl rfl
        exact Fresh.updateBalance
          (hset.writeTx _ (fun t => t.setBlock_txHash txUnconfirmed t.timestamp)) hbal
  | removeTransaction txHash =>
      refine (removeTransaction_state_invariant
        (I := fun w => Listed w ∧ Fresh now' w) ?_ ⟨hw, hfresh⟩ h).2
      intro w txHash w' hw _ hbal
      exact ⟨(hw.1.rmTx txHash).updateBalance hbal,
        Fresh.updateBalance (hw.1.rmTx txHash) hbal⟩
  | unusedAddrs gapLimit internal =>
      obtain ⟨⟨w₁, addrs⟩, hun, hret⟩ := bind_eq_ok.mp h
      cases hret
      obtain rfl := unusedAddrs_ok hun
      refine hfresh.grow rfl rfl rfl ?_ ?_
      · rw [growChain_allAddrs]
        exact Finset.subset_union_left
      · rw [growChain_allAddrs]
        intro pre tx post hl hv o ho hne hmem
        rcases Finset.mem_union.mp hmem with hmem | hmem
        · exact hmem
        · exact hsafe pre tx post hl hv o ho hne hmem

/-- The entry that `BRWalletBalanceAfterTx` finds is that of the transaction's
only position. -/
theorem balanceAfterTx_eq
    {pre post : List BRTransaction} {tx : BRTransaction}
    (hw : Listed w)
    (hl : w.transactions = pre ++ tx :: post) :
    w.balanceAfterTx tx = w.balanceHist.getD pre.length 0 := by
  have hat : w.transactions[pre.length]? = some tx := by simp [hl]
  have hfound : ((List.range w.transactions.length).reverse.find?
      (fun i => (w.transactions[i]?).any (fun t => t.txHash = tx.txHash))).isSome := by
    rw [List.find?_isSome]
    exact ⟨pre.length, by simp [hl], by simp [hat]⟩
  obtain ⟨i, hi⟩ := Option.isSome_iff_exists.mp hfound
  have hpos : i = pre.length := by
    obtain ⟨t, ht, hhash⟩ : ∃ t, w.transactions[i]? = some t ∧ t.txHash = tx.txHash := by
      have hany := List.find?_some hi
      cases ht : w.transactions[i]? with
      | none =>
          simp [ht] at hany
      | some t =>
          exact ⟨t, rfl, by simpa [ht] using hany⟩
    obtain ⟨hlt, hget⟩ := List.getElem?_eq_some_iff.mp ht
    obtain ⟨hlt', hget'⟩ := List.getElem?_eq_some_iff.mp hat
    have hi : i < (w.transactions.map (·.txHash)).length := by simpa using hlt
    have hj : pre.length < (w.transactions.map (·.txHash)).length := by simpa using hlt'
    have hsame : (w.transactions.map (·.txHash))[i] =
        (w.transactions.map (·.txHash))[pre.length] := by
      simpa [hget, hget'] using hhash
    exact hw.nodup.getElem_inj_iff.mp hsame
  rw [BRWallet.balanceAfterTx, hi, hpos]

/--
**Freshness.**  In every run from `BRWalletNew` at a fixed clock whose calls are
safe, a pass would not change the wallet, and `BRWalletBalanceAfterTx` reports,
for each transaction, the balance that a pass over the list up to it computes.
-/
theorem run_fresh
    {w₀ : BRWallet} {txs : List BRTransaction} {mpk : BRMasterPubKey}
    {calls : List Call} {log : List Event}
    (hnew : BRWallet.new fuel now txs mpk = .ok (some w₀))
    (hguard : Guarded (step fuel) (LedgerSafe fuel now) w₀ calls)
    (hrun : runCalls fuel w₀ calls = .ok (w, log)) :
    w.updateBalance now = .ok w ∧
      ∀ pre tx post, w.transactions = pre ++ tx :: post →
        w.balanceHist[pre.length]? = some (w.balanceAfterTx tx) ∧
        ∃ w₁, BRWallet.updateBalance now { w with transactions := pre ++ [tx] } =
          .ok w₁ ∧ w.balanceAfterTx tx = w₁.balance := by
  have hstart : Listed w₀ ∧ Fresh now w₀ := by
    have hempty : Listed (.empty mpk) := ⟨List.nodup_nil, by intro t ht; cases ht⟩
    have hfill : Listed ((txs.foldl BRWallet.loadTx (.empty mpk)).filled fuel) :=
      (hempty.loadTxs txs).congr rfl rfl
    exact ⟨Listed.new hnew, Fresh.updateBalance hfill (new_cases hnew)⟩
  obtain ⟨hw, hfresh⟩ := run_state_invariant
    (I := fun w => Listed w ∧ Fresh now w)
    (fun _ _ _ _ hw hsafe hs => ⟨hw.1.step hs, hw.2.step hw.1 hsafe hs⟩)
    hstart hguard hrun
  refine ⟨hfresh.updateBalance_eq hw, ?_⟩
  intro pre tx post hl
  have hhist : w.balanceHist[pre.length]? =
      some (total (walletBook now w.blockHeight w.allAddrs (pre ++ [tx])).coins) := by
    have hledger : w.balanceHist =
        (walletBook now w.blockHeight w.allAddrs w.transactions).hist :=
      congrArg Ledger.balanceHist hfresh
    rw [hledger]
    exact hist_getElem _ hl
  have hafter : w.balanceAfterTx tx =
      total (walletBook now w.blockHeight w.allAddrs (pre ++ [tx])).coins := by
    rw [balanceAfterTx_eq hw hl, List.getD_eq_getElem?_getD, hhist]
    rfl
  have hknown : ∀ t ∈ pre ++ [tx], getTx w.allTx t.txHash = some t := by
    intro t ht
    apply hw.known
    rw [hl]
    rcases List.mem_append.mp ht with ht | ht
    · simp [ht]
    · simp [List.mem_singleton.mp ht]
  refine ⟨by rw [hhist, hafter], _, updateBalance_eq hknown, hafter⟩

/-- A reorganisation that unconfirms the payment, and then its removal. -/
def unwindCalls : List Call :=
  [⟨0, .setTxUnconfirmedAfter 50⟩, ⟨0, .removeTransaction 1⟩]

theorem run_fresh_sample :
    (sampleRun (sampleNew [samplePayment, sampleSpend]) unwindCalls).1.updateBalance 0 =
      .ok (sampleRun (sampleNew [samplePayment, sampleSpend]) unwindCalls).1 := by
  have hmarks : (sampleNew [samplePayment, sampleSpend]).txAfter 50 ≠ [] := by
    decide
  exact (@run_fresh 0 20
    (sampleRun (sampleNew [samplePayment, sampleSpend]) unwindCalls).1
    (sampleNew [samplePayment, sampleSpend]) [samplePayment, sampleSpend] sampleKey
    unwindCalls (sampleRun (sampleNew [samplePayment, sampleSpend]) unwindCalls).2 rfl
    ⟨⟨rfl, fun hnone => absurd hnone hmarks⟩,
      fun _ _ _ => ⟨⟨rfl, trivial⟩, fun _ _ _ => trivial⟩⟩ rfl).1

/-- Two payments arrive and the second is confirmed first. -/
def confirmedSecond : List Call :=
  [⟨0, .registerTransaction (sampleTx 1 [⟨97, 0⟩] [1, 0] 50000 txUnconfirmed)⟩,
    ⟨0, .registerTransaction (sampleTx 2 [⟨98, 0⟩] [1, 1] 60000 txUnconfirmed)⟩,
    ⟨0, .updateTransactions [2] 100 7⟩]

theorem confirmedSecond_stale :
    BRWallet.new 20 0 [] sampleKey = .ok (some (sampleNew [])) ∧
      ∃ w log w', runCalls 20 (sampleNew []) confirmedSecond = .ok (w, log) ∧
        w.transactions.map (·.txHash) = [2, 1] ∧
        w.balanceHist = [50000, 110000] ∧
        w.updateBalance 0 = .ok w' ∧ w'.balanceHist = [60000, 110000] := by
  refine ⟨rfl, (sampleRun (sampleNew []) confirmedSecond).1, _, _, rfl, ?_, ?_, rfl, ?_⟩
  · decide
  · decide
  · decide

end Steps

end BreadwalletCore
