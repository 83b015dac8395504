import BreadwalletCore.Wallet.History

/-!
# Callbacks

The application keeps the wallet's transactions in a store that it only changes
in the callbacks.  Two properties of the callbacks matter to it:

* `txUpdated` only names transactions that the store has: they were given to
  `BRWalletNew` or announced by `txAdded`, and not by `txDeleted` since;
* after every call the store agrees with `wallet->transactions`.

Both fail where an operation announces something else than it does.
`BRWalletUpdateTransactions` goes by `allTx` and `_BRWalletContainsTx`, not by
`wallet->transactions`, and `BRWalletSetTxUnconfirmedAfter` announces a
timestamp that it does not write.
-/

namespace BreadwalletCore

open Machine

/-! ## The protocol of `txUpdated` -/

/-- The hashes announced and not deleted, after one more callback. -/
def announce (live : Finset UInt256) : Event → Finset UInt256
  | .balanceChanged _ => live
  | .txAdded tx => insert tx.txHash live
  | .txUpdated _ _ _ => live
  | .txDeleted txHash _ _ => live.erase txHash

/-- The hashes announced and not deleted, after some callbacks on a wallet that
was given `txs`. -/
def announced (txs : List BRTransaction) (log : List Event) : Finset UInt256 :=
  log.foldl announce (txs.map (·.txHash)).toFinset

/-- Every `txUpdated` in the log names distinct announced transactions. -/
def UpdatesAnnounced (txs : List BRTransaction) (log : List Event) : Prop :=
  ∀ pre hashes blockHeight timestamp post,
    log = pre ++ .txUpdated hashes blockHeight timestamp :: post →
      hashes.Nodup ∧ ∀ h ∈ hashes, h ∈ announced txs pre

/-- An update changes no relevant transaction of `allTx` that is not listed. -/
def ProtocolSafe (w : BRWallet) (c : Call) : Prop :=
  match c.op with
  | .updateTransactions txHashes blockHeight timestamp =>
      ∀ h ∈ txHashes, ∀ tx, getTx w.allTx h = some tx →
        ¬ (tx.blockHeight = blockHeight ∧ tx.timestamp = timestamp) →
        w.containsTx tx = true → w.listsTx h = true
  | _ => True

section Protocol

variable {now : Int} {fuel : Nat} {w w' : BRWallet} {txs : List BRTransaction}

theorem announced_concat
    (txs : List BRTransaction) (log : List Event) (e : Event) :
    announced txs (log ++ [e]) = announce (announced txs log) e := by
  simp [announced]

theorem updatesAnnounced_nil
    (txs : List BRTransaction) :
    UpdatesAnnounced txs [] := by
  intro pre hashes blockHeight timestamp post h
  simp at h

theorem UpdatesAnnounced.concat
    {log : List Event} {e : Event}
    (hlog : UpdatesAnnounced txs log)
    (he : ∀ hashes blockHeight timestamp, e = .txUpdated hashes blockHeight timestamp →
      hashes.Nodup ∧ ∀ h ∈ hashes, h ∈ announced txs log) :
    UpdatesAnnounced txs (log ++ [e]) := by
  intro pre hashes blockHeight timestamp post h
  rcases CoinBook.concat_split h with ⟨rfl, heq, -⟩ | ⟨post', -, rfl⟩
  · exact he hashes blockHeight timestamp heq.symm
  · exact hlog pre hashes blockHeight timestamp post' rfl

/-- What holds between the wallet and the log of its callbacks. -/
structure Protocol (txs : List BRTransaction) (w : BRWallet) (log : List Event) :
    Prop where
  listed : Listed w
  live : ∀ h, w.listsTx h = true → h ∈ announced txs log
  updates : UpdatesAnnounced txs log

/-- The loop of an update collects listed transactions. -/
theorem sweep_hashes_listed
    {txHashes : List UInt256} {blockHeight timestamp : UInt32} {s : BRWallet.Sweep}
    (hw : Listed w)
    (hsafe : ProtocolSafe w ⟨now, .updateTransactions txHashes blockHeight timestamp⟩)
    (hs : txHashes.foldlM (BRWallet.updateTx blockHeight timestamp)
      { wallet := w.raiseHeight blockHeight } = .ok s) :
    SweepInv (w.raiseHeight blockHeight) blockHeight timestamp s ∧
      ∀ h ∈ s.hashes, w.listsTx h = true := by
  refine foldlM_invariant
    (I := fun s => SweepInv (w.raiseHeight blockHeight) blockHeight timestamp s ∧
      ∀ h ∈ s.hashes, w.listsTx h = true) ?_ ⟨SweepInv.start hw, by simp⟩ hs
  rintro s txHash hmem s' ⟨hinv, hhashes⟩ hstep
  refine ⟨hinv.updateTx hstep, ?_⟩
  cases updateTx_cases hstep with
  | skipped _ =>
      exact hhashes
  | @moved tx htx hchanged hcontains =>
      intro h hh
      rcases List.mem_append.mp hh with hh | hh
      · exact hhashes h hh
      · rw [List.mem_singleton.mp hh]
        have hold := hinv.untouched txHash tx htx hchanged
        rw [raiseHeight_allTx] at hold
        rw [hinv.relevant, containsTx_raiseHeight] at hcontains
        exact hsafe txHash hmem tx hold hchanged hcontains
  | freed _ _ _ _ _ =>
      exact hhashes
  | foreign _ _ _ _ =>
      exact hhashes

section Operations

variable {log events : List Event}

/-- A call without a callback that lists nothing new. -/
theorem Protocol.quiet
    (hp : Protocol txs w log)
    (hlisted : Listed w')
    (hlists : ∀ h, w'.listsTx h = true → w.listsTx h = true) :
    Protocol txs w' (log ++ []) := by
  rw [List.append_nil]
  exact ⟨hlisted, fun h hl => hp.live h (hlists h hl), hp.updates⟩

/-- A call that announces an update of listed transactions. -/
theorem Protocol.updated
    {hashes : List UInt256} {blockHeight timestamp : UInt32}
    (hp : Protocol txs w log)
    (hlisted : Listed w')
    (hlists : ∀ h, w'.listsTx h = true → w.listsTx h = true)
    (hnodup : hashes.Nodup)
    (hmem : ∀ h ∈ hashes, w.listsTx h = true) :
    Protocol txs w' (log ++ [.txUpdated hashes blockHeight timestamp]) := by
  refine ⟨hlisted, ?_, hp.updates.concat ?_⟩
  · intro h hl
    rw [announced_concat]
    exact hp.live h (hlists h hl)
  · rintro hashes bh ts heq
    cases heq
    exact ⟨hnodup, fun h hh => hp.live h (hmem h hh)⟩

theorem Protocol.registerTransaction
    {tx : BRTransaction} {r : Bool}
    (hp : Protocol txs w log)
    (hlisted : Listed w')
    (h : w.registerTransaction fuel now tx = .ok (w', events, r)) :
    Protocol txs w' (log ++ events) := by
  cases registerTransaction_cases h with
  | unsigned _ =>
      simpa using hp
  | known _ _ =>
      simpa using hp
  | @added w₂ _ _ _ hbal =>
      have hlog : log ++ [.balanceChanged w₂.balance, .txAdded tx] =
          (log ++ [.balanceChanged w₂.balance]) ++ [.txAdded tx] := by
        simp
      rw [hlog]
      refine ⟨hlisted, ?_, ?_⟩
      · intro h hlists
        change w₂.listsTx h = true at hlists
        rw [updateBalance_listsTx hbal, listsTx_insertTx] at hlists
        rw [announced_concat, announced_concat]
        rcases Bool.or_eq_true_iff.mp hlists with heq | hold
        · rw [← of_decide_eq_true heq]
          exact Finset.mem_insert_self _ _
        · exact Finset.mem_insert_of_mem (hp.live h hold)
      · refine (hp.updates.concat ?_).concat ?_ <;> simp
  | refused _ _ _ =>
      refine hp.quiet hlisted (fun h hlists => ?_)
      split at hlists <;> exact hlists

theorem Protocol.updateTransactions
    {txHashes : List UInt256} {blockHeight timestamp : UInt32}
    (hp : Protocol txs w log)
    (hsafe : ProtocolSafe w ⟨now, .updateTransactions txHashes blockHeight timestamp⟩)
    (hlisted : Listed w')
    (h : w.updateTransactions now txHashes blockHeight timestamp = .ok (w', events)) :
    Protocol txs w' (log ++ events) := by
  obtain ⟨s, hs, rfl, hend⟩ := updateTransactions_cases h
  obtain ⟨hinv, hhashes⟩ := sweep_hashes_listed hp.listed hsafe hs
  have hlists : ∀ h, w'.listsTx h = true → w.listsTx h = true := by
    intro h hl
    rw [← listsTx_raiseHeight w blockHeight h, ← hinv.lists]
    rcases hend with ⟨-, hbal⟩ | ⟨-, rfl⟩
    · rw [updateBalance_listsTx hbal] at hl
      exact hl
    · exact hl
  split
  · exact hp.quiet hlisted hlists
  · exact hp.updated hlisted hlists hinv.hashes_nodup hhashes

theorem Protocol.setTxUnconfirmedAfter
    {blockHeight : UInt32}
    (hp : Protocol txs w log)
    (hlisted : Listed w')
    (h : w.setTxUnconfirmedAfter now blockHeight = .ok (w', events)) :
    Protocol txs w' (log ++ events) := by
  rcases setTxUnconfirmedAfter_cases h with ⟨-, rfl, rfl⟩ | ⟨-, hbal, rfl⟩
  · exact hp.quiet hlisted (fun _ hl => hl)
  · have hsub : List.Sublist (w.txAfter blockHeight) w.transactions :=
      (List.rtakeWhile_suffix _ _).sublist
    refine hp.updated hlisted ?_ (hp.listed.nodup.sublist (hsub.map _)) ?_
    · intro h hl
      rw [updateBalance_listsTx hbal] at hl
      have hsame := listsTx_writeTx (w := w)
        (fun h => h ∈ (w.txAfter blockHeight).map (·.txHash)) h
        (fun t => t.setBlock_txHash txUnconfirmed t.timestamp)
      rw [← hsame]
      exact hl
    · intro h hh
      obtain ⟨t, ht, rfl⟩ := List.mem_map.mp hh
      exact listsTx_iff.mpr ⟨t, hsub.subset ht, rfl⟩

/-- One transaction that is removed. -/
theorem Protocol.removed
    {txHash : UInt256} {notifyUser recommendRescan : Bool}
    (hp : Protocol txs w log)
    (hbal : (w.rmTx txHash).updateBalance now = .ok w') :
    Protocol txs w' (log ++
      [.balanceChanged w'.balance, .txDeleted txHash notifyUser recommendRescan]) := by
  have hlog : log ++ [.balanceChanged w'.balance,
        .txDeleted txHash notifyUser recommendRescan] =
      (log ++ [.balanceChanged w'.balance]) ++
        [.txDeleted txHash notifyUser recommendRescan] := by
    simp
  rw [hlog]
  refine ⟨(hp.listed.rmTx txHash).updateBalance hbal, ?_, ?_⟩
  · intro h hl
    rw [updateBalance_listsTx hbal, hp.listed.listsTx_rmTx, Bool.and_eq_true] at hl
    rw [announced_concat, announced_concat]
    exact Finset.mem_erase.mpr ⟨of_decide_eq_true hl.1, hp.live h hl.2⟩
  · refine (hp.updates.concat ?_).concat ?_ <;> simp

/-- A safe call keeps to the protocol. -/
theorem Protocol.step
    {c : Call}
    (hp : Protocol txs w log)
    (hsafe : ProtocolSafe w c)
    (h : step fuel w c = .ok (w', events)) :
    Protocol txs w' (log ++ events) := by
  have hlisted := hp.listed.step h
  obtain ⟨now, op⟩ := c
  cases op with
  | registerTransaction tx =>
      obtain ⟨⟨w₁, es, r⟩, hreg, hret⟩ := bind_eq_ok.mp h
      cases hret
      exact hp.registerTransaction hlisted hreg
  | updateTransactions txHashes blockHeight timestamp =>
      exact hp.updateTransactions hsafe hlisted h
  | setTxUnconfirmedAfter blockHeight =>
      exact hp.setTxUnconfirmedAfter hlisted h
  | removeTransaction txHash =>
      exact removeTransaction_invariant (I := Protocol txs)
        (fun _ _ _ _ _ _ hp _ hbal => hp.removed hbal) hp h
  | unusedAddrs gapLimit internal =>
      obtain ⟨⟨w₁, addrs⟩, hun, hret⟩ := bind_eq_ok.mp h
      cases hret
      obtain rfl := unusedAddrs_ok hun
      exact hp.quiet hlisted (fun _ hl => hl)

end Operations

theorem Protocol.new
    {mpk : BRMasterPubKey}
    (h : BRWallet.new fuel now txs mpk = .ok (some w)) :
    Protocol txs w [] where
  listed := Listed.new h
  live := by
    intro x hx
    obtain ⟨tx, htx, rfl⟩ := listsTx_iff.mp hx
    exact List.mem_toFinset.mpr (List.mem_map_of_mem (new_subset h tx htx))
  updates := updatesAnnounced_nil txs

/--
**The protocol of `txUpdated`.**  In every run from `BRWalletNew` in which no
update changes a relevant transaction of `allTx` that is not listed, every hash
passed to `txUpdated` was given to `BRWalletNew` or announced by `txAdded` and
not deleted since, and no call names a hash twice.
-/
theorem run_updatesAnnounced
    {w₀ : BRWallet} {mpk : BRMasterPubKey} {calls : List Call} {log : List Event}
    (hnew : BRWallet.new fuel now txs mpk = .ok (some w₀))
    (hguard : Guarded (step fuel) ProtocolSafe w₀ calls)
    (hrun : runCalls fuel w₀ calls = .ok (w, log)) :
    UpdatesAnnounced txs log := by
  have hp := run_invariant (I := Protocol txs)
    (fun _ _ _ _ _ hp hsafe hs => hp.step hsafe hs) (Protocol.new hnew) hguard hrun
  simpa using hp.updates

theorem run_updatesAnnounced_sample :
    UpdatesAnnounced [samplePayment]
      (sampleRun (sampleNew [samplePayment]) [⟨0, .updateTransactions [1] 150 9⟩]).2 := by
  have hlists : (sampleNew [samplePayment]).listsTx 1 = true := by
    decide
  exact @run_updatesAnnounced 0 20
    (sampleRun (sampleNew [samplePayment]) [⟨0, .updateTransactions [1] 150 9⟩]).1
    [samplePayment] (sampleNew [samplePayment]) sampleKey
    [⟨0, .updateTransactions [1] 150 9⟩] _ rfl
    ⟨fun h hh _ _ _ _ => by rw [List.mem_singleton.mp hh]; exact hlists,
      fun _ _ _ => trivial⟩ rfl

/-- A payment is registered, removed again, and then found in a block. -/
def removedThenConfirmed : List Call :=
  [⟨0, .registerTransaction (sampleTx 4 [⟨96, 0⟩] [1, 1] 60000 txUnconfirmed)⟩,
    ⟨0, .removeTransaction 4⟩, ⟨0, .updateTransactions [4] 150 9⟩]

theorem removedThenConfirmed_not_announced :
    BRWallet.new 20 0 [samplePayment] sampleKey =
        .ok (some (sampleNew [samplePayment])) ∧
      ∃ w log, runCalls 20 (sampleNew [samplePayment]) removedThenConfirmed =
        .ok (w, log) ∧ ¬ UpdatesAnnounced [samplePayment] log := by
  refine ⟨rfl, _, _, runCalls_sample (by decide +kernel), ?_⟩
  intro h
  have hupdate := h
    ((sampleRun (sampleNew [samplePayment]) removedThenConfirmed).2.take 4)
    [4] 150 9 [] rfl
  have hnot : 4 ∉ announced [samplePayment]
      ((sampleRun (sampleNew [samplePayment]) removedThenConfirmed).2.take 4) := by
    decide
  exact hnot (hupdate.2 4 (by simp))

end Protocol

/-! ## The store -/

/-- Block height and timestamp by hash. -/
abbrev Store := UInt256 → Option (UInt32 × UInt32)

/-- The store that holds a list of transactions. -/
def storeOf (txs : List BRTransaction) : Store :=
  fun h => (getTx txs h).map (fun tx => (tx.blockHeight, tx.timestamp))

/-- What the application does with the store in a callback. -/
def applyEvent (store : Store) : Event → Store
  | .balanceChanged _ => store
  | .txAdded tx => Function.update store tx.txHash (some (tx.blockHeight, tx.timestamp))
  | .txUpdated hashes blockHeight timestamp => fun h =>
      if h ∈ hashes then (store h).map (fun _ => (blockHeight, timestamp)) else store h
  | .txDeleted txHash _ _ => Function.update store txHash none

theorem applyEvent_txUpdated_apply
    (store : Store) (hashes : List UInt256) (blockHeight timestamp : UInt32)
    (h : UInt256) :
    applyEvent store (.txUpdated hashes blockHeight timestamp) h =
      if h ∈ hashes then (store h).map (fun _ => (blockHeight, timestamp))
      else store h := by
  rfl

/-- The calls whose callbacks tell what they do.  An update changes no listed
transaction that is not the wallet's; a reset marks only transactions whose
timestamp is 0, as it announces. -/
def StoreSafe (w : BRWallet) (c : Call) : Prop :=
  match c.op with
  | .updateTransactions txHashes blockHeight timestamp =>
      ∀ tx ∈ w.transactions, tx.txHash ∈ txHashes →
        ¬ (tx.blockHeight = blockHeight ∧ tx.timestamp = timestamp) →
        w.containsTx tx = true
  | .setTxUnconfirmedAfter blockHeight =>
      ∀ tx ∈ w.txAfter blockHeight, tx.timestamp = 0
  | _ => True

section Replica

variable {now : Int} {fuel : Nat} {w w' : BRWallet} {txs : List BRTransaction}

/-- The store agrees with the list, and the list holds signed transactions. -/
structure Replica (txs : List BRTransaction) (w : BRWallet) (log : List Event) :
    Prop where
  listed : Listed w
  signed : ∀ tx ∈ w.transactions, tx.isSigned = true
  agrees : log.foldl applyEvent (storeOf txs) = storeOf w.transactions

theorem storeOf_transactions
    (hw : Listed w)
    (h : UInt256) :
    storeOf w.transactions h =
      if w.listsTx h then
        (getTx w.allTx h).map (fun tx => (tx.blockHeight, tx.timestamp))
      else none := by
  rw [storeOf, hw.getTx_transactions]
  split <;> rfl

/-- A wallet that lists the same hashes with the same heights and timestamps. -/
theorem storeOf_congr
    (hw : Listed w)
    (hw' : Listed w')
    (hlists : ∀ h, w'.listsTx h = w.listsTx h)
    (hget : ∀ h, w.listsTx h = true →
      (getTx w'.allTx h).map (fun tx => (tx.blockHeight, tx.timestamp)) =
        (getTx w.allTx h).map (fun tx => (tx.blockHeight, tx.timestamp))) :
    storeOf w'.transactions = storeOf w.transactions := by
  funext h
  rw [storeOf_transactions hw, storeOf_transactions hw', hlists]
  split
  · rename_i hl
    exact hget h hl
  · rfl

/-- Adding a transaction to the list adds it to the store. -/
theorem storeOf_added
    {tx : BRTransaction}
    (hw : Listed w)
    (hknown : w.knowsTx tx.txHash = false) :
    storeOf ((w.addTx tx).insertTx tx).transactions =
      Function.update (storeOf w.transactions) tx.txHash
        (some (tx.blockHeight, tx.timestamp)) := by
  have hadd := (hw.addTx hknown).insertTx (by rw [getTx_addTx]; simp)
    (hw.not_lists hknown)
  funext h
  rw [storeOf_transactions hadd, listsTx_insertTx]
  have hall : ((w.addTx tx).insertTx tx).allTx = (w.addTx tx).allTx := rfl
  rw [hall, getTx_addTx]
  by_cases heq : tx.txHash = h
  · subst heq
    simp
  · have hne : h ≠ tx.txHash := fun h' => heq h'.symm
    rw [Function.update_of_ne hne, storeOf_transactions hw]
    simp only [heq, decide_false, Bool.false_or, if_false]
    rfl

/-- Removing a transaction from the list removes it from the store. -/
theorem storeOf_removed
    (hw : Listed w)
    (txHash : UInt256) :
    storeOf (w.rmTx txHash).transactions =
      Function.update (storeOf w.transactions) txHash none := by
  funext h
  rw [storeOf_transactions (hw.rmTx txHash), hw.listsTx_rmTx]
  by_cases heq : h = txHash
  · subst heq
    simp
  · rw [Function.update_of_ne heq, storeOf_transactions hw]
    simp only [heq, ne_eq, not_false_eq_true, decide_true, Bool.true_and]
    rfl

/-- The store in the middle of an update, with the collected hashes announced. -/
def SweepStore (w : BRWallet) (blockHeight timestamp : UInt32) (s : BRWallet.Sweep) :
    Prop :=
  storeOf s.wallet.transactions =
    applyEvent (storeOf w.transactions) (.txUpdated s.hashes blockHeight timestamp)

/-- What a write to one listed transaction does to the store. -/
theorem storeOf_written
    {txHash : UInt256} {blockHeight timestamp : UInt32}
    (hw : Listed w)
    (hw' : Listed w')
    (hlists : ∀ h, w'.listsTx h = w.listsTx h)
    (hall : ∀ h, getTx w'.allTx h =
      getTx (w.writeBlock txHash blockHeight timestamp).allTx h) :
    storeOf w'.transactions =
      applyEvent (storeOf w.transactions) (.txUpdated [txHash] blockHeight timestamp) := by
  funext h
  rw [storeOf_transactions hw', hlists, hall, getTx_writeBlock,
    applyEvent_txUpdated_apply, storeOf_transactions hw]
  by_cases heq : h = txHash
  · subst heq
    simp only [List.mem_singleton, if_true]
    split
    · cases getTx w.allTx h <;> rfl
    · rfl
  · simp only [List.mem_singleton, heq, if_false, Option.map_map]
    split
    · cases getTx w.allTx h <;> rfl
    · rfl

/-- Announcing one more hash. -/
theorem applyEvent_txUpdated_concat
    (store : Store) (hashes : List UInt256) (txHash : UInt256)
    (blockHeight timestamp : UInt32) :
    applyEvent (applyEvent store (.txUpdated hashes blockHeight timestamp))
        (.txUpdated [txHash] blockHeight timestamp) =
      applyEvent store (.txUpdated (hashes ++ [txHash]) blockHeight timestamp) := by
  funext h
  simp only [applyEvent_txUpdated_apply, List.mem_singleton, List.mem_append]
  by_cases hmem : h ∈ hashes
  · simp only [hmem, if_true, true_or, Option.map_map]
    split <;> rfl
  · by_cases heq : h = txHash
    · simp [heq, heq ▸ hmem]
    · simp [heq, hmem]

/-- A safe call is safe at every iteration. -/
theorem sweep_contains
    {txHashes : List UInt256} {blockHeight timestamp : UInt32} {s : BRWallet.Sweep}
    {txHash : UInt256} {tx : BRTransaction}
    (hw : Listed w)
    (hsafe : StoreSafe w ⟨now, .updateTransactions txHashes blockHeight timestamp⟩)
    (hmem : txHash ∈ txHashes)
    (hinv : SweepInv (w.raiseHeight blockHeight) blockHeight timestamp s)
    (htx : getTx s.wallet.allTx txHash = some tx)
    (hlists : s.wallet.listsTx txHash = true)
    (hchanged : ¬ (tx.blockHeight = blockHeight ∧ tx.timestamp = timestamp)) :
    s.wallet.containsTx tx = true := by
  obtain ⟨hold, hcontains⟩ := hinv.listed_before hw htx hlists hchanged
  rw [hcontains]
  exact hsafe tx hold (getTx_hash htx ▸ hmem) hchanged

/-- One iteration of an update announces what it writes, as long as it does not
change a listed transaction that is not the wallet's. -/
theorem SweepStore.updateTx
    {blockHeight timestamp : UInt32} {s s' : BRWallet.Sweep} {txHash : UInt256}
    {w₀ : BRWallet}
    (hinv : SweepInv w₀ blockHeight timestamp s)
    (hstore : SweepStore w blockHeight timestamp s)
    (hsafe : ∀ tx, getTx s.wallet.allTx txHash = some tx →
      s.wallet.listsTx txHash = true →
      ¬ (tx.blockHeight = blockHeight ∧ tx.timestamp = timestamp) →
      s.wallet.containsTx tx = true)
    (h : BRWallet.updateTx blockHeight timestamp s txHash = .ok s') :
    SweepStore w blockHeight timestamp s' := by
  have hinv' := hinv.updateTx h
  have hlists : ∀ h, s'.wallet.listsTx h = s.wallet.listsTx h := by
    intro h
    rw [hinv'.lists, hinv.lists]
  -- a write to an unlisted transaction is not seen in the store
  have hunlisted : s.wallet.listsTx txHash = false →
      (∀ h ≠ txHash, getTx s'.wallet.allTx h = getTx s.wallet.allTx h) →
      storeOf s'.wallet.transactions = storeOf s.wallet.transactions := by
    intro hl hget
    refine storeOf_congr hinv.listed hinv'.listed hlists ?_
    intro h hh
    have hne : h ≠ txHash := by
      rintro rfl
      rw [hl] at hh
      cases hh
    rw [hget h hne]
  have hwrite : ∀ h ≠ txHash,
      getTx (s.wallet.writeBlock txHash blockHeight timestamp).allTx h =
        getTx s.wallet.allTx h := by
    intro h hne
    rw [getTx_writeBlock]
    simp [hne]
  cases updateTx_cases h with
  | skipped _ =>
      exact hstore
  | moved _ _ _ =>
      rw [SweepStore, ← applyEvent_txUpdated_concat, ← hstore]
      refine storeOf_written hinv.listed hinv'.listed hlists ?_
      intro h
      dsimp only
      split <;> rfl
  | freed _ _ _ _ hl =>
      rw [SweepStore, ← hstore]
      refine hunlisted hl ?_
      intro h hne
      rw [getTx_remove, if_neg hne, hwrite h hne]
  | @foreign tx htx hchanged hforeign _ =>
      rw [SweepStore, ← hstore]
      refine hunlisted ?_ hwrite
      rw [Bool.eq_false_iff]
      intro hl
      rw [hsafe tx htx hl hchanged] at hforeign
      cases hforeign

theorem storeOf_marked
    {hashes : List UInt256}
    (hw : Listed w)
    (hzero : ∀ h ∈ hashes, ∀ tx, getTx w.allTx h = some tx → tx.timestamp = 0) :
    storeOf (w.markUnconfirmed hashes).transactions =
      applyEvent (storeOf w.transactions) (.txUpdated hashes txUnconfirmed 0) := by
  have hmark : Listed (w.markUnconfirmed hashes) :=
    hw.writeTx _ (fun t => t.setBlock_txHash txUnconfirmed t.timestamp)
  have hlists : ∀ h, (w.markUnconfirmed hashes).listsTx h = w.listsTx h :=
    fun h => listsTx_writeTx _ h (fun t => t.setBlock_txHash txUnconfirmed t.timestamp)
  have hget : ∀ h, getTx (w.markUnconfirmed hashes).allTx h =
      (getTx w.allTx h).map (fun t => if decide (h ∈ hashes) = true then
        t.setBlock txUnconfirmed t.timestamp else t) :=
    fun h => getTx_writeTx (fun t => t.setBlock_txHash txUnconfirmed t.timestamp) h
  funext h
  rw [storeOf_transactions hmark, hlists, hget, applyEvent_txUpdated_apply,
    storeOf_transactions hw]
  by_cases hmem : h ∈ hashes
  · simp only [hmem, decide_true, if_true]
    split
    · cases htx : getTx w.allTx h with
      | none =>
          rfl
      | some tx =>
          simp [hzero h hmem tx htx]
    · rfl
  · simp [hmem]

/-- The transactions written by an operation are as signed as before. -/
theorem signed_writeTx
    {p : UInt256 → Bool} {f : BRTransaction → BRTransaction}
    (hf : ∀ t, (f t).isSigned = t.isSigned)
    (hsigned : ∀ tx ∈ w.transactions, tx.isSigned = true) :
    ∀ tx ∈ (w.writeTx p f).transactions, tx.isSigned = true := by
  intro tx htx
  obtain ⟨b, hb, rfl⟩ := KeyedList.mem_modify.mp htx
  split
  · rw [hf]
    exact hsigned b hb
  · exact hsigned b hb

theorem signed_updateTx
    {blockHeight timestamp : UInt32} {s s' : BRWallet.Sweep} {txHash : UInt256}
    (hlisted : Listed s.wallet)
    (hsigned : ∀ tx ∈ s.wallet.transactions, tx.isSigned = true)
    (h : BRWallet.updateTx blockHeight timestamp s txHash = .ok s') :
    ∀ tx ∈ s'.wallet.transactions, tx.isSigned = true := by
  have hwrite : ∀ tx ∈ (s.wallet.writeBlock txHash blockHeight timestamp).transactions,
      tx.isSigned = true :=
    signed_writeTx (fun t => t.setBlock_isSigned blockHeight timestamp) hsigned
  cases updateTx_cases h with
  | skipped _ =>
      exact hsigned
  | @moved tx htx _ _ =>
      intro t ht
      split at ht
      · rename_i hl
        rcases mem_insertTx.mp ht with rfl | ht
        · obtain ⟨u, hu, -, hget⟩ := hlisted.lists hl
          rw [htx] at hget
          cases hget
          exact hsigned tx hu
        · exact hwrite t ((KeyedList.eraseLast_sublist _ _).subset ht)
      · exact hwrite t ht
  | freed _ _ _ _ _ =>
      exact hwrite
  | foreign _ _ _ _ =>
      exact hwrite

section Operations

variable {log events : List Event}

theorem Replica.registerTransaction
    {tx : BRTransaction} {r : Bool}
    (hr : Replica txs w log)
    (hlisted : Listed w')
    (h : w.registerTransaction fuel now tx = .ok (w', events, r)) :
    Replica txs w' (log ++ events) := by
  cases registerTransaction_cases h with
  | unsigned _ =>
      simpa using hr
  | known _ _ =>
      simpa using hr
  | added hsigned hknown _ hbal =>
      have htransactions := updateBalance_transactions hbal
      refine ⟨hlisted, ?_, ?_⟩
      · rw [filled_transactions, htransactions]
        intro t ht
        rcases mem_insertTx.mp ht with rfl | ht
        · exact hsigned
        · exact hr.signed t ht
      · rw [List.foldl_append, hr.agrees, filled_transactions, htransactions,
          storeOf_added hr.listed hknown]
        rfl
  | refused _ _ _ =>
      rw [List.append_nil]
      refine ⟨hlisted, ?_, ?_⟩
      · split <;> exact hr.signed
      · rw [hr.agrees]
        split <;> rfl

theorem Replica.updateTransactions
    {txHashes : List UInt256} {blockHeight timestamp : UInt32}
    (hr : Replica txs w log)
    (hsafe : StoreSafe w ⟨now, .updateTransactions txHashes blockHeight timestamp⟩)
    (hlisted : Listed w')
    (h : w.updateTransactions now txHashes blockHeight timestamp = .ok (w', events)) :
    Replica txs w' (log ++ events) := by
  obtain ⟨s, hs, rfl, hend⟩ := updateTransactions_cases h
  obtain ⟨hinv, hstore, hsigned⟩ := foldlM_invariant
    (I := fun s => SweepInv (w.raiseHeight blockHeight) blockHeight timestamp s ∧
      SweepStore w blockHeight timestamp s ∧
      ∀ tx ∈ s.wallet.transactions, tx.isSigned = true)
    (fun s txHash hmem s' hI hstep => ⟨hI.1.updateTx hstep,
      hI.2.1.updateTx hI.1 (fun tx htx hl hchanged =>
        sweep_contains hr.listed hsafe hmem hI.1 htx hl hchanged) hstep,
      signed_updateTx hI.1.listed hI.2.2 hstep⟩)
    ⟨SweepInv.start hr.listed, by
        rw [SweepStore, raiseHeight_transactions]
        rfl, by
        rw [raiseHeight_transactions]
        exact hr.signed⟩ hs
  have htransactions : w'.transactions = s.wallet.transactions := by
    rcases hend with ⟨-, hbal⟩ | ⟨-, rfl⟩
    · exact updateBalance_transactions hbal
    · rfl
  refine ⟨hlisted, by rw [htransactions]; exact hsigned, ?_⟩
  rw [htransactions, hstore, List.foldl_append, hr.agrees]
  split
  · rename_i hnil
    rw [hnil]
    rfl
  · rfl

theorem Replica.setTxUnconfirmedAfter
    {blockHeight : UInt32}
    (hr : Replica txs w log)
    (hsafe : StoreSafe w ⟨now, .setTxUnconfirmedAfter blockHeight⟩)
    (hlisted : Listed w')
    (h : w.setTxUnconfirmedAfter now blockHeight = .ok (w', events)) :
    Replica txs w' (log ++ events) := by
  rcases setTxUnconfirmedAfter_cases h with ⟨-, rfl, rfl⟩ | ⟨-, hbal, rfl⟩
  · rw [List.append_nil]
    exact ⟨hlisted, hr.signed, hr.agrees⟩
  · have hset : Listed { w with blockHeight := blockHeight } :=
      hr.listed.congr rfl rfl
    refine ⟨hlisted, ?_, ?_⟩
    · rw [updateBalance_transactions hbal]
      exact signed_writeTx
        (fun t => t.setBlock_isSigned txUnconfirmed t.timestamp) hr.signed
    · rw [List.foldl_append, hr.agrees, updateBalance_transactions hbal]
      refine (storeOf_marked hset ?_).symm
      intro x hx tx htx
      obtain ⟨t, ht, rfl⟩ := List.mem_map.mp hx
      have hmem : t ∈ w.transactions := (List.rtakeWhile_suffix _ _).subset ht
      have hget := hr.listed.known t hmem
      have htx' : getTx w.allTx t.txHash = some tx := htx
      rw [hget] at htx'
      cases htx'
      exact hsafe _ ht

/-- One transaction that is removed. -/
theorem Replica.removed
    {txHash : UInt256} {notifyUser recommendRescan : Bool}
    (hr : Replica txs w log)
    (hbal : (w.rmTx txHash).updateBalance now = .ok w') :
    Replica txs w' (log ++
      [.balanceChanged w'.balance, .txDeleted txHash notifyUser recommendRescan]) := by
  have htransactions := updateBalance_transactions hbal
  refine ⟨(hr.listed.rmTx txHash).updateBalance hbal, ?_, ?_⟩
  · rw [htransactions]
    intro t ht
    exact hr.signed t ((KeyedList.eraseLast_sublist _ _).subset ht)
  · rw [List.foldl_append, hr.agrees, htransactions, storeOf_removed hr.listed]
    rfl

/-- A safe call is announced as it is done. -/
theorem Replica.step
    {c : Call}
    (hr : Replica txs w log)
    (hsafe : StoreSafe w c)
    (h : step fuel w c = .ok (w', events)) :
    Replica txs w' (log ++ events) := by
  have hlisted := hr.listed.step h
  obtain ⟨now, op⟩ := c
  cases op with
  | registerTransaction tx =>
      obtain ⟨⟨w₁, es, r⟩, hreg, hret⟩ := bind_eq_ok.mp h
      cases hret
      exact hr.registerTransaction hlisted hreg
  | updateTransactions txHashes blockHeight timestamp =>
      exact hr.updateTransactions hsafe hlisted h
  | setTxUnconfirmedAfter blockHeight =>
      exact hr.setTxUnconfirmedAfter hsafe hlisted h
  | removeTransaction txHash =>
      exact removeTransaction_invariant (I := Replica txs)
        (fun _ _ _ _ _ _ hr _ hbal => hr.removed hbal) hr h
  | unusedAddrs gapLimit internal =>
      obtain ⟨⟨w₁, addrs⟩, hun, hret⟩ := bind_eq_ok.mp h
      cases hret
      obtain rfl := unusedAddrs_ok hun
      rw [List.append_nil]
      exact ⟨hlisted, hr.signed, hr.agrees⟩

end Operations

theorem Replica.new
    {mpk : BRMasterPubKey}
    (hsigned : ∀ tx ∈ txs, tx.isSigned = true)
    (h : BRWallet.new fuel now txs mpk = .ok (some w)) :
    Replica txs w [] where
  listed := Listed.new h
  signed := fun tx htx => hsigned tx (new_subset h tx htx)
  agrees := by
    have hall : txs.filter (·.isSigned) = txs := by
      rw [List.filter_eq_self]
      exact hsigned
    funext x
    rw [List.foldl_nil, storeOf, storeOf, getTx_new h, hall]

/-- Loading the listed transactions in any order lists them again. -/
theorem new_perm
    {stored : List BRTransaction} {mpk : BRMasterPubKey}
    (hw : Listed w)
    (hsigned : ∀ tx ∈ w.transactions, tx.isSigned = true)
    (hperm : stored.Perm w.transactions)
    (h : BRWallet.new fuel now stored mpk = .ok (some w')) :
    w'.transactions.Perm w.transactions := by
  have hw' : Listed w' := Listed.new h
  have hall : stored.filter (·.isSigned) = stored := by
    rw [List.filter_eq_self]
    exact fun tx htx => hsigned tx (hperm.mem_iff.mp htx)
  have hnodup : (stored.map (·.txHash)).Nodup := (hperm.map _).nodup_iff.mpr hw.nodup
  rw [List.perm_ext_iff_of_nodup (List.Nodup.of_map _ hw'.nodup)
    (List.Nodup.of_map _ hw.nodup)]
  intro tx
  rw [← hperm.mem_iff]
  constructor
  · exact fun htx => new_subset h tx htx
  · intro htx
    have hget : getTx stored tx.txHash = some tx :=
      KeyedList.get_eq_some_of_mem hnodup htx
    have hnew := getTx_new h tx.txHash
    rw [hall, hget] at hnew
    exact mem_of_getTx hnew

/--
**The store is a replica.**  In every run from `BRWalletNew` on signed
transactions whose calls are safe, the store kept by the callbacks is that of
`wallet->transactions`, and a wallet made from the stored transactions, in any
order, lists the same transactions.
-/
theorem run_store
    {w₀ : BRWallet} {mpk : BRMasterPubKey} {calls : List Call} {log : List Event}
    (hsigned : ∀ tx ∈ txs, tx.isSigned = true)
    (hnew : BRWallet.new fuel now txs mpk = .ok (some w₀))
    (hguard : Guarded (step fuel) StoreSafe w₀ calls)
    (hrun : runCalls fuel w₀ calls = .ok (w, log)) :
    log.foldl applyEvent (storeOf txs) = storeOf w.transactions ∧
      ∀ fuel' now' stored w', stored.Perm w.transactions →
        BRWallet.new fuel' now' stored mpk = .ok (some w') →
        w'.transactions.Perm w.transactions := by
  have hr := run_invariant (I := Replica txs)
    (fun _ _ _ _ _ hr hsafe hs => hr.step hsafe hs) (Replica.new hsigned hnew)
    hguard hrun
  rw [List.nil_append] at hr
  exact ⟨hr.agrees, fun _ _ _ _ hperm h => new_perm hr.listed hr.signed hperm h⟩

theorem run_store_sample :
    (sampleRun (sampleNew [samplePayment])
        [⟨0, .updateTransactions [1] 150 9⟩]).2.foldl applyEvent
          (storeOf [samplePayment]) =
      storeOf (sampleRun (sampleNew [samplePayment])
        [⟨0, .updateTransactions [1] 150 9⟩]).1.transactions := by
  refine (@run_store 0 20
    (sampleRun (sampleNew [samplePayment]) [⟨0, .updateTransactions [1] 150 9⟩]).1
    [samplePayment] (sampleNew [samplePayment]) sampleKey
    [⟨0, .updateTransactions [1] 150 9⟩] _ (by decide) rfl
    ⟨?_, fun _ _ _ => trivial⟩ rfl).1
  change ∀ tx ∈ (sampleNew [samplePayment]).transactions, _
  decide

/-- A payment with a timestamp. -/
def datedPayment : BRTransaction :=
  sampleTx 1 [⟨99, 0⟩] [1, 0] 50000 100 txinSequence 0 1600000000

theorem datedPayment_not_replicated :
    BRWallet.new 20 0 [datedPayment] sampleKey = .ok (some (sampleNew [datedPayment])) ∧
      ∃ w log, runCalls 20 (sampleNew [datedPayment])
          [⟨0, .setTxUnconfirmedAfter 50⟩] = .ok (w, log) ∧
        log.foldl applyEvent (storeOf [datedPayment]) 1 = some (txUnconfirmed, 0) ∧
        storeOf w.transactions 1 = some (txUnconfirmed, 1600000000) := by
  refine ⟨rfl, _, _, runCalls_sample (by decide +kernel), ?_, ?_⟩
  · decide
  · decide

end Replica

end BreadwalletCore
