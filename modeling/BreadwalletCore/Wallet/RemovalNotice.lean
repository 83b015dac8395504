import BreadwalletCore.Wallet.History
import BreadwalletCore.Wallet.Validity

/-!
# The notice of a removed transaction

`BRWalletRemoveTransaction` tells the user about a transaction that the wallet
sent, unless it was already known to be invalid.  It asks
`BRWalletTransactionIsValid`, but only when the transaction has left the list
and the ledger has been recomputed.  The transaction is still in `allTx`, and
no pass can mark it any more, so only the marks of its ancestors count.

* `marksOf` is the part of the pass that decides the invalid marks.
* `Removes` says which transactions a removal removes, each with the wallet
  that it finds and the flags that it tells.
* The notice is right exactly if `NoticeSafe` holds of that wallet.
-/

namespace BreadwalletCore

open Machine CoinBook

/-- One transaction of the pass, for the spent outputs and the invalid marks. -/
def markTx (s : Finset BRUTXO × Finset UInt256) (tx : BRTransaction) :
    Finset BRUTXO × Finset UInt256 :=
  if tx.isUnconfirmed && isInvalid s.1 s.2 tx then (s.1, insert tx.txHash s.2)
  else (s.1 ∪ tx.outpoints.toFinset, s.2)

/-- The spent outputs and the invalid marks of a list. -/
def marksOf (txs : List BRTransaction) : Finset BRUTXO × Finset UInt256 :=
  txs.foldl markTx (∅, ∅)

/-- The invalid marks that the list has without one of its transactions. -/
def BRWallet.marksWithout (w : BRWallet) (txHash : UInt256) : Finset UInt256 :=
  (marksOf (w.transactions.filter (fun t => t.txHash ≠ txHash))).2

/-- Some unconfirmed ancestor in `allTx` has a mark. -/
def MarkedAncestor (w : BRWallet) (marks : Finset UInt256) (tx : BRTransaction) : Prop :=
  ∃ i ∈ tx.inputs, ∃ t, getTx w.allTx i.txHash = some t ∧
    ∃ u, Lineage w t u ∧ u.txHash ∈ marks

/-- A removed transaction, with the wallet that its removal finds and the flags
that it tells. -/
structure Removal where
  wallet : BRWallet
  tx : BRTransaction
  notifyUser : Bool
  recommendRescan : Bool

/-- The transactions that a removal removes.  One without dependents is removed
by the call itself, the others by the calls for the dependents and the last one
for the transaction. -/
inductive Removes (now : Int) : Nat → BRWallet → UInt256 → Removal → Prop where
  | leaf {fuel : Nat} {w w' : BRWallet} {txHash : UInt256} {tx : BRTransaction}
      {notifyUser recommendRescan : Bool} :
      getTx w.allTx txHash = some tx → w.dependents tx = [] →
      BRWallet.removeTransaction now (fuel + 1) w txHash = .ok (w',
        [.balanceChanged w'.balance, .txDeleted txHash notifyUser recommendRescan]) →
      Removes now (fuel + 1) w txHash ⟨w, tx, notifyUser, recommendRescan⟩
  | call {fuel : Nat} {w w' : BRWallet} {txHash h : UInt256} {tx : BRTransaction}
      {pre post : List UInt256} {events : List Event} {r : Removal} :
      getTx w.allTx txHash = some tx → w.dependents tx ≠ [] →
      (w.dependents tx).reverse ++ [txHash] = pre ++ h :: post →
      Machine.run (BRWallet.removeTransaction now fuel) w pre = .ok (w', events) →
      Removes now fuel w' h r →
      Removes now (fuel + 1) w txHash r

/-- `BRWalletTransactionIsValid` returns true. -/
def AnswersValid (w : BRWallet) (tx : BRTransaction) : Prop :=
  ∃ fuel, w.transactionIsValid fuel tx = .ok true

/-- The user is told about a transaction that the wallet sent and that was valid
right before the removal, and a rescan is recommended only if, besides, every
input comes from a known confirmed transaction. -/
structure NoticeRight (r : Removal) : Prop where
  notify : r.notifyUser = true ↔
    r.wallet.amountSentByTx r.tx > 0 ∧ AnswersValid r.wallet r.tx
  rescan : r.recommendRescan = true →
    r.wallet.amountSentByTx r.tx > 0 ∧ AnswersValid r.wallet r.tx ∧
      ∀ i ∈ r.tx.inputs, ∃ t, getTx r.wallet.allTx i.txHash = some t ∧
        t.isUnconfirmed = false

/-- The wallets and transactions for which the answer behind the removal is the
one in front of it. -/
def NoticeSafe (w : BRWallet) (tx : BRTransaction) : Prop :=
  tx.isUnconfirmed = false ∨ ¬ w.amountSentByTx tx > 0 ∨
    (tx.txHash ∈ w.invalidTx ∧ MarkedAncestor w (w.marksWithout tx.txHash) tx) ∨
    (tx.txHash ∉ w.invalidTx ∧
      (MarkedAncestor w (w.marksWithout tx.txHash) tx ↔ MarkedAncestor w w.invalidTx tx))

/-! ## Marks -/

section Marks

variable {now : Int} {blockHeight : UInt32} {allAddrs : Finset Address}

theorem marksOf_concat
    (txs : List BRTransaction) (tx : BRTransaction) :
    marksOf (txs ++ [tx]) = markTx (marksOf txs) tx := by
  rw [marksOf, List.foldl_append]
  rfl

/-- Neither the clock nor the height nor the addresses play a part in the
invalid marks of the pass. -/
theorem marksOf_eq
    (txs : List BRTransaction) :
    marksOf txs = ((walletBook now blockHeight allAddrs txs).spent,
      (walletBook now blockHeight allAddrs txs).invalid) := by
  induction txs using List.reverseRecOn with
  | nil =>
      rfl
  | append_singleton txs tx ih =>
      have hconcat : walletBook now blockHeight allAddrs (txs ++ [tx]) =
          (walletBook now blockHeight allAddrs txs).enter
            (walletRules now blockHeight allAddrs) tx := book_concat _ _ _
      rw [marksOf_concat, ih, hconcat]
      generalize walletBook now blockHeight allAddrs txs = b
      rw [markTx, Book.enter]
      have hverdict : (walletRules now blockHeight allAddrs).verdict b tx =
          judgeTx now blockHeight b.spent b.invalid b.pending tx := rfl
      rw [hverdict, judgeTx]
      split_ifs <;> rfl

/-- The ledger that a pass leaves has the marks of the list. -/
theorem updateBalance_invalidTx
    {w w' : BRWallet}
    (hw : Listed w)
    (h : w.updateBalance now = .ok w') :
    w'.invalidTx = (marksOf w.transactions).2 := by
  rw [updateBalance_ledger hw h, @marksOf_eq now w.blockHeight w.allAddrs w.transactions]
  rfl

end Marks

/-! ## The validity query -/

section Queries

variable {w : BRWallet}

/-- What an answer of `BRWalletTransactionIsValid` says about the lineage. -/
theorem transactionIsValid_ok
    {fuel : Nat} {tx : BRTransaction} {b : Bool}
    (htx : getTx w.allTx tx.txHash = some tx)
    (h : w.transactionIsValid fuel tx = .ok b) :
    b = true ↔ ∀ u, Lineage w tx u → u.txHash ∉ w.invalidTx := by
  induction fuel generalizing tx b with
  | zero =>
      cases h
  | succ fuel ih =>
      rw [BRWallet.transactionIsValid] at h
      by_cases hunconf : tx.isUnconfirmed = true
      · have hown : w.ownInputsValid tx = decide (tx.txHash ∉ w.invalidTx) := by
          simp [BRWallet.ownInputsValid, BRWallet.knowsTx, htx]
        rw [if_pos hunconf, hown] at h
        by_cases hinv : tx.txHash ∈ w.invalidTx
        · rw [if_neg (by simpa using hinv)] at h
          cases h
          simpa using ⟨tx, .self hunconf, hinv⟩
        · rw [if_pos (by simpa using hinv)] at h
          rw [allM_ok_iff (P := fun i => ∀ t, getTx w.allTx i.txHash = some t →
            ∀ u, Lineage w t u → u.txHash ∉ w.invalidTx) ?_ h]
          · constructor
            · intro hparents u hu
              cases hu with
              | self _ =>
                  exact hinv
              | parent _ hi ht hu =>
                  exact hparents _ hi _ ht u hu
            · intro hall i hi t ht u hu
              exact hall u (.parent hunconf hi ht hu)
          · intro i hi c hc
            cases ht : getTx w.allTx i.txHash with
            | none =>
                rw [ht] at hc
                cases hc
                simp
            | some t =>
                rw [ht] at hc
                have hknown : getTx w.allTx t.txHash = some t := by
                  rw [getTx_hash ht]
                  exact ht
                simpa using ih hknown hc
      · rw [if_neg hunconf] at h
        cases h
        simpa using fun u hu => absurd (lineage_unconfirmed hu) hunconf

/-- In an acyclic graph the query returns, so it answers true exactly if nothing
in the lineage is marked. -/
theorem answersValid_iff
    {tx : BRTransaction}
    (hacyclic : Acyclic w)
    (htx : getTx w.allTx tx.txHash = some tx) :
    AnswersValid w tx ↔ ∀ u, Lineage w tx u → u.txHash ∉ w.invalidTx := by
  obtain ⟨rank, hrank⟩ := hacyclic
  obtain ⟨b, hb, hiff⟩ := transactionIsValid_spec hrank htx (Nat.lt_succ_self _)
  constructor
  · rintro ⟨fuel, h⟩
    exact (transactionIsValid_ok htx h).mp rfl
  · intro hclean
    exact ⟨_, by rw [hb, hiff.mpr hclean]⟩

/-- The lineage of an unconfirmed transaction: itself and its ancestors. -/
theorem lineage_clean_iff
    {tx : BRTransaction} {marks : Finset UInt256}
    (hunconf : tx.isUnconfirmed = true) :
    (∀ u, Lineage w tx u → u.txHash ∉ marks) ↔
      tx.txHash ∉ marks ∧ ¬ MarkedAncestor w marks tx := by
  constructor
  · intro h
    refine ⟨h tx (.self hunconf), ?_⟩
    rintro ⟨i, hi, t, ht, u, hu, hmem⟩
    exact h u (.parent hunconf hi ht hu) hmem
  · rintro ⟨hself, hnone⟩ u hu hmem
    cases hu with
    | self _ =>
        exact hself hmem
    | parent _ hi ht hu =>
        exact hnone ⟨_, hi, _, ht, u, hu, hmem⟩

/-- The lineages depend on `allTx` only. -/
theorem Lineage.congr
    {w' : BRWallet} {tx u : BRTransaction}
    (hall : w'.allTx = w.allTx)
    (h : Lineage w tx u) :
    Lineage w' tx u := by
  induction h with
  | self hunconf =>
      exact .self hunconf
  | parent hunconf hi ht _ ih =>
      rw [← hall] at ht
      exact .parent hunconf hi ht ih

theorem markedAncestor_congr
    {w' : BRWallet} {marks : Finset UInt256} {tx : BRTransaction}
    (hall : w'.allTx = w.allTx) :
    MarkedAncestor w' marks tx ↔ MarkedAncestor w marks tx := by
  constructor
  · rintro ⟨i, hi, t, ht, u, hu, hmem⟩
    rw [hall] at ht
    exact ⟨i, hi, t, ht, u, hu.congr hall.symm, hmem⟩
  · rintro ⟨i, hi, t, ht, u, hu, hmem⟩
    rw [← hall] at ht
    exact ⟨i, hi, t, ht, u, hu.congr hall, hmem⟩

theorem Acyclic.congr
    {w' : BRWallet}
    (hall : w'.allTx = w.allTx)
    (h : Acyclic w) :
    Acyclic w' := by
  obtain ⟨rank, hrank⟩ := h
  refine ⟨rank, ?_⟩
  rw [Descends, hall]
  exact hrank

theorem amountSentByTx_congr
    {w' : BRWallet}
    (hall : w'.allTx = w.allTx)
    (haddrs : w'.allAddrs = w.allAddrs)
    (tx : BRTransaction) :
    w'.amountSentByTx tx = w.amountSentByTx tx := by
  rw [BRWallet.amountSentByTx, BRWallet.amountSentByTx, hall, haddrs]

end Queries

/-! ## One removal -/

section Leaf

variable {now : Int} {fuel : Nat} {w w' : BRWallet} {txHash : UInt256} {tx : BRTransaction}

/-- What the flags say about the wallet that they are computed in. -/
theorem removalFlags_spec
    {notifyUser recommendRescan : Bool}
    (htx : getTx w.allTx tx.txHash = some tx)
    (h : w.removalFlags fuel tx = .ok (notifyUser, recommendRescan)) :
    (notifyUser = true ↔ w.amountSentByTx tx > 0 ∧
      ∀ u, Lineage w tx u → u.txHash ∉ w.invalidTx) ∧
    (recommendRescan = true → notifyUser = true ∧
      ∀ i ∈ tx.inputs, ∃ t, getTx w.allTx i.txHash = some t ∧ t.isUnconfirmed = false) := by
  rw [BRWallet.removalFlags] at h
  by_cases hsent : w.amountSentByTx tx > 0
  · rw [if_pos hsent, bind_eq_ok] at h
    obtain ⟨valid, hvalid, h⟩ := h
    have hiff := transactionIsValid_ok htx hvalid
    cases valid with
    | false =>
        cases h
        refine ⟨⟨fun hf => absurd hf Bool.false_ne_true, fun hall => ?_⟩,
          fun hf => absurd hf Bool.false_ne_true⟩
        exact hiff.mpr hall.2
    | true =>
        cases h
        refine ⟨⟨fun _ => ⟨hsent, hiff.mp rfl⟩, fun _ => rfl⟩, ?_⟩
        intro hrescan
        refine ⟨rfl, ?_⟩
        intro i hi
        have hone := List.all_eq_true.mp hrescan i hi
        cases ht : getTx w.allTx i.txHash with
        | none =>
            rw [ht] at hone
            cases hone
        | some t =>
            rw [ht] at hone
            exact ⟨t, rfl, by simpa using hone⟩
  · rw [if_neg hsent] at h
    cases h
    exact ⟨⟨fun hf => absurd hf Bool.false_ne_true, fun hall => absurd hall.1 hsent⟩,
      fun hf => absurd hf Bool.false_ne_true⟩

/-- What the removal of a transaction without dependents does. -/
theorem removeTransaction_leaf
    {events : List Event}
    (htx : getTx w.allTx txHash = some tx)
    (hleaf : w.dependents tx = [])
    (h : BRWallet.removeTransaction now (fuel + 1) w txHash = .ok (w', events)) :
    (w.rmTx txHash).updateBalance now = .ok w' ∧
      ∃ notifyUser recommendRescan,
        w'.removalFlags fuel tx = .ok (notifyUser, recommendRescan) ∧
        events = [.balanceChanged w'.balance,
          .txDeleted txHash notifyUser recommendRescan] := by
  rw [BRWallet.removeTransaction, htx] at h
  dsimp only at h
  rw [if_pos hleaf, bind_eq_ok] at h
  obtain ⟨w₁, h₁, h⟩ := h
  rw [bind_eq_ok] at h
  obtain ⟨⟨notifyUser, recommendRescan⟩, hflags, h⟩ := h
  cases h
  exact ⟨h₁, notifyUser, recommendRescan, hflags, rfl⟩

/-- The flags of a removal, in terms of the wallet in front of it: only marks of
ancestors count, and these are the marks of the other transactions. -/
theorem removal_flags
    {notifyUser recommendRescan : Bool}
    (hw : Listed w)
    (htx : getTx w.allTx txHash = some tx)
    (hleaf : w.dependents tx = [])
    (h : BRWallet.removeTransaction now (fuel + 1) w txHash = .ok (w',
      [.balanceChanged w'.balance, .txDeleted txHash notifyUser recommendRescan])) :
    (notifyUser = true ↔ w.amountSentByTx tx > 0 ∧
      (tx.isUnconfirmed = true → ¬ MarkedAncestor w (w.marksWithout tx.txHash) tx)) ∧
    (recommendRescan = true → notifyUser = true ∧
      ∀ i ∈ tx.inputs, ∃ t, getTx w.allTx i.txHash = some t ∧ t.isUnconfirmed = false) := by
  have hhash := getTx_hash htx
  obtain ⟨hbal, n, r, hflags, hevents⟩ := removeTransaction_leaf htx hleaf h
  cases hevents
  have hrm : Listed (w.rmTx txHash) := hw.rmTx txHash
  have hmarks : w'.invalidTx = w.marksWithout tx.txHash := by
    rw [updateBalance_invalidTx hrm hbal, hw.rmTx_transactions, BRWallet.marksWithout, hhash]
  obtain ⟨L, hL⟩ := updateBalance_frame hbal
  have hall : w'.allTx = w.allTx := by
    rw [hL]
    rfl
  have haddrs : w'.allAddrs = w.allAddrs := by
    rw [hL]
    rfl
  have htx' : getTx w'.allTx tx.txHash = some tx := by
    rw [hall, hhash]
    exact htx
  -- the transaction itself is not listed any more
  have hself : tx.txHash ∉ w'.invalidTx := by
    rw [hmarks, BRWallet.marksWithout, @marksOf_eq 0 0 ∅, mem_invalid]
    rintro ⟨pre, t, post, hl, -, hkey⟩
    have hmem : t ∈ w.transactions.filter (fun t => t.txHash ≠ tx.txHash) := by
      rw [hl]
      simp
    have hne : ¬ t.txHash = tx.txHash := by simpa using (List.mem_filter.mp hmem).2
    exact hne hkey
  obtain ⟨hnotify, hrescan⟩ := removalFlags_spec htx' hflags
  rw [amountSentByTx_congr hall haddrs] at hnotify
  rw [hall] at hrescan
  refine ⟨hnotify.trans (and_congr_right fun _ => ?_), hrescan⟩
  by_cases hunconf : tx.isUnconfirmed = true
  · rw [lineage_clean_iff hunconf, and_iff_right hself, markedAncestor_congr hall, hmarks]
    exact ⟨fun h _ => h, fun h => h hunconf⟩
  · exact ⟨fun _ h => absurd h hunconf,
      fun _ u hu => absurd (lineage_unconfirmed hu) hunconf⟩

/-- One removal tells the right flags exactly from a safe state. -/
theorem leaf_noticeRight_iff
    {notifyUser recommendRescan : Bool}
    (hw : Listed w)
    (hacyclic : Acyclic w)
    (htx : getTx w.allTx txHash = some tx)
    (hleaf : w.dependents tx = [])
    (h : BRWallet.removeTransaction now (fuel + 1) w txHash = .ok (w',
      [.balanceChanged w'.balance, .txDeleted txHash notifyUser recommendRescan])) :
    NoticeRight ⟨w, tx, notifyUser, recommendRescan⟩ ↔ NoticeSafe w tx := by
  obtain ⟨hnotify, hrescan⟩ := removal_flags hw htx hleaf h
  have htx' : getTx w.allTx tx.txHash = some tx := by
    rw [getTx_hash htx]
    exact htx
  have hanswer := answersValid_iff hacyclic htx'
  -- the rescan flag follows from the other one
  have hright : NoticeRight ⟨w, tx, notifyUser, recommendRescan⟩ ↔
      (notifyUser = true ↔ w.amountSentByTx tx > 0 ∧ AnswersValid w tx) := by
    constructor
    · intro hr
      exact hr.notify
    · intro hn
      refine ⟨hn, ?_⟩
      intro hr
      obtain ⟨hnot, hparents⟩ := hrescan hr
      obtain ⟨hsent, hvalid⟩ := hn.mp hnot
      exact ⟨hsent, hvalid, hparents⟩
  rw [hright, hnotify, hanswer, NoticeSafe]
  by_cases hunconf : tx.isUnconfirmed = true
  · rw [lineage_clean_iff hunconf]
    by_cases hsent : w.amountSentByTx tx > 0
    · by_cases hinv : tx.txHash ∈ w.invalidTx
      · simp [hunconf, hsent, hinv]
      · simp [hunconf, hsent, hinv, not_iff_not]
    · simp [hsent]
  · have hclean : ∀ u, Lineage w tx u → u.txHash ∉ w.invalidTx :=
      fun u hu => absurd (lineage_unconfirmed hu) hunconf
    simpa [hunconf] using fun _ => hclean

end Leaf

/-! ## All the removals of a call -/

section Calls

variable {now : Int} {fuel : Nat} {w : BRWallet} {txHash : UInt256} {r : Removal}

/-- Every removal is a call without dependents, on a wallet with the same known
transactions. -/
theorem Removes.found
    (h : Removes now fuel w txHash r)
    (hw : Listed w) :
    Listed r.wallet ∧ r.wallet.allTx = w.allTx ∧ r.wallet.dependents r.tx = [] ∧
      ∃ fuel' txHash' w', getTx r.wallet.allTx txHash' = some r.tx ∧
        BRWallet.removeTransaction now (fuel' + 1) r.wallet txHash' = .ok (w',
          [.balanceChanged w'.balance,
            .txDeleted txHash' r.notifyUser r.recommendRescan]) := by
  induction h with
  | leaf htx hleaf hcall =>
      exact ⟨hw, rfl, hleaf, _, _, _, htx, hcall⟩
  | @call fuel w v txHash h' tx pre post events r _ _ _ hrun _ ih =>
      have hstep : ∀ u k u' (o : List Event), Listed u ∧ u.allTx = w.allTx →
          BRWallet.removeTransaction now fuel u k = .ok (u', o) →
          Listed u' ∧ u'.allTx = w.allTx := by
        intro u k u' o hu hcall
        refine removeTransaction_state_invariant
          (I := fun u => Listed u ∧ u.allTx = w.allTx) ?_ hu hcall
        rintro u k u' ⟨hlisted, hall⟩ - hbal
        obtain ⟨L, hL⟩ := updateBalance_frame hbal
        refine ⟨(hlisted.rmTx k).updateBalance hbal, ?_⟩
        rw [hL]
        exact hall
      obtain ⟨hlisted, hall⟩ := run_preserves hstep ⟨hw, rfl⟩ hrun
      obtain ⟨hr, hrall, hleaf, hcall⟩ := ih hlisted
      exact ⟨hr, hrall.trans hall, hleaf, hcall⟩

/--
**The notice of a removal.**  Over every wallet and every transaction that a call
of `BRWalletRemoveTransaction` removes, the flags are right exactly if the
transaction is confirmed, or sends nothing, or is marked together with an
ancestor that stays marked without it, or is not marked and leaving it out of
the list does not change whether an ancestor is marked.
-/
theorem removes_noticeRight_iff
    (hw : Listed w)
    (hacyclic : Acyclic w)
    (h : Removes now fuel w txHash r) :
    NoticeRight r ↔ NoticeSafe r.wallet r.tx := by
  obtain ⟨hlisted, hall, hleaf, fuel', txHash', w', htx, hcall⟩ := h.found hw
  exact leaf_noticeRight_iff hlisted (hacyclic.congr hall) htx hleaf hcall

end Calls

/-! ## A double spend -/

/-- Two transactions that spend the same payment. -/
def firstSend : BRTransaction :=
  sampleTx 2 [⟨1, 0⟩] [9, 9] 40000 txUnconfirmed

def secondSend : BRTransaction :=
  sampleTx 3 [⟨1, 0⟩] [9, 8] 30000 txUnconfirmed

/-- The wallet behind a payment and the two sends. -/
def doubleSpendWallet : BRWallet :=
  (sampleRun (sampleNew [samplePayment])
    [⟨0, .registerTransaction firstSend⟩, ⟨0, .registerTransaction secondSend⟩]).1

theorem doubleSpendWallet_listed :
    Listed doubleSpendWallet where
  nodup := by decide
  known := by decide

theorem doubleSpendWallet_acyclic :
    Acyclic doubleSpendWallet := by
  refine ⟨BitVec.toNat, ?_⟩
  intro h tx hget i hi t ht
  have hhash := getTx_hash hget
  have hall : ∀ tx ∈ doubleSpendWallet.allTx, ∀ i ∈ tx.inputs,
      (getTx doubleSpendWallet.allTx i.txHash).isSome = true →
        i.txHash.toNat < tx.txHash.toNat := by
    decide
  rw [← hhash]
  exact hall tx (mem_of_getTx hget) i hi (by rw [ht]; rfl)

/-- The flags that the removal of a transaction of the wallet tells. -/
theorem removes_noticeRight_firstSend :
    Removes 0 20 doubleSpendWallet 2 ⟨doubleSpendWallet, firstSend, true, true⟩ ∧
      NoticeRight ⟨doubleSpendWallet, firstSend, true, true⟩ := by
  have hremoves : Removes 0 20 doubleSpendWallet 2
      ⟨doubleSpendWallet, firstSend, true, true⟩ := .leaf rfl rfl rfl
  refine ⟨hremoves, (removes_noticeRight_iff doubleSpendWallet_listed
    doubleSpendWallet_acyclic hremoves).mpr (Or.inr (Or.inr (Or.inr ⟨by decide, ?_⟩)))⟩
  -- the only parent is confirmed
  have hnone : ∀ marks, ¬ MarkedAncestor doubleSpendWallet marks firstSend := by
    rintro marks ⟨i, hi, t, ht, u, hu, -⟩
    obtain rfl := List.mem_singleton.mp hi
    cases ht
    exact absurd (lineage_unconfirmed hu) (by decide)
  exact iff_of_false (hnone _) (hnone _)

/-- The second send is marked, and the user is told about it all the same. -/
theorem secondSend_noticed :
    BRWallet.new 20 0 [samplePayment] sampleKey = .ok (some (sampleNew [samplePayment])) ∧
      (∃ log, runCalls 20 (sampleNew [samplePayment])
        [⟨0, .registerTransaction firstSend⟩, ⟨0, .registerTransaction secondSend⟩] =
          .ok (doubleSpendWallet, log)) ∧
      Acyclic doubleSpendWallet ∧ secondSend.txHash ∈ doubleSpendWallet.invalidTx ∧
      Removes 0 20 doubleSpendWallet 3 ⟨doubleSpendWallet, secondSend, true, true⟩ ∧
      ¬ NoticeRight ⟨doubleSpendWallet, secondSend, true, true⟩ := by
  refine ⟨rfl, ⟨_, rfl⟩, doubleSpendWallet_acyclic, by decide, .leaf rfl rfl rfl, ?_⟩
  intro h
  obtain ⟨-, fuel, hvalid⟩ := h.notify.mp rfl
  cases fuel with
  | zero =>
      cases hvalid
  | succ fuel =>
      cases hvalid

end BreadwalletCore
