import BreadwalletCore.Wallet.LedgerRefinement

/-!
# Accounting of the balance pass

The ledger that `_BRWalletUpdateBalance` leaves behind: `utxos` has no
duplicates and names wallet outputs of listed transactions, the balance is
their amount, the totals differ by the balance, and no 64 bit operation of the
loop wraps as long as all wallet outputs together are below `2 ^ 64`.

For a history without unconfirmed transactions the result does not depend on
the order of the list.
-/

namespace BreadwalletCore

open CoinBook

/-- The transactions of the list are distinct objects of `allTx`. -/
structure Listed (w : BRWallet) : Prop where
  nodup : (w.transactions.map (·.txHash)).Nodup
  known : ∀ tx ∈ w.transactions, getTx w.allTx tx.txHash = some tx

/-- The amount of the output an outpoint names, `0` if there is none. -/
def utxoAmount (allTx : List BRTransaction) (o : BRUTXO) : UInt64 :=
  match getTx allTx o.hash with
  | none => 0
  | some t =>
      match t.outputs[o.n.toNat]? with
      | none => 0
      | some output => output.amount

/-- The amount of a list of coins, without wrapping. -/
def natTotal (cs : List (BRUTXO × UInt64)) : Nat :=
  (cs.map (fun c => c.2.toNat)).sum

/-- The amount of all outputs of the list to the wallet's addresses. -/
def walletOutputTotal (w : BRWallet) : Nat :=
  natTotal (w.transactions.flatMap (credits w.allAddrs))

theorem utxoAmount_of_resolves
    {allTx : List BRTransaction} {c : BRUTXO × UInt64}
    (h : Resolves allTx c) :
    utxoAmount allTx c.1 = c.2 := by
  obtain ⟨t, o, ht, ho, hamount⟩ := h
  simp [utxoAmount, ht, ho, hamount]

theorem sum_utxoAmount
    {allTx : List BRTransaction} {cs : List (BRUTXO × UInt64)}
    (h : ∀ c ∈ cs, Resolves allTx c) :
    ((cs.map Prod.fst).map (utxoAmount allTx)).sum = total cs := by
  rw [List.map_map, total]
  congr 1
  apply List.map_congr_left
  intro c hc
  exact utxoAmount_of_resolves (h c hc)

/-! ## Distinct outpoints -/

theorem creditsFrom_fst
    {allAddrs : Finset Address} {txHash : UInt256}
    {os : List BRTxOutput} {j : Nat} {o : BRUTXO}
    (h : o ∈ (creditsFrom allAddrs txHash j os).map Prod.fst) :
    ∃ i, i < os.length ∧ o = ⟨txHash, UInt32.ofNat (j + i)⟩ := by
  obtain ⟨c, hc, rfl⟩ := List.mem_map.mp h
  obtain ⟨i, out, hi, -, -, rfl⟩ := mem_creditsFrom.mp hc
  obtain ⟨hlt, -⟩ := List.getElem?_eq_some_iff.mp hi
  exact ⟨i, hlt, rfl⟩

theorem creditsFrom_nodup
    (allAddrs : Finset Address) (txHash : UInt256)
    (os : List BRTxOutput) (j : Nat)
    (hlt : j + os.length < 2 ^ 32) :
    ((creditsFrom allAddrs txHash j os).map Prod.fst).Nodup := by
  induction os generalizing j with
  | nil =>
      simp [creditsFrom]
  | cons o os ih =>
      have hlen : (o :: os).length = os.length + 1 := rfl
      have htail := ih (j + 1) (by omega)
      rw [creditsFrom]
      split
      · rw [List.map_cons, List.nodup_cons]
        refine ⟨?_, htail⟩
        intro hmem
        obtain ⟨i, hi, heq⟩ := creditsFrom_fst hmem
        have hn : UInt32.ofNat j = UInt32.ofNat (j + 1 + i) := congrArg BRUTXO.n heq
        have hnat := congrArg UInt32.toNat hn
        rw [UInt32.toNat_ofNat', UInt32.toNat_ofNat', Nat.mod_eq_of_lt (by omega),
          Nat.mod_eq_of_lt (by omega)] at hnat
        omega
      · exact htail

theorem credits_hash
    {allAddrs : Finset Address} {tx : BRTransaction} {o : BRUTXO}
    (h : o ∈ (credits allAddrs tx).map Prod.fst) :
    o.hash = tx.txHash := by
  obtain ⟨i, -, rfl⟩ := creditsFrom_fst h
  rfl

/-- Distinct transactions create distinct outpoints. -/
theorem flatMap_credits_nodup
    {allAddrs : Finset Address} {txs : List BRTransaction}
    (hnodup : (txs.map (·.txHash)).Nodup) :
    ((txs.flatMap (credits allAddrs)).map Prod.fst).Nodup := by
  rw [List.map_flatMap, List.nodup_flatMap]
  constructor
  · intro tx _
    exact creditsFrom_nodup allAddrs tx.txHash tx.outputs 0
      (by simpa using tx.outCount_lt)
  · have hpair : txs.Pairwise (fun a b => a.txHash ≠ b.txHash) :=
      List.pairwise_map.mp hnodup
    refine hpair.imp ?_
    intro a b hab o ha hb
    exact hab ((credits_hash ha).symm.trans (credits_hash hb))

/-! ## Totals -/

/-- Gains less losses of a history are its last amount. -/
theorem tally_balance
    (hist : List UInt64) :
    (tally hist).2.1 - (tally hist).2.2 = (tally hist).1 := by
  induction hist using List.reverseRecOn with
  | nil =>
      rfl
  | append_singleton hist b ih =>
      rw [tally_concat, tallyStep]
      generalize tally hist = s at ih
      by_cases hgain : s.1 < b
      · have hloss : ¬ b < s.1 := UInt64.lt_asymm hgain
        simp only [hgain, hloss, if_true, if_false]
        rw [← ih]
        abel
      · by_cases hloss : b < s.1
        · simp only [hgain, hloss, if_true, if_false]
          rw [← ih]
          abel
        · have heq : s.1 = b :=
            UInt64.le_antisymm (UInt64.not_lt.mp hloss) (UInt64.not_lt.mp hgain)
          simp only [hgain, hloss, if_false]
          rw [← heq, ih]

/-! ## No step wraps -/

theorem natTotal_append
    (cs ds : List (BRUTXO × UInt64)) :
    natTotal (cs ++ ds) = natTotal cs + natTotal ds := by
  simp [natTotal]

theorem natTotal_le_of_sublist
    {cs ds : List (BRUTXO × UInt64)}
    (h : List.Sublist cs ds) :
    natTotal cs ≤ natTotal ds :=
  (h.map _).sum_le_sum (by simp)

theorem total_toNat
    {cs : List (BRUTXO × UInt64)}
    (h : natTotal cs < 2 ^ 64) :
    (total cs).toNat = natTotal cs := by
  induction cs with
  | nil =>
      rfl
  | cons c cs ih =>
      have hcons : natTotal (c :: cs) = c.2.toNat + natTotal cs := rfl
      have htotal : total (c :: cs) = c.2 + total cs := rfl
      rw [hcons] at h ⊢
      rw [htotal, UInt64.toNat_add, ih (by omega), Nat.mod_eq_of_lt h]

theorem checked_add
    {a b : UInt64}
    (h : a.toNat + b.toNat < 2 ^ 64) :
    Arith.checked.add a b = some (a + b) :=
  if_pos h

theorem checked_sub
    {a b : UInt64}
    (h : b ≤ a) :
    Arith.checked.sub a b = some (a - b) :=
  if_pos h

theorem addOutputs_checked
    (allAddrs : Finset Address) (txHash : UInt256)
    (os : List BRTxOutput) (j : Nat) (s : Pass)
    (h : s.balance.toNat + natTotal (creditsFrom allAddrs txHash j os) < 2 ^ 64) :
    addOutputs .checked allAddrs txHash j os s =
      addOutputs .wrapping allAddrs txHash j os s := by
  induction os generalizing j s with
  | nil =>
      rfl
  | cons o os ih =>
      rw [addOutputs, addOutputs]
      by_cases hne : o.address = []
      · have hcr : creditsFrom allAddrs txHash j (o :: os) =
            creditsFrom allAddrs txHash (j + 1) os := by
          simp [creditsFrom, hne]
        rw [hcr] at h
        simpa [addOutput, hne] using ih (j + 1) s h
      · by_cases hmem : o.address ∈ allAddrs
        · have hcr : natTotal (creditsFrom allAddrs txHash j (o :: os)) =
              o.amount.toNat + natTotal (creditsFrom allAddrs txHash (j + 1) os) := by
            simp [creditsFrom, hne, hmem, natTotal]
          rw [hcr] at h
          have hadd : (s.balance + o.amount).toNat = s.balance.toNat + o.amount.toNat := by
            rw [UInt64.toNat_add, Nat.mod_eq_of_lt (by omega)]
          have hc := checked_add (a := s.balance) (b := o.amount) (by omega)
          simp only [addOutput, hne, hmem, if_true, if_false, hc, Arith.wrapping_add,
            Option.bind_eq_bind, Option.bind_some]
          exact ih (j + 1) _ (by simp only [hadd]; omega)
        · have hcr : creditsFrom allAddrs txHash j (o :: os) =
              creditsFrom allAddrs txHash (j + 1) os := by
            simp [creditsFrom, hmem]
          rw [hcr] at h
          simp only [addOutput, hne, hmem, if_false, Option.bind_eq_bind,
            Option.bind_some]
          exact ih (j + 1) _ h

theorem pruneSpent_checked
    {allTx : List BRTransaction} (spent : Finset BRUTXO)
    {cs : List (BRUTXO × UInt64)}
    (hres : ∀ c ∈ cs, Resolves allTx c)
    (x : UInt64)
    (hfit : x.toNat + natTotal cs < 2 ^ 64) :
    pruneSpent .checked allTx spent (cs.map Prod.fst) (x + total cs) =
      some ((cs.filter (fun c => c.1 ∉ spent)).map Prod.fst,
        x + total (cs.filter (fun c => c.1 ∉ spent))) := by
  induction cs generalizing x with
  | nil =>
      simp [pruneSpent, total]
  | cons c cs ih =>
      have hcons : natTotal (c :: cs) = c.2.toNat + natTotal cs := rfl
      have hsum : x + total (c :: cs) = (x + c.2) + total cs := by
        simp [total, add_assoc]
      have hx : (x + c.2).toNat = x.toNat + c.2.toNat := by
        rw [UInt64.toNat_add, Nat.mod_eq_of_lt (by omega)]
      obtain ⟨t, o, ht, ho, hamount⟩ := hres c (by simp)
      rw [List.map_cons, pruneSpent, hsum,
        ih (fun d hd => hres d (List.mem_cons_of_mem _ hd)) (x + c.2) (by omega)]
      by_cases hc : c.1 ∈ spent
      · have hkept : natTotal (cs.filter (fun d => d.1 ∉ spent)) ≤ natTotal cs :=
          natTotal_le_of_sublist List.filter_sublist
        have hkept_toNat : (total (cs.filter (fun d => d.1 ∉ spent))).toNat =
            natTotal (cs.filter (fun d => d.1 ∉ spent)) :=
          total_toNat (by omega)
        -- the balance still holds the coin that is struck off
        have hle : c.2 ≤ x + c.2 + total (cs.filter (fun d => d.1 ∉ spent)) := by
          rw [UInt64.le_iff_toNat_le, UInt64.toNat_add, hx, hkept_toNat,
            Nat.mod_eq_of_lt (by omega)]
          omega
        simp only [Option.bind_eq_bind, Option.bind_some, hc, if_true, ht, ho,
          hamount, checked_sub hle]
        simp [hc]
        abel
      · simp [hc, total, add_assoc]

theorem accrue_checked
    {low high sum : UInt64}
    (h : sum.toNat + (high.toNat - low.toNat) < 2 ^ 64) :
    accrue .checked low high sum = accrue .wrapping low high sum := by
  rw [accrue, accrue]
  split
  · rename_i hlt
    have hle : low ≤ high := UInt64.le_of_lt hlt
    have hd : (high - low).toNat = high.toNat - low.toNat :=
      UInt64.toNat_sub_of_le _ _ hle
    rw [checked_sub hle]
    exact checked_add (by omega)
  · rfl

/-- What the running totals of a book stay within: gains within the created
coins, and losses plus balance equal to the gains. -/
structure TallyExact (b : Book BRTransaction UInt256 BRUTXO UInt64)
    (allAddrs : Finset Address) : Prop where
  gains_le : (tally b.hist).2.1.toNat ≤ natTotal (b.counted.flatMap (credits allAddrs))
  losses_add : (tally b.hist).2.2.toNat + (total b.coins).toNat =
    (tally b.hist).2.1.toNat

/-- One more amount changes the gains by its rise and keeps the relation. -/
theorem tallyStep_exact
    {s : UInt64 × UInt64 × UInt64} {b : UInt64}
    (hs : s.2.2.toNat + s.1.toNat = s.2.1.toNat)
    (hfit : s.2.1.toNat + (b.toNat - s.1.toNat) < 2 ^ 64) :
    (tallyStep s b).2.2.toNat + b.toNat = (tallyStep s b).2.1.toNat ∧
      (tallyStep s b).2.1.toNat = s.2.1.toNat + (b.toNat - s.1.toNat) := by
  rw [tallyStep]
  by_cases hgain : s.1 < b
  · have hloss : ¬ b < s.1 := UInt64.lt_asymm hgain
    have hlt := UInt64.lt_iff_toNat_lt.mp hgain
    have hd := UInt64.toNat_sub_of_le _ _ (UInt64.le_of_lt hgain)
    simp only [hgain, hloss, if_true, if_false]
    rw [UInt64.toNat_add, hd, Nat.mod_eq_of_lt hfit]
    omega
  · by_cases hloss : b < s.1
    · have hlt := UInt64.lt_iff_toNat_lt.mp hloss
      have hd := UInt64.toNat_sub_of_le _ _ (UInt64.le_of_lt hloss)
      simp only [hgain, hloss, if_true, if_false]
      rw [UInt64.toNat_add, hd, Nat.mod_eq_of_lt (by omega)]
      omega
    · have hle₁ := UInt64.le_iff_toNat_le.mp (UInt64.not_lt.mp hgain)
      have hle₂ := UInt64.le_iff_toNat_le.mp (UInt64.not_lt.mp hloss)
      simp only [hgain, hloss, if_false]
      omega

/-- Counting a transaction keeps the totals exact. -/
theorem TallyExact.count
    {b : Book BRTransaction UInt256 BRUTXO UInt64} {allAddrs : Finset Address}
    {tx : BRTransaction} {coins' : List (BRUTXO × UInt64)} {spent' : Finset BRUTXO}
    (hb : TallyExact b allAddrs)
    (hlast : (tally b.hist).1 = total b.coins)
    (hcoins : natTotal b.coins ≤ natTotal (b.counted.flatMap (credits allAddrs)))
    (hkept : natTotal coins' ≤ natTotal b.coins + natTotal (credits allAddrs tx))
    (hfit : natTotal (b.counted.flatMap (credits allAddrs)) +
      natTotal (credits allAddrs tx) < 2 ^ 64) :
    TallyExact
      { b with
        counted := b.counted ++ [tx]
        spent := spent'
        settled := spent'
        coins := coins'
        hist := b.hist ++ [total coins'] } allAddrs := by
  have hgains := hb.gains_le
  have hold : (total b.coins).toNat = natTotal b.coins := total_toNat (by omega)
  have hnew : (total coins').toNat = natTotal coins' := total_toNat (by omega)
  obtain ⟨hlosses, hrise⟩ := tallyStep_exact
    (s := tally b.hist) (b := total coins')
    (by rw [hlast]; exact hb.losses_add)
    (by rw [hlast, hold, hnew]; omega)
  rw [hlast, hold, hnew] at hrise
  constructor
  · simp only [tally_concat, List.flatMap_append, natTotal_append,
      List.flatMap_singleton]
    omega
  · simp only [tally_concat]
    exact hlosses

section NoWrap

variable {now : Int} {w : BRWallet}

/-- One counted transaction, without wrapping. -/
theorem countTx_checked
    {b : Book BRTransaction UInt256 BRUTXO UInt64} {tx : BRTransaction}
    (hexact : TallyExact b w.allAddrs)
    (hres : ∀ c ∈ b.coins ++ credits w.allAddrs tx, Resolves w.allTx c)
    (hsub : natTotal b.coins ≤ natTotal (b.counted.flatMap (credits w.allAddrs)))
    (hfit : natTotal (b.counted.flatMap (credits w.allAddrs)) +
      natTotal (credits w.allAddrs tx) < 2 ^ 64) :
    countTx .checked w tx
        { viewBook b with spentOutputs := b.spent ∪ tx.outpoints.toFinset } =
      countTx .wrapping w tx
        { viewBook b with spentOutputs := b.spent ∪ tx.outpoints.toFinset } := by
  have hcoins : (total b.coins).toNat = natTotal b.coins := total_toNat (by omega)
  have hadd := addOutputs_checked w.allAddrs tx.txHash tx.outputs 0
    { viewBook b with spentOutputs := b.spent ∪ tx.outpoints.toFinset }
    (by
      change (total b.coins).toNat + natTotal (credits w.allAddrs tx) < 2 ^ 64
      omega)
  have hboth : natTotal (b.coins ++ credits w.allAddrs tx) < 2 ^ 64 := by
    rw [natTotal_append]
    omega
  have hprune := pruneSpent_wrapping (b.spent ∪ tx.outpoints.toFinset) hres 0
  have hprune' := pruneSpent_checked (b.spent ∪ tx.outpoints.toFinset) hres 0
    (by simpa using hboth)
  have hsum : total b.coins + total (credits w.allAddrs tx) =
      0 + total (b.coins ++ credits w.allAddrs tx) := by
    rw [total_append, zero_add]
  have hkept : natTotal ((b.coins ++ credits w.allAddrs tx).filter
        (fun c => c.1 ∉ b.spent ∪ tx.outpoints.toFinset)) ≤
      natTotal (b.coins ++ credits w.allAddrs tx) :=
    natTotal_le_of_sublist List.filter_sublist
  rw [countTx, countTx, hadd, addOutputs_wrapping]
  simp only [Option.bind_eq_bind, Option.bind_some, viewBook]
  rw [← credits, ← List.map_append, hsum, hprune, hprune']
  simp only [Option.bind_some, zero_add]
  generalize hb' : total ((b.coins ++ credits w.allAddrs tx).filter
    (fun c => c.1 ∉ b.spent ∪ tx.outpoints.toFinset)) = balance'
  have hb'_toNat : balance'.toNat ≤ natTotal b.coins + natTotal (credits w.allAddrs tx) := by
    rw [← hb', total_toNat (by omega), ← natTotal_append]
    exact hkept
  have hgains := hexact.gains_le
  have hlosses := hexact.losses_add
  rw [accrue_checked (by omega), accrue_checked (by omega)]

theorem natTotal_coins_le
    (R : Rules BRTransaction UInt256 BRUTXO UInt64) (txs : List BRTransaction) :
    natTotal (book R txs).coins ≤ natTotal ((book R txs).counted.flatMap R.credits) := by
  apply natTotal_le_of_sublist
  rw [book_coins]
  exact List.filter_sublist

theorem natTotal_counted_le
    (R : Rules BRTransaction UInt256 BRUTXO UInt64) (txs : List BRTransaction) :
    natTotal ((book R txs).counted.flatMap R.credits) ≤
      natTotal (txs.flatMap R.credits) :=
  natTotal_le_of_sublist ((counted_sublist R txs).flatMap R.credits)

/-- The totals of a book stay exact while all its coins fit in 64 bits. -/
theorem tallyExact_book
    (blockHeight : UInt32) {allAddrs : Finset Address} {txs : List BRTransaction}
    (hfit : natTotal (txs.flatMap (credits allAddrs)) < 2 ^ 64) :
    TallyExact (walletBook now blockHeight allAddrs txs) allAddrs := by
  induction txs using List.reverseRecOn with
  | nil =>
      exact ⟨Nat.le_refl _, rfl⟩
  | append_singleton txs tx ih =>
      rw [List.flatMap_append, natTotal_append] at hfit
      have hsingle : [tx].flatMap (credits allAddrs) = credits allAddrs tx := by
        simp
      rw [hsingle] at hfit
      have hb := ih (by omega)
      have hlast := tally_hist (walletRules now blockHeight allAddrs) txs
      have hcoins := natTotal_coins_le (walletRules now blockHeight allAddrs) txs
      have hcounted := natTotal_counted_le (walletRules now blockHeight allAddrs) txs
      rw [walletBook, book_concat, Book.enter]
      cases (walletRules now blockHeight allAddrs).verdict
          (book (walletRules now blockHeight allAddrs) txs) tx with
      | invalid =>
          exact ⟨by simpa only [tally_concat_same hlast] using hb.gains_le,
            by simpa only [tally_concat_same hlast] using hb.losses_add⟩
      | pending =>
          exact ⟨by simpa only [tally_concat_same hlast] using hb.gains_le,
            by simpa only [tally_concat_same hlast] using hb.losses_add⟩
      | counted =>
          have hkept := natTotal_le_of_sublist (List.filter_sublist
            (p := fun c : BRUTXO × UInt64 => decide (c.1 ∉
              (book (walletRules now blockHeight allAddrs) txs).spent ∪
                tx.outpoints.toFinset))
            (l := (book (walletRules now blockHeight allAddrs) txs).coins ++
              credits allAddrs tx))
          rw [natTotal_append] at hkept
          exact hb.count hlast hcoins hkept
            (lt_of_le_of_lt (Nat.add_le_add_right hcounted _) hfit)

/-- The coins in the book of a resolving list resolve. -/
theorem resolves_coins
    {txs : List BRTransaction} {blockHeight : UInt32} {c : BRUTXO × UInt64}
    (hknown : ∀ t ∈ txs, getTx w.allTx t.txHash = some t)
    (hc : c ∈ (walletBook now blockHeight w.allAddrs txs).coins) :
    Resolves w.allTx c := by
  obtain ⟨⟨t, ht, hct⟩, -⟩ := (mem_coins _).mp hc
  exact resolves_credits (hknown t ((counted_sublist _ txs).subset ht)) hct

/-- While all coins fit in 64 bits the loop never wraps. -/
theorem passTxs_checked
    {txs : List BRTransaction}
    (hknown : ∀ t ∈ txs, getTx w.allTx t.txHash = some t)
    (hfit : natTotal (txs.flatMap (credits w.allAddrs)) < 2 ^ 64) :
    passTxs .checked now w txs = passTxs .wrapping now w txs := by
  induction txs using List.reverseRecOn with
  | nil =>
      rfl
  | append_singleton txs tx ih =>
      have hfit' := hfit
      rw [List.flatMap_append, natTotal_append, List.flatMap_singleton] at hfit'
      have hknown' : ∀ t ∈ txs, getTx w.allTx t.txHash = some t :=
        fun t ht => hknown t (by simp [ht])
      have hinit := ih hknown' (by omega)
      rw [passTxs, passTxs, List.foldlM_append, List.foldlM_append, ← passTxs, ← passTxs,
        hinit, passTxs_eq_view hknown']
      simp only [Option.bind_eq_bind, Option.bind_some, List.foldlM_cons, List.foldlM_nil]
      congr 1
      rw [passTx_eq, passTx_eq]
      split
      · rfl
      · rfl
      · have hcounted := natTotal_counted_le (walletRules now w.blockHeight w.allAddrs) txs
        refine countTx_checked (tallyExact_book w.blockHeight (by omega)) ?_
          (natTotal_coins_le (walletRules now w.blockHeight w.allAddrs) txs)
          (lt_of_le_of_lt (Nat.add_le_add_right hcounted _) hfit')
        intro c hc
        rcases List.mem_append.mp hc with hc | hc
        · exact resolves_coins hknown' hc
        · exact resolves_credits (hknown tx (by simp)) hc

end NoWrap

/-! ## Sample transactions -/

/-- Addresses that tell their chain and their index. -/
def sampleKey : BRMasterPubKey where
  addressAt internal i := some [if internal then 2 else 1, UInt8.ofNat i.toNat]

/-- A signed transaction with inputs of one sequence number and one output. -/
def sampleTx (txHash : UInt256) (spends : List BRUTXO) (address : Address)
    (amount : UInt64) (blockHeight : UInt32) (sequence : UInt32 := txinSequence)
    (lockTime : UInt32 := 0) (timestamp : UInt32 := 0) : BRTransaction where
  txHash := txHash
  inputs := spends.map (fun o =>
    { txHash := o.hash, index := o.n, signature := some [0x51], sequence := sequence })
  outputs := [{ address := address, amount := amount, script := [0x51] }]
  lockTime := lockTime
  blockHeight := blockHeight
  timestamp := timestamp
  outCount_lt := by simp

/-- A payment to the first receive address and the transaction that spends it. -/
def samplePayment : BRTransaction :=
  sampleTx 1 [⟨99, 0⟩] [1, 0] 50000 100

def sampleSpend : BRTransaction :=
  sampleTx 2 [⟨1, 0⟩] [2, 0] 40000 100

/-- A wallet that lists the spending transaction before its parent. -/
def sampleWallet : BRWallet where
  feePerKb := 50000
  masterPubKey := sampleKey
  allAddrs := {[1, 0], [2, 0]}
  transactions := [sampleSpend, samplePayment]
  allTx := [samplePayment, sampleSpend]

theorem sampleWallet_listed :
    Listed sampleWallet where
  nodup := by decide
  known := by decide

/-! ## The accounting theorems -/

section Results

variable {now : Int} {w : BRWallet}

/-- The effect of one iteration on `utxos` and the running balance: some
outputs of the transaction are added, then outputs that are in `utxos` are
taken out, each with its own amount. -/
def Transfers (w : BRWallet) (tx : BRTransaction) (s s' : Pass) : Prop :=
  ∃ added struck : List BRUTXO,
    List.Sublist added ((credits w.allAddrs tx).map Prod.fst) ∧
    List.Perm (s'.utxos ++ struck) (s.utxos ++ added) ∧
    s'.balance + (struck.map (utxoAmount w.allTx)).sum =
      s.balance + (added.map (utxoAmount w.allTx)).sum

theorem passTx_transfers
    {txs : List BRTransaction} {tx : BRTransaction}
    (hknown : ∀ t ∈ txs ++ [tx], getTx w.allTx t.txHash = some t) :
    Transfers w tx
      (viewBook (walletBook now w.blockHeight w.allAddrs txs))
      (viewBook (walletBook now w.blockHeight w.allAddrs (txs ++ [tx]))) := by
  obtain ⟨added, struck, hadded, hperm⟩ := enter_coins_perm
    (walletRules now w.blockHeight w.allAddrs)
    (walletBook now w.blockHeight w.allAddrs txs) tx
  rw [← book_concat] at hperm
  have hres_added : ∀ c ∈ added, Resolves w.allTx c := fun c hc =>
    resolves_credits (hknown tx (by simp)) (hadded.subset hc)
  have hres_struck : ∀ c ∈ struck, Resolves w.allTx c := by
    intro c hc
    have hmem := hperm.subset (List.mem_append_right _ hc)
    rcases List.mem_append.mp hmem with h | h
    · exact resolves_coins (fun t ht => hknown t (by simp [ht])) h
    · exact hres_added c h
  refine ⟨added.map Prod.fst, struck.map Prod.fst, hadded.map _, ?_, ?_⟩
  · simpa [viewBook] using hperm.map Prod.fst
  · rw [sum_utxoAmount hres_added, sum_utxoAmount hres_struck]
    have hsum := total_perm hperm
    rwa [total_append, total_append] at hsum

/--
**Accounting of `_BRWalletUpdateBalance`.**  For every list of distinct
transactions of `allTx` and every `allAddrs` the pass ends with duplicate-free
`utxos` that name outputs of listed transactions to `allAddrs`, a balance equal
to their amount modulo `2 ^ 64`, totals that differ by the balance, and one
history entry per transaction.  Every iteration takes out of the balance only
outputs that were added before, so nothing wraps while all wallet outputs
together stay below `2 ^ 64`.
-/
theorem updateBalance_accounting
    (hw : Listed w) :
    ∃ w', w.updateBalance now = .ok w' ∧
      w'.utxos.Nodup ∧
      (∀ o ∈ w'.utxos, ∃ tx ∈ w.transactions, ∃ out,
        tx.txHash = o.hash ∧ tx.outputs[o.n.toNat]? = some out ∧
          out.address ∈ w.allAddrs) ∧
      w'.balance = (w'.utxos.map (utxoAmount w.allTx)).sum ∧
      w'.totalReceived - w'.totalSent = w'.balance ∧
      w'.balanceHist.length = w.transactions.length ∧
      (∀ pre tx post, w.transactions = pre ++ tx :: post →
        ∃ s s', passTxs .wrapping now w pre = some s ∧
          passTx .wrapping now w s tx = some s' ∧ Transfers w tx s s') ∧
      (walletOutputTotal w < 2 ^ 64 →
        w.updateBalanceWith .checked now = some w') := by
  refine ⟨_, updateBalance_eq hw.known, ?_, ?_, ?_, ?_, ?_, ?_, ?_⟩
  · exact coins_nodup _ (flatMap_credits_nodup hw.nodup)
  · intro o ho
    obtain ⟨c, hc, rfl⟩ := List.mem_map.mp ho
    obtain ⟨⟨t, ht, hct⟩, -⟩ := (mem_coins _).mp hc
    obtain ⟨j, out, hj, -, hmem, rfl⟩ := mem_credits.mp hct
    refine ⟨t, (counted_sublist _ _).subset ht, out, rfl, ?_, hmem⟩
    simpa [toNat_ofNat_of_getElem? hj] using hj
  · exact (sum_utxoAmount (fun c hc => resolves_coins hw.known hc)).symm
  · change (tally _).2.1 - (tally _).2.2 = _
    rw [tally_balance, tally_hist]
    rfl
  · exact hist_length _ _
  · intro pre tx post hsplit
    have hknown : ∀ t ∈ pre ++ [tx], getTx w.allTx t.txHash = some t := by
      intro t ht
      apply hw.known
      rw [hsplit]
      rcases List.mem_append.mp ht with ht | ht
      · simp [ht]
      · simp [List.mem_singleton.mp ht]
    exact ⟨_, _, passTxs_eq_view (fun t ht => hknown t (by simp [ht])),
      passTx_view hknown, passTx_transfers hknown⟩
  · intro hfit
    rw [BRWallet.updateBalanceWith, passTxs_checked hw.known hfit,
      passTxs_eq_view hw.known]
    rfl

theorem updateBalance_accounting_sample :
    ∃ w', sampleWallet.updateBalance 0 = .ok w' ∧ w'.utxos.Nodup ∧
      sampleWallet.updateBalanceWith .checked 0 = some w' := by
  obtain ⟨w', hok, hnodup, -, -, -, -, -, hfit⟩ :=
    @updateBalance_accounting 0 sampleWallet sampleWallet_listed
  exact ⟨w', hok, hnodup, hfit (by decide)⟩

theorem judgeTx_confirmed
    {blockHeight : UInt32} {tx : BRTransaction}
    (h : tx.blockHeight ≠ txUnconfirmed)
    (s : Finset BRUTXO) (i p : Finset UInt256) :
    judgeTx now blockHeight s i p tx = .counted := by
  simp [judgeTx, RawTransaction.isUnconfirmed, h]

/--
**Confirmed history does not depend on the list order.**  Two orders of one
set of confirmed transactions give the same balance, the same `utxos` up to
order, the same spent outputs and the same used addresses, also where a child
comes before its parent.
-/
theorem updateBalance_confirmed_perm
    {txs₁ txs₂ : List BRTransaction}
    (hperm : txs₁.Perm txs₂)
    (hw : Listed { w with transactions := txs₁ })
    (hconf : ∀ tx ∈ txs₁, tx.blockHeight ≠ txUnconfirmed) :
    ∃ w₁ w₂,
      BRWallet.updateBalance now { w with transactions := txs₁ } = .ok w₁ ∧
      BRWallet.updateBalance now { w with transactions := txs₂ } = .ok w₂ ∧
      w₁.balance = w₂.balance ∧
      w₁.utxos.Perm w₂.utxos ∧
      w₁.spentOutputs = w₂.spentOutputs ∧
      w₁.usedAddrs = w₂.usedAddrs := by
  have hknown₂ : ∀ t ∈ txs₂, getTx w.allTx t.txHash = some t :=
    fun t ht => hw.known t (hperm.mem_iff.mpr ht)
  have hall : ∀ s i p, ∀ t ∈ txs₁,
      (walletRules now w.blockHeight w.allAddrs).judge s i p t = .counted :=
    fun s i p t ht => judgeTx_confirmed (hconf t ht) s i p
  have hall₂ : ∀ s i p, ∀ t ∈ txs₂,
      (walletRules now w.blockHeight w.allAddrs).judge s i p t = .counted :=
    fun s i p t ht => hall s i p t (hperm.mem_iff.mpr ht)
  have hcoins := coins_perm_of_all _ hperm hall
  refine ⟨_, _, updateBalance_eq hw.known, updateBalance_eq hknown₂,
    total_perm hcoins, hcoins.map _, spent_perm_of_all _ hperm hall, ?_⟩
  change paidAddrs _ = paidAddrs _
  rw [counted_of_all _ hall, counted_of_all _ hall₂]
  ext a
  simp [paidAddrs, hperm.mem_iff]

theorem updateBalance_confirmed_perm_sample :
    ∃ w₁ w₂,
      BRWallet.updateBalance 0 sampleWallet = .ok w₁ ∧
      BRWallet.updateBalance 0
        { sampleWallet with transactions := [samplePayment, sampleSpend] } = .ok w₂ ∧
      w₁.balance = w₂.balance := by
  obtain ⟨w₁, w₂, h₁, h₂, hbalance, -⟩ :=
    @updateBalance_confirmed_perm 0 sampleWallet
      [sampleSpend, samplePayment] [samplePayment, sampleSpend]
      (List.Perm.swap _ _ _) sampleWallet_listed (by decide)
  exact ⟨w₁, w₂, h₁, h₂, hbalance⟩

end Results

end BreadwalletCore
