import BreadwalletCore.Data.CoinBook
import BreadwalletCore.Wallet.UpdateBalance

/-!
# The balance pass keeps a book of coins

`_BRWalletUpdateBalance` is a `CoinBook` whose items are the transactions of
the list, whose coins are the outputs to addresses of `allAddrs`, and whose
verdicts are the invalid and pending checks of the loop.  `passTxs_eq_view`
says that the loop, run on any list of transactions that resolve in `allTx`,
returns the view of that book: `utxos` are its outpoints, the running balance
is its amount, `balanceHist` its history.

Everything later about the ledger is read off the book.
-/

namespace BreadwalletCore

open CoinBook

/-- The coins created by the outputs from index `j` on. -/
def creditsFrom (allAddrs : Finset Address) (txHash : UInt256) :
    Nat → List BRTxOutput → List (BRUTXO × UInt64)
  | _, [] => []
  | j, o :: os =>
      if o.address ≠ [] ∧ o.address ∈ allAddrs then
        (⟨txHash, UInt32.ofNat j⟩, o.amount) ::
          creditsFrom allAddrs txHash (j + 1) os
      else creditsFrom allAddrs txHash (j + 1) os

/-- The coins of a transaction: its outputs to the wallet's addresses. -/
def credits (allAddrs : Finset Address) (tx : BRTransaction) :
    List (BRUTXO × UInt64) :=
  creditsFrom allAddrs tx.txHash 0 tx.outputs

/-- The verdict of the loop on a transaction. -/
def judgeTx (now : Int) (blockHeight : UInt32) (spentOutputs : Finset BRUTXO)
    (invalidTx pendingTx : Finset UInt256) (tx : BRTransaction) : Verdict :=
  if tx.isUnconfirmed && isInvalid spentOutputs invalidTx tx then .invalid
  else if tx.isUnconfirmed && isPending now blockHeight pendingTx tx then .pending
  else .counted

/-- The rules of the wallet's book. -/
def walletRules (now : Int) (blockHeight : UInt32) (allAddrs : Finset Address) :
    Rules BRTransaction UInt256 BRUTXO UInt64 where
  key tx := tx.txHash
  spends tx := tx.outpoints.toFinset
  credits := credits allAddrs
  judge := judgeTx now blockHeight

/-- The book of a list of transactions. -/
abbrev walletBook (now : Int) (blockHeight : UInt32) (allAddrs : Finset Address)
    (txs : List BRTransaction) : Book BRTransaction UInt256 BRUTXO UInt64 :=
  book (walletRules now blockHeight allAddrs) txs

/-- The verdict of the invalid and pending rules on a transaction that stands
behind those of `pre` in the list. -/
def verdictBehind (now : Int) (w : BRWallet) (pre : List BRTransaction)
    (tx : BRTransaction) : Verdict :=
  verdictAt (walletRules now w.blockHeight w.allAddrs) pre tx

/-- One entry of `tally`: the last amount, the gains and the losses so far. -/
def tallyStep (s : UInt64 × UInt64 × UInt64) (b : UInt64) :
    UInt64 × UInt64 × UInt64 :=
  (b,
    if s.1 < b then s.2.1 + (b - s.1) else s.2.1,
    if b < s.1 then s.2.2 + (s.1 - b) else s.2.2)

/-- The last amount of a history with its total gains and total losses. -/
def tally (hist : List UInt64) : UInt64 × UInt64 × UInt64 :=
  hist.foldl tallyStep (0, 0, 0)

/-- The loop state that shows a given book. -/
def viewBook (b : Book BRTransaction UInt256 BRUTXO UInt64) : Pass where
  balance := total b.coins
  totalSent := (tally b.hist).2.2
  totalReceived := (tally b.hist).2.1
  balanceHist := b.hist
  utxos := b.coins.map Prod.fst
  invalidTx := b.invalid
  pendingTx := b.pending
  spentOutputs := b.spent
  usedAddrs := paidAddrs (b.counted.flatMap (·.outputs))
  prevBalance := total b.coins

/-- The ledger of a list of transactions. -/
def ledgerOf (now : Int) (blockHeight : UInt32) (allAddrs : Finset Address)
    (txs : List BRTransaction) : Ledger :=
  (viewBook (walletBook now blockHeight allAddrs txs)).toLedger

/-! ## Coins of a transaction -/

theorem mem_creditsFrom
    {allAddrs : Finset Address} {txHash : UInt256}
    {os : List BRTxOutput} {j : Nat} {c : BRUTXO × UInt64} :
    c ∈ creditsFrom allAddrs txHash j os ↔
      ∃ i o, os[i]? = some o ∧ o.address ≠ [] ∧ o.address ∈ allAddrs ∧
        c = (⟨txHash, UInt32.ofNat (j + i)⟩, o.amount) := by
  induction os generalizing j with
  | nil =>
      simp [creditsFrom]
  | cons o os ih =>
      have hsplit : (∃ i o', (o :: os)[i]? = some o' ∧ o'.address ≠ [] ∧
            o'.address ∈ allAddrs ∧
            c = (⟨txHash, UInt32.ofNat (j + i)⟩, o'.amount)) ↔
          ((o.address ≠ [] ∧ o.address ∈ allAddrs) ∧
            c = (⟨txHash, UInt32.ofNat j⟩, o.amount)) ∨
          ∃ i o', os[i]? = some o' ∧ o'.address ≠ [] ∧ o'.address ∈ allAddrs ∧
            c = (⟨txHash, UInt32.ofNat (j + 1 + i)⟩, o'.amount) := by
        constructor
        · rintro ⟨i, o', hi, hne, hmem, hc⟩
          cases i with
          | zero =>
              simp only [List.getElem?_cons_zero, Option.some.injEq] at hi
              subst hi
              exact Or.inl ⟨⟨hne, hmem⟩, by simpa using hc⟩
          | succ i =>
              refine Or.inr ⟨i, o', by simpa using hi, hne, hmem, ?_⟩
              rw [hc, Nat.add_assoc, Nat.add_comm 1 i]
        · rintro (⟨⟨hne, hmem⟩, hc⟩ | ⟨i, o', hi, hne, hmem, hc⟩)
          · exact ⟨0, o, by simp, hne, hmem, by simpa using hc⟩
          · refine ⟨i + 1, o', by simpa using hi, hne, hmem, ?_⟩
            rw [hc, Nat.add_assoc, Nat.add_comm 1 i]
      rw [hsplit, ← ih, creditsFrom]
      split
      · rename_i h
        simp [h]
      · rename_i h
        simp [h]

/-- The coins of a transaction, output by output. -/
theorem mem_credits
    {allAddrs : Finset Address} {tx : BRTransaction} {c : BRUTXO × UInt64} :
    c ∈ credits allAddrs tx ↔
      ∃ j o, tx.outputs[j]? = some o ∧ o.address ≠ [] ∧ o.address ∈ allAddrs ∧
        c = (⟨tx.txHash, UInt32.ofNat j⟩, o.amount) := by
  rw [credits, mem_creditsFrom]
  simp

/-- An output index survives the cast to `uint32_t`. -/
theorem toNat_ofNat_of_getElem?
    {tx : BRTransaction} {j : Nat} {o : BRTxOutput}
    (h : tx.outputs[j]? = some o) :
    (UInt32.ofNat j).toNat = j := by
  obtain ⟨hj, -⟩ := List.getElem?_eq_some_iff.mp h
  have := tx.outCount_lt
  rw [UInt32.toNat_ofNat', Nat.mod_eq_of_lt (by omega)]

/-- A coin whose outpoint resolves in `allTx` to an output of its amount. -/
def Resolves (allTx : List BRTransaction) (c : BRUTXO × UInt64) : Prop :=
  ∃ t o, getTx allTx c.1.hash = some t ∧
    t.outputs[c.1.n.toNat]? = some o ∧ o.amount = c.2

theorem resolves_credits
    {allTx : List BRTransaction} {allAddrs : Finset Address}
    {tx : BRTransaction} {c : BRUTXO × UInt64}
    (hknown : getTx allTx tx.txHash = some tx)
    (hc : c ∈ credits allAddrs tx) :
    Resolves allTx c := by
  obtain ⟨j, o, hj, -, -, rfl⟩ := mem_credits.mp hc
  refine ⟨tx, o, hknown, ?_, rfl⟩
  simpa [toNat_ofNat_of_getElem? hj] using hj

/-! ## The parts of the loop body -/

theorem addOutputs_wrapping
    (allAddrs : Finset Address) (txHash : UInt256)
    (os : List BRTxOutput) (j : Nat) (s : Pass) :
    addOutputs .wrapping allAddrs txHash j os s =
      some
        { s with
          usedAddrs := s.usedAddrs ∪ paidAddrs os
          utxos := s.utxos ++ (creditsFrom allAddrs txHash j os).map Prod.fst
          balance := s.balance + total (creditsFrom allAddrs txHash j os) } := by
  induction os generalizing j s with
  | nil =>
      simp [addOutputs, creditsFrom, paidAddrs, total]
  | cons o os ih =>
      by_cases hne : o.address = []
      · simp [addOutputs, addOutput, creditsFrom, paidAddrs, hne, ih]
      · by_cases hmem : o.address ∈ allAddrs
        · simp [addOutputs, addOutput, creditsFrom, paidAddrs, hne, hmem, ih,
            total, add_assoc]
        · simp [addOutputs, addOutput, creditsFrom, paidAddrs, hne, hmem, ih]

/-- Pruning keeps the coins that are not spent and their amount. -/
theorem pruneSpent_wrapping
    {allTx : List BRTransaction} (spent : Finset BRUTXO)
    {cs : List (BRUTXO × UInt64)}
    (hres : ∀ c ∈ cs, Resolves allTx c)
    (x : UInt64) :
    pruneSpent .wrapping allTx spent (cs.map Prod.fst) (x + total cs) =
      some ((cs.filter (fun c => c.1 ∉ spent)).map Prod.fst,
        x + total (cs.filter (fun c => c.1 ∉ spent))) := by
  induction cs generalizing x with
  | nil =>
      simp [pruneSpent, total]
  | cons c cs ih =>
      have hsum : x + total (c :: cs) = (x + c.2) + total cs := by
        simp [total, add_assoc]
      obtain ⟨t, o, ht, ho, hamount⟩ := hres c (by simp)
      rw [List.map_cons, pruneSpent, hsum,
        ih (fun d hd => hres d (List.mem_cons_of_mem _ hd)) (x + c.2)]
      by_cases hc : c.1 ∈ spent
      · simp only [Option.bind_eq_bind, Option.bind_some, hc, if_true, ht, ho,
          Arith.wrapping_sub, hamount]
        simp [hc]
        abel
      · simp [hc, total, add_assoc]

theorem accrue_wrapping
    (low high sum : UInt64) :
    accrue .wrapping low high sum =
      some (if low < high then sum + (high - low) else sum) := by
  rw [accrue]
  split <;> rfl

theorem tally_concat
    (hist : List UInt64) (b : UInt64) :
    tally (hist ++ [b]) = tallyStep (tally hist) b := by
  simp [tally]

/-- An amount equal to the last one is neither a gain nor a loss. -/
theorem tally_concat_same
    {hist : List UInt64} {b : UInt64}
    (h : (tally hist).1 = b) :
    tally (hist ++ [b]) = tally hist := by
  rw [tally_concat, tallyStep, h]
  simp [← h]

/-- The last amount of a book's history is the amount of its coins. -/
theorem tally_hist
    (R : Rules BRTransaction UInt256 BRUTXO UInt64) (txs : List BRTransaction) :
    (tally (book R txs).hist).1 = total (book R txs).coins := by
  induction txs using List.reverseRecOn with
  | nil =>
      rfl
  | append_singleton txs tx ih =>
      rw [book_concat, Book.enter]
      cases hv : R.verdict (book R txs) tx <;> simp [tally_concat, tallyStep]

/-- The addresses paid by a list with one more transaction. -/
theorem paidAddrs_flatMap_concat
    (txs : List BRTransaction) (tx : BRTransaction) :
    paidAddrs ((txs ++ [tx]).flatMap (·.outputs)) =
      paidAddrs (txs.flatMap (·.outputs)) ∪ paidAddrs tx.outputs := by
  simp [paidAddrs]

/-! ## The loop -/

section Loop

variable {now : Int} {w : BRWallet}

/-- The loop body, verdict by verdict. -/
theorem passTx_eq
    (ar : Arith) (now : Int) (w : BRWallet) (s : Pass) (tx : BRTransaction) :
    passTx ar now w s tx =
      match judgeTx now w.blockHeight s.spentOutputs s.invalidTx s.pendingTx tx with
      | .invalid =>
          some
            { s with
              invalidTx := insert tx.txHash s.invalidTx
              balanceHist := s.balanceHist ++ [s.balance] }
      | .pending =>
          some
            { s with
              spentOutputs := s.spentOutputs ∪ tx.outpoints.toFinset
              pendingTx := insert tx.txHash s.pendingTx
              balanceHist := s.balanceHist ++ [s.balance] }
      | .counted =>
          countTx ar w tx
            { s with spentOutputs := s.spentOutputs ∪ tx.outpoints.toFinset } := by
  rw [passTx, judgeTx]
  split
  · rfl
  · dsimp only
    split <;> rfl

/-- A counted transaction: the loop body enters it in the book. -/
theorem countTx_view
    {b : Book BRTransaction UInt256 BRUTXO UInt64} {tx : BRTransaction}
    (hlast : (tally b.hist).1 = total b.coins)
    (hres : ∀ c ∈ b.coins ++ credits w.allAddrs tx, Resolves w.allTx c) :
    countTx .wrapping w tx
        { viewBook b with spentOutputs := b.spent ∪ tx.outpoints.toFinset } =
      some (viewBook
        { b with
          counted := b.counted ++ [tx]
          spent := b.spent ∪ tx.outpoints.toFinset
          settled := b.spent ∪ tx.outpoints.toFinset
          coins := (b.coins ++ credits w.allAddrs tx).filter
            (fun c => c.1 ∉ b.spent ∪ tx.outpoints.toFinset)
          hist := b.hist ++
            [total ((b.coins ++ credits w.allAddrs tx).filter
              (fun c => c.1 ∉ b.spent ∪ tx.outpoints.toFinset))] }) := by
  have hprune := pruneSpent_wrapping (b.spent ∪ tx.outpoints.toFinset) hres 0
  have hsum : total b.coins + total (credits w.allAddrs tx) =
      0 + total (b.coins ++ credits w.allAddrs tx) := by
    simp [total]
  rw [countTx, addOutputs_wrapping]
  simp only [Option.bind_eq_bind, Option.bind_some, viewBook]
  rw [← credits, ← List.map_append, hsum, hprune]
  simp only [Option.bind_some, zero_add, accrue_wrapping]
  rw [tally_concat, tallyStep, hlast, paidAddrs_flatMap_concat]

/-- One iteration enters one transaction. -/
theorem passTx_view
    {txs : List BRTransaction} {tx : BRTransaction}
    (hknown : ∀ t ∈ txs ++ [tx], getTx w.allTx t.txHash = some t) :
    passTx .wrapping now w
        (viewBook (walletBook now w.blockHeight w.allAddrs txs)) tx =
      some (viewBook
        (walletBook now w.blockHeight w.allAddrs (txs ++ [tx]))) := by
  have hlast := tally_hist (walletRules now w.blockHeight w.allAddrs) txs
  have hres : ∀ c ∈ (walletBook now w.blockHeight w.allAddrs txs).coins ++
      credits w.allAddrs tx, Resolves w.allTx c := by
    intro c hc
    rcases List.mem_append.mp hc with hc | hc
    · obtain ⟨⟨t, ht, hct⟩, -⟩ := (mem_coins _).mp hc
      have hmem := (counted_sublist _ txs).subset ht
      exact resolves_credits (hknown t (by simp [hmem])) hct
    · exact resolves_credits (hknown tx (by simp)) hc
  have hjudge : judgeTx now w.blockHeight
        (viewBook (walletBook now w.blockHeight w.allAddrs txs)).spentOutputs
        (viewBook (walletBook now w.blockHeight w.allAddrs txs)).invalidTx
        (viewBook (walletBook now w.blockHeight w.allAddrs txs)).pendingTx tx =
      (walletRules now w.blockHeight w.allAddrs).verdict
        (walletBook now w.blockHeight w.allAddrs txs) tx := by
    rfl
  rw [passTx_eq, hjudge, walletBook, walletBook, book_concat, Book.enter]
  cases (walletRules now w.blockHeight w.allAddrs).verdict
      (book (walletRules now w.blockHeight w.allAddrs) txs) tx with
  | invalid =>
      simp only [viewBook, tally_concat_same hlast]
      rfl
  | pending =>
      simp only [viewBook, tally_concat_same hlast]
      rfl
  | counted =>
      exact countTx_view hlast hres

/-- **The pass computes the book** of every list that resolves in `allTx`. -/
theorem passTxs_eq_view
    {txs : List BRTransaction}
    (hknown : ∀ t ∈ txs, getTx w.allTx t.txHash = some t) :
    passTxs .wrapping now w txs =
      some (viewBook (walletBook now w.blockHeight w.allAddrs txs)) := by
  induction txs using List.reverseRecOn with
  | nil =>
      rfl
  | append_singleton txs tx ih =>
      have hinit := ih (fun t ht => hknown t (by simp [ht]))
      rw [passTxs, List.foldlM_append, ← passTxs, hinit]
      simpa using passTx_view hknown

/-- What `_BRWalletUpdateBalance` writes, once the list resolves in `allTx`. -/
theorem updateBalance_eq
    (hknown : ∀ t ∈ w.transactions, getTx w.allTx t.txHash = some t) :
    w.updateBalance now =
      .ok { w with
        toLedger := ledgerOf now w.blockHeight w.allAddrs w.transactions } := by
  rw [BRWallet.updateBalance, BRWallet.updateBalanceWith, passTxs_eq_view hknown]
  rfl

end Loop

end BreadwalletCore
