import BreadwalletCore.Wallet.RemovalNotice

/-!
# Removing a transaction with its dependents

`BRWalletRemoveTransaction` takes a transaction and what depends on it out of
`wallet->transactions`, but leaves all of them in `allTx`.  So
`BRWalletTransactionForHash` still finds a removed transaction, and
`BRWalletRegisterTransaction` does not add it back.

* `DependsOn` and `Removed` say what a removal has to take out.
* `RemovalComplete` is what a removal is meant to do as a whole.  It does it only
  where there is nothing to take out of the list.
* The list itself comes out right: `removeTransaction_takesOut`, by induction on
  the number of dependent transactions.
-/

namespace BreadwalletCore

open Machine

/-- The listed transactions that depend on a transaction, directly or through
listed ones. -/
inductive DependsOn (w : BRWallet) (txHash : UInt256) : BRTransaction → Prop where
  | direct {t : BRTransaction} {i : BRTxInput} :
      t ∈ w.transactions → i ∈ t.inputs → i.txHash = txHash → DependsOn w txHash t
  | through {t u : BRTransaction} {i : BRTxInput} :
      t ∈ w.transactions → i ∈ t.inputs → i.txHash = u.txHash → DependsOn w txHash u →
      DependsOn w txHash t

/-- What a removal has to take out of the list. -/
def Removed (w : BRWallet) (txHash : UInt256) (t : BRTransaction) : Prop :=
  t ∈ w.transactions ∧ (t.txHash = txHash ∨ DependsOn w txHash t)

/-- The hash that an event deletes. -/
def deletedHash : Event → Option UInt256
  | .txDeleted txHash _ _ => some txHash
  | _ => none

/-- A removal that went as it is meant to go. -/
structure RemovalDone (w w' : BRWallet) (txHash : UInt256) (events : List Event) : Prop where
  /-- the list in its order, without exactly what has to be taken out -/
  sublist : w'.transactions.Sublist w.transactions
  kept : ∀ t ∈ w.transactions, t ∈ w'.transactions ↔ ¬ Removed w txHash t
  /-- one notice for each transaction taken out -/
  notices : ∀ t, Removed w txHash t → (events.filterMap deletedHash).count t.txHash = 1
  /-- what was taken out is forgotten -/
  forgotten : ∀ t, Removed w txHash t → getTx w'.allTx t.txHash = none
  /-- and can be registered again -/
  registers : ∀ t, Removed w txHash t → t.isSigned = true → w'.containsTx t = true →
    ∀ fuel now w'' log r, w'.registerTransaction fuel now t = .ok (w'', log, r) →
      w''.listsTx t.txHash = true

/-- The removal returns and goes as it is meant to go. -/
def RemovalComplete (now : Int) (w : BRWallet) (txHash : UInt256) : Prop :=
  ∃ fuel w' events, BRWallet.removeTransaction now fuel w txHash = .ok (w', events) ∧
    RemovalDone w w' txHash events

section Removal

variable {now : Int} {fuel : Nat} {w w' : BRWallet} {txHash : UInt256} {tx : BRTransaction}

theorem DependsOn.mem
    {t : BRTransaction}
    (h : DependsOn w txHash t) :
    t ∈ w.transactions := by
  cases h with
  | direct ht _ _ =>
      exact ht
  | through ht _ _ _ =>
      exact ht

/-- A transaction depends on another one through one that spends it. -/
theorem DependsOn.exists_direct
    {t : BRTransaction}
    (h : DependsOn w txHash t) :
    ∃ u ∈ w.transactions, ∃ i ∈ u.inputs, i.txHash = txHash := by
  induction h with
  | direct ht hi heq =>
      exact ⟨_, ht, _, hi, heq⟩
  | through _ _ _ _ ih =>
      exact ih

/-- A removal changes the list and the ledger only. -/
theorem removeTransaction_frame
    {events : List Event}
    (h : BRWallet.removeTransaction now fuel w txHash = .ok (w', events)) :
    w'.allTx = w.allTx ∧ w'.allAddrs = w.allAddrs ∧ w'.blockHeight = w.blockHeight := by
  refine removeTransaction_state_invariant (I := fun u => u.allTx = w.allTx ∧
    u.allAddrs = w.allAddrs ∧ u.blockHeight = w.blockHeight) ?_ ⟨rfl, rfl, rfl⟩ h
  rintro u k u' hu - hbal
  obtain ⟨L, rfl⟩ := updateBalance_frame hbal
  exact hu

/-- The flags are computed at a sufficient depth. -/
theorem removalFlags_returns
    {rank : UInt256 → Nat}
    (hrank : Descends w rank)
    (htx : getTx w.allTx tx.txHash = some tx)
    (hfuel : rank tx.txHash < fuel) :
    ∃ flags, w.removalFlags fuel tx = .ok flags := by
  rw [BRWallet.removalFlags]
  split_ifs
  · obtain ⟨b, hb, -⟩ := transactionIsValid_spec hrank htx hfuel
    rw [hb, ok_bind]
    cases b <;> exact ⟨_, rfl⟩
  · exact ⟨_, rfl⟩

/-- A transaction without dependents is removed. -/
theorem removeTransaction_leaf_returns
    {rank : UInt256 → Nat}
    (hw : Listed w)
    (hrank : Descends w rank)
    (htx : getTx w.allTx txHash = some tx)
    (hleaf : w.dependents tx = [])
    (hfuel : rank tx.txHash < fuel) :
    ∃ w' events, BRWallet.removeTransaction now (fuel + 1) w txHash = .ok (w', events) := by
  have hrm := @updateBalance_eq now _ (hw.rmTx txHash).known
  obtain ⟨flags, hflags⟩ := @removalFlags_returns fuel { w.rmTx txHash with
      toLedger := ledgerOf now (w.rmTx txHash).blockHeight (w.rmTx txHash).allAddrs
        (w.rmTx txHash).transactions } tx rank hrank
    (by rw [getTx_hash htx]; exact htx) hfuel
  rw [BRWallet.removeTransaction, htx]
  dsimp only
  rw [if_pos hleaf, hrm, ok_bind, hflags]
  exact ⟨_, _, rfl⟩

/-- What a removed transaction leaves behind in `allTx` is still found. -/
theorem not_removalComplete_of_removed
    {t : BRTransaction}
    (hw : Listed w)
    (ht : Removed w txHash t) :
    ¬ RemovalComplete now w txHash := by
  rintro ⟨fuel, w', events, hcall, hdone⟩
  have hgone := hdone.forgotten t ht
  rw [(removeTransaction_frame hcall).1, hw.known t ht.1] at hgone
  cases hgone

/-- Where nothing has to be taken out, the list stays as it is. -/
theorem removalDone_of_none
    {events : List Event}
    (hnone : ∀ t, ¬ Removed w txHash t)
    (htransactions : w'.transactions = w.transactions) :
    RemovalDone w w' txHash events where
  sublist := by
    rw [htransactions]
  kept := by
    intro t ht
    rw [htransactions]
    exact iff_of_true ht (hnone t)
  notices t ht := absurd ht (hnone t)
  forgotten t ht := absurd ht (hnone t)
  registers t ht := absurd ht (hnone t)

/--
**Removal as a whole.**  A removal takes exactly the transaction and its
dependents out of the list, tells each of them once, and forgets them so that
they can be registered again, if and only if neither the transaction nor anything
that depends on it is listed.
-/
theorem removalComplete_iff
    (hw : Listed w)
    (hacyclic : Acyclic w) :
    RemovalComplete now w txHash ↔
      ∀ t ∈ w.transactions, t.txHash ≠ txHash ∧ ¬ DependsOn w txHash t := by
  constructor
  · intro h t ht
    by_contra hnot
    rw [not_and_or, not_not, not_not] at hnot
    exact not_removalComplete_of_removed hw ⟨ht, hnot⟩ h
  · intro h
    have hnone : ∀ t, ¬ Removed w txHash t := by
      rintro t ⟨ht, heq | hdep⟩
      · exact (h t ht).1 heq
      · exact (h t ht).2 hdep
    cases htx : getTx w.allTx txHash with
    | none =>
        refine ⟨1, w, [], ?_, removalDone_of_none hnone rfl⟩
        rw [BRWallet.removeTransaction, htx]
    | some tx =>
        have hleaf : w.dependents tx = [] := by
          rw [BRWallet.dependents, List.map_eq_nil_iff, List.filter_eq_nil_iff]
          intro t ht hspends
          have hmem : t ∈ w.transactions :=
            List.mem_reverse.mp ((List.takeWhile_sublist _).subset ht)
          simp only [decide_eq_true_eq, List.any_eq_true] at hspends
          obtain ⟨-, i, hi, heq⟩ := hspends
          exact (h t hmem).2 (.direct hmem hi (heq.trans (getTx_hash htx)))
        obtain ⟨rank, hrank⟩ := hacyclic
        obtain ⟨w', events, hcall⟩ := @removeTransaction_leaf_returns now _ w txHash tx rank hw
          hrank htx hleaf (Nat.lt_succ_self _)
        refine ⟨_, w', events, hcall, removalDone_of_none hnone ?_⟩
        obtain ⟨hbal, -⟩ := removeTransaction_leaf htx hleaf hcall
        rw [updateBalance_transactions hbal, hw.rmTx_transactions, List.filter_eq_self]
        intro t ht
        simpa using (h t ht).1

/-! ## The list -/

/-- No listed transaction stands in front of one that is lower than a known
transaction it spends: the scan for dependents sees all of them. -/
def SpendsBelow (w : BRWallet) (t u : BRTransaction) : Prop :=
  ∀ i ∈ t.inputs, ∀ tx, getTx w.allTx i.txHash = some tx → tx.blockHeight ≤ u.blockHeight

structure DependentsSeen (w : BRWallet) : Prop where
  self : ∀ t ∈ w.transactions, SpendsBelow w t t
  behind : w.transactions.Pairwise (SpendsBelow w)

/-- In a list that is sorted by height it is enough that no transaction is lower
than one it spends. -/
theorem DependentsSeen.of_sorted
    (hsorted : HeightSorted w)
    (hself : ∀ t ∈ w.transactions, SpendsBelow w t t) :
    DependentsSeen w := by
  refine ⟨hself, ?_⟩
  have hboth := List.Pairwise.and_mem.mp hsorted
  refine hboth.imp ?_
  rintro t u ⟨ht, -, hle⟩ i hi tx htx
  have hbelow := UInt32.le_iff_toNat_le.mp (hself t ht i hi tx htx)
  exact UInt32.le_iff_toNat_le.mpr (hbelow.trans hle)

theorem DependentsSeen.of_sublist
    (h : DependentsSeen w)
    (hall : w'.allTx = w.allTx)
    (hsub : w'.transactions.Sublist w.transactions) :
    DependentsSeen w' := by
  have hcongr : ∀ t u, SpendsBelow w t u → SpendsBelow w' t u := by
    intro t u htu
    rw [SpendsBelow, hall]
    exact htu
  refine ⟨fun t ht => hcongr t t (h.self t (hsub.subset ht)), ?_⟩
  exact (h.behind.sublist hsub).imp (fun {t u} => hcongr t u)

/-- The scan finds every listed transaction that spends a known one. -/
theorem DependentsSeen.mem_dependents
    {t : BRTransaction} {i : BRTxInput}
    (h : DependentsSeen w)
    (hacyclic : Acyclic w)
    (hw : Listed w)
    (htx : getTx w.allTx txHash = some tx)
    (ht : t ∈ w.transactions)
    (hi : i ∈ t.inputs)
    (heq : i.txHash = txHash) :
    t.txHash ∈ w.dependents tx := by
  have hhash := getTx_hash htx
  obtain ⟨pre, post, hl⟩ := List.append_of_mem ht
  have hparent : getTx w.allTx i.txHash = some tx := by
    rw [heq]
    exact htx
  have hpost : ∀ u ∈ post, tx.blockHeight ≤ u.blockHeight := by
    intro u hu
    have hbehind := h.behind
    rw [hl, List.pairwise_append, List.pairwise_cons] at hbehind
    exact hbehind.2.1.1 u hu i hi tx hparent
  have hself : tx.blockHeight ≤ t.blockHeight := h.self t ht i hi tx hparent
  have hne : t.txHash ≠ tx.txHash := by
    obtain ⟨rank, hrank⟩ := hacyclic
    have hlt := (hrank.parent (hw.known t ht) hi hparent).2
    intro hsame
    rw [hsame] at hlt
    exact lt_irrefl _ hlt
  rw [BRWallet.dependents, List.mem_map]
  refine ⟨t, List.mem_filter.mpr ⟨?_, ?_⟩, rfl⟩
  · rw [hl, List.reverse_append, List.reverse_cons, List.append_assoc,
      List.takeWhile_append_of_pos, List.mem_append]
    · right
      rw [List.singleton_append, List.takeWhile_cons_of_pos]
      · exact List.mem_cons_self
      · simpa using hself
    · intro u hu
      simpa using hpost u (List.mem_reverse.mp hu)
  · simp only [ne_eq, decide_eq_true_eq, List.any_eq_true]
    exact ⟨hne, i, hi, heq.trans hhash.symm⟩

/-- The scan finds listed transactions that spend the one in question. -/
theorem spends_of_mem_dependents
    {d : UInt256}
    (hd : d ∈ w.dependents tx) :
    ∃ t ∈ w.transactions, t.txHash = d ∧ ∃ i ∈ t.inputs, i.txHash = tx.txHash := by
  rw [BRWallet.dependents, List.mem_map] at hd
  obtain ⟨t, ht, rfl⟩ := hd
  obtain ⟨hscan, hspends⟩ := List.mem_filter.mp ht
  simp only [ne_eq, decide_eq_true_eq, List.any_eq_true] at hspends
  exact ⟨t, List.mem_reverse.mp ((List.takeWhile_sublist _).subset hscan), rfl, hspends.2⟩

theorem DependsOn.mono
    {t : BRTransaction}
    (hsub : w'.transactions.Sublist w.transactions)
    (h : DependsOn w' txHash t) :
    DependsOn w txHash t := by
  induction h with
  | direct ht hi heq =>
      exact .direct (hsub.subset ht) hi heq
  | through ht hi heq _ ih =>
      exact .through (hsub.subset ht) hi heq ih

theorem DependsOn.trans
    {t u : BRTransaction}
    (hu : DependsOn w txHash u)
    (h : DependsOn w u.txHash t) :
    DependsOn w txHash t := by
  induction h with
  | direct ht hi heq =>
      exact .through ht hi heq hu
  | through ht hi heq _ ih =>
      exact .through ht hi heq ih

/-- Dependent transactions have a larger rank. -/
theorem DependsOn.rank_lt
    {rank : UInt256 → Nat} {t : BRTransaction}
    (hw : Listed w)
    (hrank : Descends w rank)
    (htx : getTx w.allTx tx.txHash = some tx)
    (h : DependsOn w tx.txHash t) :
    rank tx.txHash < rank t.txHash := by
  induction h with
  | @direct t i ht hi heq =>
      exact (hrank.parent (hw.known t ht) hi (by rw [heq]; exact htx)).2
  | @through t u i ht hi heq hu ih =>
      have hlt := (hrank.parent (hw.known t ht) hi (by rw [heq]; exact hw.known u hu.mem)).2
      omega

/-- How many listed transactions depend on a transaction. -/
noncomputable def dependentCount (w : BRWallet) (txHash : UInt256) : ℕ :=
  open Classical in (w.transactions.filter (fun t => DependsOn w txHash t)).length

/-- Fewer transactions depend on a dependent one. -/
theorem dependentCount_lt
    {t : BRTransaction}
    (hw : Listed w)
    (hacyclic : Acyclic w)
    (hsub : w'.transactions.Sublist w.transactions)
    (ht : DependsOn w txHash t) :
    dependentCount w' t.txHash < dependentCount w txHash := by
  classical
  obtain ⟨rank, hrank⟩ := hacyclic
  rw [dependentCount, dependentCount]
  have hle : (w'.transactions.filter (fun u => DependsOn w' t.txHash u)).length ≤
      (w.transactions.filter (fun u => DependsOn w txHash u ∧ u ≠ t)).length := by
    refine List.Sublist.length_le ?_
    refine ((hsub.filter _).trans ?_)
    refine List.monotone_filter_right _ ?_
    intro u hu
    simp only [decide_eq_true_eq] at hu ⊢
    have hdep := hu.mono hsub
    refine ⟨ht.trans hdep, ?_⟩
    rintro rfl
    exact lt_irrefl _ (hdep.rank_lt hw hrank (hw.known u ht.mem))
  refine lt_of_le_of_lt hle ?_
  have hsplit : w.transactions.filter (fun u => DependsOn w txHash u ∧ u ≠ t) =
      (w.transactions.filter (fun u => DependsOn w txHash u)).filter (fun u => u ≠ t) := by
    rw [List.filter_filter]
    refine List.filter_congr ?_
    intro u _
    simp [and_comm]
  rw [hsplit, List.length_filter_lt_length_iff_exists]
  exact ⟨t, List.mem_filter.mpr ⟨ht.mem, by simpa using ht⟩, by simp⟩

/-- A removal on the way: what has left the list depends on the transaction, and
nothing in the list spends it. -/
structure Shrinks (w v : BRWallet) (txHash : UInt256) : Prop where
  listed : Listed v
  allTx : v.allTx = w.allTx
  sublist : v.transactions.Sublist w.transactions
  gone : ∀ t ∈ w.transactions, t ∉ v.transactions → DependsOn w txHash t
  closed : ∀ t ∈ w.transactions, t ∉ v.transactions →
    ∀ u ∈ v.transactions, ∀ i ∈ u.inputs, i.txHash ≠ t.txHash

/-- The list behind a removal. -/
structure TakenOut (w w' : BRWallet) (txHash : UInt256) : Prop where
  listed : Listed w'
  allTx : w'.allTx = w.allTx
  sublist : w'.transactions.Sublist w.transactions
  kept : ∀ t ∈ w.transactions, t ∈ w'.transactions ↔ ¬ Removed w txHash t

/-- The removal of a dependent transaction keeps the invariant. -/
theorem Shrinks.takeOut
    {v v' : BRWallet} {t : BRTransaction}
    (hw : Listed w)
    (h : Shrinks w v txHash)
    (ht : DependsOn w txHash t)
    (hout : TakenOut v v' t.txHash) :
    Shrinks w v' txHash ∧ t ∉ v'.transactions := by
  have hsub := hout.sublist.trans h.sublist
  refine ⟨⟨hout.listed, hout.allTx.trans h.allTx, hsub, ?_, ?_⟩, ?_⟩
  · intro u hu hnot
    by_cases huv : u ∈ v.transactions
    · have hremoved : Removed v t.txHash u := by
        by_contra hkept
        exact hnot ((hout.kept u huv).mpr hkept)
      rcases hremoved.2 with heq | hdep
      · -- two listed transactions of one hash are the same
        have hget := hw.known u hu
        rw [heq, hw.known t ht.mem] at hget
        cases hget
        exact ht
      · exact ht.trans (hdep.mono h.sublist)
    · exact h.gone u hu huv
  · intro u hu hnot x hx i hi heq
    have hxv := hout.sublist.subset hx
    by_cases huv : u ∈ v.transactions
    · have hremoved : Removed v t.txHash u := by
        by_contra hkept
        exact hnot ((hout.kept u huv).mpr hkept)
      refine ((hout.kept x hxv).mp hx) ⟨hxv, Or.inr ?_⟩
      rcases hremoved.2 with hsame | hdep
      · exact .direct hxv hi (heq.trans hsame)
      · exact .through hxv hi heq hdep
    · exact h.closed u hu huv x hxv i hi heq
  · intro hmem
    have htv := hout.sublist.subset hmem
    exact ((hout.kept t htv).mp hmem) ⟨htv, Or.inl rfl⟩

/-- The removals of dependent transactions, one after the other. -/
theorem run_takeOut
    {ds : List UInt256} {v : BRWallet}
    (hw : Listed w)
    (hv : Shrinks w v txHash)
    (hds : ∀ d ∈ ds, ∃ t, DependsOn w txHash t ∧ t.txHash = d)
    (hcall : ∀ d ∈ ds, ∀ v : BRWallet, Shrinks w v txHash → ∃ v' events,
      BRWallet.removeTransaction now fuel v d = .ok (v', events) ∧ TakenOut v v' d) :
    ∃ v' events, Machine.run (BRWallet.removeTransaction now fuel) v ds = .ok (v', events) ∧
      Shrinks w v' txHash ∧ v'.transactions.Sublist v.transactions ∧
      ∀ t ∈ v'.transactions, t.txHash ∉ ds := by
  induction ds generalizing v with
  | nil =>
      exact ⟨v, [], rfl, hv, List.Sublist.refl _, fun t _ => List.not_mem_nil⟩
  | cons d ds ih =>
      obtain ⟨t, ht, rfl⟩ := hds d List.mem_cons_self
      obtain ⟨v₁, e₁, hstep, hout⟩ := hcall t.txHash List.mem_cons_self v hv
      obtain ⟨hv₁, hgone⟩ := hv.takeOut hw ht hout
      obtain ⟨v', es, hrun, hv', hsub, hrest⟩ := ih hv₁
        (fun d hd => hds d (List.mem_cons_of_mem _ hd))
        (fun d hd => hcall d (List.mem_cons_of_mem _ hd))
      refine ⟨v', e₁ ++ es, by simp [Machine.run, hstep, hrun], hv',
        hsub.trans hout.sublist, ?_⟩
      intro u hu hmem
      rcases List.mem_cons.mp hmem with heq | hmem
      · have huv := hsub.subset hu
        have huw := hv.sublist.subset (hout.sublist.subset huv)
        have hget := hw.known u huw
        rw [heq, hw.known t ht.mem] at hget
        cases hget
        exact hgone huv
      · exact hrest u hu hmem

/-- The removal of a transaction that nothing in the list spends any more. -/
theorem takenOut_leaf
    {events : List Event}
    (hw : Listed w)
    (htx : getTx w.allTx txHash = some tx)
    (hleaf : w.dependents tx = [])
    (hfree : ∀ t ∈ w.transactions, ∀ i ∈ t.inputs, i.txHash ≠ txHash)
    (hcall : BRWallet.removeTransaction now (fuel + 1) w txHash = .ok (w', events)) :
    TakenOut w w' txHash := by
  obtain ⟨hbal, -⟩ := removeTransaction_leaf htx hleaf hcall
  have hl : w'.transactions = w.transactions.filter (fun t => t.txHash ≠ txHash) := by
    rw [updateBalance_transactions hbal, hw.rmTx_transactions]
  refine ⟨(hw.rmTx txHash).updateBalance hbal, (removeTransaction_frame hcall).1, ?_, ?_⟩
  · rw [hl]
    exact List.filter_sublist
  · intro t ht
    rw [hl, List.mem_filter, and_iff_right ht]
    simp only [ne_eq, decide_eq_true_eq]
    constructor
    · rintro hne ⟨-, heq | hdep⟩
      · exact hne heq
      · obtain ⟨u, hu, i, hi, heq⟩ := hdep.exists_direct
        exact hfree u hu i hi heq
    · intro hkept heq
      exact hkept ⟨ht, Or.inl heq⟩

/-- Behind the removal of all that spends it, the transaction itself is removed. -/
theorem Shrinks.takenOut
    {v : BRWallet}
    (h : Shrinks w v txHash)
    (hspent : ∀ t ∈ v.transactions, ∀ i ∈ t.inputs, i.txHash ≠ txHash)
    (hout : TakenOut v w' txHash) :
    TakenOut w w' txHash := by
  have hnone : ∀ t, DependsOn w txHash t → t ∉ v.transactions := by
    intro t ht
    induction ht with
    | direct _ hi heq =>
        exact fun hmem => hspent _ hmem _ hi heq
    | through _ hi heq hu ih =>
        exact fun hmem => h.closed _ hu.mem ih _ hmem _ hi heq
  refine ⟨hout.listed, hout.allTx.trans h.allTx, hout.sublist.trans h.sublist, ?_⟩
  intro t ht
  constructor
  · rintro hmem ⟨-, heq | hdep⟩
    · have hv := hout.sublist.subset hmem
      exact ((hout.kept t hv).mp hmem) ⟨hv, Or.inl heq⟩
    · exact hnone t hdep (hout.sublist.subset hmem)
  · intro hkept
    have hv : t ∈ v.transactions := by
      by_contra hnot
      exact hkept ⟨ht, Or.inr (h.gone t ht hnot)⟩
    refine (hout.kept t hv).mpr ?_
    rintro ⟨-, heq | hdep⟩
    · exact hkept ⟨ht, Or.inl heq⟩
    · exact hkept ⟨ht, Or.inr (hdep.mono h.sublist)⟩

/-- A depth that grows with the number of dependent transactions is enough. -/
theorem removeTransaction_takesOut_aux
    {rank : UInt256 → Nat} {depth : Nat}
    (hrank : Descends w rank)
    (hdepth : ∀ tx ∈ w.allTx, rank tx.txHash < depth) :
    ∀ n, ∀ v : BRWallet, Listed v → DependentsSeen v → v.allTx = w.allTx →
      ∀ h tx, getTx v.allTx h = some tx → dependentCount v h ≤ n →
        ∀ fuel ≥ n + depth + 2, ∃ v' events,
          BRWallet.removeTransaction now fuel v h = .ok (v', events) ∧ TakenOut v v' h := by
  intro n
  induction n using Nat.strong_induction_on with
  | _ n ih =>
      intro v hv hseen hall h tx htx hcount fuel hfuel
      obtain ⟨fuel, rfl⟩ : ∃ k, fuel = k + 1 := ⟨fuel - 1, by omega⟩
      have hacyclic : Acyclic v := Acyclic.congr hall ⟨rank, hrank⟩
      -- a call without dependents returns at this depth
      have hleaf : ∀ (u : BRWallet) (k : ℕ), Listed u → u.allTx = w.allTx →
          u.dependents tx = [] → depth ≤ k →
          (∀ t ∈ u.transactions, ∀ i ∈ t.inputs, i.txHash ≠ h) →
          ∃ u' events, BRWallet.removeTransaction now (k + 1) u h = .ok (u', events) ∧
            TakenOut u u' h := by
        intro u k hu huall hnone hk hfree
        have htu : getTx u.allTx h = some tx := by
          rw [huall, ← hall]
          exact htx
        have hranku : Descends u rank := by
          rw [Descends, huall]
          exact hrank
        have hlow : rank tx.txHash < k := by
          have := hdepth tx (by rw [← hall]; exact mem_of_getTx htx)
          omega
        obtain ⟨u', events, hcall⟩ :=
          @removeTransaction_leaf_returns now k u h tx rank hu hranku htu hnone hlow
        exact ⟨u', events, hcall, takenOut_leaf hu htu hnone hfree hcall⟩
      by_cases hnone : v.dependents tx = []
      · refine hleaf v fuel hv hall hnone (by omega) ?_
        intro t ht i hi heq
        have hmem := hseen.mem_dependents hacyclic hv htx ht hi heq
        rw [hnone] at hmem
        exact List.not_mem_nil hmem
      · have hds : ∀ d ∈ (v.dependents tx).reverse,
            ∃ t, DependsOn v h t ∧ t.txHash = d := by
          intro d hd
          obtain ⟨t, ht, hthash, i, hi, heq⟩ :=
            spends_of_mem_dependents (List.mem_reverse.mp hd)
          exact ⟨t, .direct ht hi (heq.trans (getTx_hash htx)), hthash⟩
        have hstart : Shrinks v v h :=
          ⟨hv, rfl, List.Sublist.refl _, fun t ht hnot => absurd ht hnot,
            fun t ht hnot => absurd ht hnot⟩
        have hcalls : ∀ d ∈ (v.dependents tx).reverse, ∀ x : BRWallet, Shrinks v x h →
            ∃ x' events, BRWallet.removeTransaction now fuel x d = .ok (x', events) ∧
              TakenOut x x' d := by
          intro d hd x hx
          obtain ⟨t, ht, rfl⟩ := hds d hd
          have hlt := dependentCount_lt hv hacyclic hx.sublist ht
          refine ih (dependentCount x t.txHash) (by omega) x hx.listed
            (hseen.of_sublist hx.allTx hx.sublist) (hx.allTx.trans hall) t.txHash t ?_ le_rfl
            fuel (by omega)
          rw [hx.allTx]
          exact hv.known t ht.mem
        obtain ⟨u, es, hrun, hu, -, hgone⟩ := run_takeOut hv hstart hds hcalls
        have hspent : ∀ t ∈ u.transactions, ∀ i ∈ t.inputs, i.txHash ≠ h := by
          intro t ht i hi heq
          refine hgone t ht (List.mem_reverse.mpr ?_)
          exact hseen.mem_dependents hacyclic hv htx (hu.sublist.subset ht) hi heq
        have hlast : u.dependents tx = [] := by
          rw [List.eq_nil_iff_forall_not_mem]
          intro d hd
          obtain ⟨t, ht, -, i, hi, heq⟩ := spends_of_mem_dependents hd
          exact hspent t ht i hi (heq.trans (getTx_hash htx))
        obtain ⟨fuel, rfl⟩ : ∃ k, fuel = k + 1 := ⟨fuel - 1, by omega⟩
        obtain ⟨u', e, hcall, hout⟩ := hleaf u fuel hu.listed (hu.allTx.trans hall) hlast
          (by omega) hspent
        refine ⟨u', es ++ e, ?_, hu.takenOut hspent hout⟩
        rw [BRWallet.removeTransaction, htx]
        dsimp only
        rw [if_neg hnone]
        exact run_concat hrun hcall

/--
**The list behind a removal.**  If the scan for dependents sees all of them, the
removal of a known transaction returns, and what it takes out of the list is
exactly the transaction and everything that depends on it.
-/
theorem removeTransaction_takesOut
    (hw : Listed w)
    (hacyclic : Acyclic w)
    (hseen : DependentsSeen w)
    (htx : getTx w.allTx txHash = some tx) :
    ∃ depth, ∀ fuel ≥ depth, ∃ w' events,
      BRWallet.removeTransaction now fuel w txHash = .ok (w', events) ∧
        TakenOut w w' txHash := by
  obtain ⟨rank, hrank⟩ := hacyclic
  obtain ⟨depth, hdepth⟩ := exists_fuel rank w.allTx
  exact ⟨dependentCount w txHash + depth + 2, removeTransaction_takesOut_aux hrank hdepth _ w hw
    hseen rfl txHash tx htx le_rfl⟩

end Removal

/-- The removal of the payment takes out the two sends as well. -/
theorem removeTransaction_takesOut_payment :
    ∃ depth, ∀ fuel ≥ depth, ∃ w' events,
      BRWallet.removeTransaction 0 fuel doubleSpendWallet 1 = .ok (w', events) ∧
        TakenOut doubleSpendWallet w' 1 := by
  refine removeTransaction_takesOut doubleSpendWallet_listed doubleSpendWallet_acyclic
    (.of_sorted (by rw [HeightSorted, TailScan.SortedBy]; decide) ?_) rfl
  intro t ht i hi tx htx
  have hheights : ∀ t ∈ doubleSpendWallet.transactions, ∀ i ∈ t.inputs,
      (getTx doubleSpendWallet.allTx i.txHash).all (fun tx => tx.blockHeight ≤ t.blockHeight) := by
    decide
  simpa [htx] using hheights t ht i hi

theorem removalComplete_unknown :
    RemovalComplete 0 doubleSpendWallet 77 := by
  refine (removalComplete_iff doubleSpendWallet_listed doubleSpendWallet_acyclic).mpr ?_
  intro t ht
  have hspends : ∀ t ∈ doubleSpendWallet.transactions,
      t.txHash ≠ 77 ∧ ∀ i ∈ t.inputs, i.txHash ≠ 77 := by
    decide
  refine ⟨(hspends t ht).1, fun hdep => ?_⟩
  obtain ⟨u, hu, i, hi, heq⟩ := hdep.exists_direct
  exact (hspends u hu).2 i hi heq

/-- A removed transaction is still found, and registering it again does nothing. -/
theorem secondSend_not_forgotten :
    ∃ w' events, BRWallet.removeTransaction 0 20 doubleSpendWallet 3 = .ok (w', events) ∧
      w'.listsTx 3 = false ∧ getTx w'.allTx 3 = some secondSend ∧
      w'.containsTx secondSend = true ∧
      w'.registerTransaction 20 0 secondSend = .ok (w', [], true) ∧
      Acyclic doubleSpendWallet ∧ ¬ RemovalComplete 0 doubleSpendWallet 3 :=
  ⟨_, _, rfl, by decide, rfl, by decide, rfl, doubleSpendWallet_acyclic,
    not_removalComplete_of_removed doubleSpendWallet_listed
      ⟨(by decide : secondSend ∈ doubleSpendWallet.transactions), Or.inl rfl⟩⟩

end BreadwalletCore
