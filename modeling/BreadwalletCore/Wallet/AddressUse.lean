import BreadwalletCore.Wallet.History

/-!
# Used addresses

`usedAddrs` is cleared on every pass over the list and filled with the
addresses that counted transactions pay.  A pending or an invalid transaction
is skipped before its outputs are read, so an address that only such
transactions pay is not used, and `BRWalletUnusedAddrs` gives it out again.
-/

namespace BreadwalletCore

open Machine CoinBook

/-- `BRWalletAddressIsUsed`. -/
def BRWallet.addressIsUsed (w : BRWallet) (addr : Address) : Bool :=
  addr ∈ w.usedAddrs

/-- The transaction has an output with this address. -/
def Pays (tx : BRTransaction) (addr : Address) : Prop :=
  ∃ o ∈ tx.outputs, o.address = addr

/-- Neither invalid nor pending. -/
def Unmarked (w : BRWallet) (tx : BRTransaction) : Prop :=
  tx.txHash ∉ w.invalidTx ∧ tx.txHash ∉ w.pendingTx

/-- No address is given out twice: the used addresses are those that a
registered transaction pays, and none of them is written by
`BRWalletUnusedAddrs`. -/
structure NoReuse (w : BRWallet) : Prop where
  used_iff : ∀ addr, addr ≠ [] →
    (w.addressIsUsed addr = true ↔ ∃ tx ∈ w.transactions, Pays tx addr)
  unused : ∀ fuel gapLimit internal w' addrs,
    w.unusedAddrs fuel gapLimit internal = .ok (w', addrs) →
      ∀ addr ∈ addrs, ∀ tx ∈ w.transactions, ¬ Pays tx addr

/-- What a pending or an invalid transaction pays is also paid by one that is
neither. -/
def PaidUnmarked (w : BRWallet) : Prop :=
  ∀ tx ∈ w.transactions, ¬ Unmarked w tx → ∀ addr, addr ≠ [] → Pays tx addr →
    ∃ tx' ∈ w.transactions, Unmarked w tx' ∧ Pays tx' addr

/-! ## Chains -/

section Chains

variable {addressAt : UInt32 → Option Address} {usedAddrs : Finset Address}

variable {gapLimit fuel : Nat} {chain chain' : List Address} {i i' : Nat}

/-- What every new address preserves holds behind the loop. -/
theorem extendChain_invariant
    {I : List Address → Nat → Prop}
    (hstep : ∀ chain i address, addressAt (UInt32.ofNat chain.length) = some address →
      address ≠ [] → I chain i → I (chain ++ [address])
        (if address ∈ usedAddrs then chain.length + 1 else i))
    (hI : I chain i)
    (h : extendChain addressAt usedAddrs gapLimit fuel chain i = .ok (chain', i')) :
    I chain' i' := by
  induction fuel generalizing chain i with
  | zero =>
      rw [extendChain] at h
      split at h
      · cases h
      · cases h
        exact hI
  | succ fuel ih =>
      rw [extendChain] at h
      split at h
      · split at h
        · cases h
          exact hI
        · split at h
          · cases h
            exact hI
          · rename_i haddress hne
            exact ih (hstep _ _ _ haddress hne hI) h
      · cases h
        exact hI

/-- Addresses are only appended. -/
theorem extendChain_prefix
    (h : extendChain addressAt usedAddrs gapLimit fuel chain i = .ok (chain', i')) :
    chain <+: chain' :=
  extendChain_invariant (I := fun c _ => chain <+: c)
    (fun _ _ _ _ _ hc => hc.trans (List.prefix_append _ _)) List.prefix_rfl h

/-- The generated addresses are addresses. -/
theorem extendChain_filled
    (hne : [] ∉ chain)
    (h : extendChain addressAt usedAddrs gapLimit fuel chain i = .ok (chain', i')) :
    [] ∉ chain' := by
  refine extendChain_invariant (I := fun c _ => [] ∉ c) (fun c _ address _ haddress hc => ?_) hne h
  simp only [List.mem_append, List.mem_singleton, not_or]
  exact ⟨hc, fun heq => haddress heq.symm⟩

/-- The addresses behind the position that is returned are not used. -/
theorem extendChain_unused
    (hfree : ∀ a ∈ chain.drop i, a ∉ usedAddrs)
    (h : extendChain addressAt usedAddrs gapLimit fuel chain i = .ok (chain', i')) :
    ∀ a ∈ chain'.drop i', a ∉ usedAddrs := by
  refine extendChain_invariant (I := fun c i => ∀ a ∈ c.drop i, a ∉ usedAddrs)
    (fun c i address _ _ hc => ?_) hfree h
  split
  · rw [List.drop_of_length_le (by simp)]
    simp
  · rename_i hunused
    intro a ha
    rw [List.drop_append] at ha
    rcases List.mem_append.mp ha with ha | ha
    · exact hc a ha
    · rw [List.mem_singleton.mp (List.mem_of_mem_drop ha)]
      exact hunused

end Chains

section Chains

variable {w w' : BRWallet} {fuel gapLimit : Nat} {internal : Bool}

/-- No chain holds the cleared address. -/
def ChainsFilled (w : BRWallet) : Prop :=
  ∀ internal, [] ∉ w.chain internal

theorem trailing_unused
    (chain : List Address) (usedAddrs : Finset Address) :
    ∀ a ∈ chain.drop (chain.rdropWhile (fun a => a ∉ usedAddrs)).length, a ∉ usedAddrs := by
  intro a ha
  have hsplit : chain.rdropWhile (fun a => a ∉ usedAddrs) ++
      chain.rtakeWhile (fun a => a ∉ usedAddrs) = chain :=
    List.rdropWhile_append_rtakeWhile
  have hdrop : chain.drop (chain.rdropWhile (fun a => a ∉ usedAddrs)).length =
      chain.rtakeWhile (fun a => a ∉ usedAddrs) := by
    nth_rewrite 2 [← hsplit]
    exact List.drop_left
  rw [hdrop] at ha
  simpa using List.mem_rtakeWhile_imp ha

/-- What `BRWalletUnusedAddrs` writes is not used and in the chain. -/
theorem unusedAddrs_unused
    {addrs : List Address}
    (h : w.unusedAddrs fuel gapLimit internal = .ok (w', addrs)) :
    ∀ a ∈ addrs, a ∉ w.usedAddrs ∧ a ∈ w'.chain internal := by
  rw [BRWallet.unusedAddrs] at h
  split at h
  · cases h
  · rename_i chain' i hextend
    have hchain : (w.growChain internal (chain'.drop (w.chain internal).length)).chain internal =
        chain' := by
      obtain ⟨new, rfl⟩ := extendChain_prefix hextend
      rw [List.drop_left]
      cases internal <;> rfl
    cases h
    intro a ha
    split at ha
    · have hdrop := List.mem_of_mem_take ha
      refine ⟨extendChain_unused (trailing_unused _ _) hextend a hdrop, ?_⟩
      rw [hchain]
      exact List.mem_of_mem_drop hdrop
    · cases ha

theorem newAddrs_filled
    (hw : ChainsFilled w) :
    [] ∉ w.newAddrs fuel gapLimit internal := by
  rw [BRWallet.newAddrs]
  split
  · simp
  · rename_i hextend
    exact fun hmem => extendChain_filled (hw internal) hextend (List.mem_of_mem_drop hmem)

theorem ChainsFilled.growChain
    (hw : ChainsFilled w) :
    ChainsFilled (w.growChain internal (w.newAddrs fuel gapLimit internal)) := by
  have hnew : [] ∉ w.newAddrs fuel gapLimit internal := newAddrs_filled hw
  intro other
  have hold := hw other
  cases internal <;> cases other <;>
    simp_all [BRWallet.growChain, BRWallet.chain]

theorem ChainsFilled.filled
    (hw : ChainsFilled w) :
    ChainsFilled (w.filled fuel) :=
  hw.growChain.growChain

end Chains

/-! ## The used addresses are those of unmarked transactions -/

section Used

variable {now : Int} {fuel : Nat} {w w' : BRWallet}

/-- An unmarked transaction of the list pays the address. -/
def PaidBy (w : BRWallet) (addr : Address) : Prop :=
  ∃ tx ∈ w.transactions, Unmarked w tx ∧ Pays tx addr

/-- The invariant of every reachable state. -/
structure UsedPaid (w : BRWallet) : Prop where
  listed : Listed w
  chains : ChainsFilled w
  used : ∀ addr, addr ∈ w.usedAddrs ↔ addr ≠ [] ∧ PaidBy w addr

theorem mem_paidAddrs
    {outputs : List BRTxOutput} {addr : Address} :
    addr ∈ paidAddrs outputs ↔ addr ≠ [] ∧ ∃ o ∈ outputs, o.address = addr := by
  simp [paidAddrs, and_comm]

/-- A pass establishes the invariant. -/
theorem UsedPaid.updateBalance
    (hlisted : Listed w)
    (hchains : ChainsFilled w)
    (h : w.updateBalance now = .ok w') :
    UsedPaid w' := by
  obtain rfl := updateBalance_ledger hlisted h
  refine ⟨hlisted.congr rfl rfl, hchains, fun addr => ?_⟩
  have hcounted := mem_counted_iff_unmarked
    (walletRules now w.blockHeight w.allAddrs) hlisted.nodup
  have hused : addr ∈ (ledgerOf now w.blockHeight w.allAddrs w.transactions).usedAddrs ↔
      addr ≠ [] ∧ ∃ o ∈ (walletBook now w.blockHeight w.allAddrs
        w.transactions).counted.flatMap (·.outputs), o.address = addr :=
    mem_paidAddrs
  refine hused.trans ?_
  refine and_congr_right (fun _ => ?_)
  constructor
  · rintro ⟨o, ho, hpays⟩
    obtain ⟨tx, htx, ho⟩ := List.mem_flatMap.mp ho
    obtain ⟨hmem, hmarks⟩ := (hcounted tx).mp htx
    exact ⟨tx, hmem, hmarks, o, ho, hpays⟩
  · rintro ⟨tx, hmem, hmarks, o, ho, hpays⟩
    exact ⟨o, List.mem_flatMap.mpr ⟨tx, (hcounted tx).mpr ⟨hmem, hmarks⟩, ho⟩, hpays⟩

/-- Every transaction of one list is in the other, up to height and time. -/
def Covers (txs txs' : List BRTransaction) : Prop :=
  ∀ tx ∈ txs, ∃ tx' ∈ txs', tx'.txHash = tx.txHash ∧ tx'.outputs = tx.outputs

theorem PaidBy.covers
    {addr : Address}
    (h : PaidBy w addr)
    (hledger : w'.toLedger = w.toLedger)
    (hcovers : Covers w.transactions w'.transactions) :
    PaidBy w' addr := by
  obtain ⟨tx, hmem, hmarks, o, ho, hpays⟩ := h
  obtain ⟨tx', hmem', hhash, houtputs⟩ := hcovers tx hmem
  refine ⟨tx', hmem', ?_, o, houtputs ▸ ho, hpays⟩
  rw [Unmarked, hledger, hhash]
  exact hmarks

/-- The invariant only looks at hashes and outputs of the list. -/
theorem UsedPaid.congr
    (hw : UsedPaid w)
    (hlisted : Listed w')
    (hchains : ∀ internal, w'.chain internal = w.chain internal)
    (hledger : w'.toLedger = w.toLedger)
    (hcovers : Covers w.transactions w'.transactions)
    (hcovers' : Covers w'.transactions w.transactions) :
    UsedPaid w' where
  listed := hlisted
  chains := fun internal => by rw [hchains]; exact hw.chains internal
  used := by
    intro addr
    rw [hledger, hw.used addr]
    refine and_congr_right (fun _ => ?_)
    exact ⟨fun h => h.covers hledger hcovers, fun h => h.covers hledger.symm hcovers'⟩

theorem covers_refl
    (txs : List BRTransaction) :
    Covers txs txs :=
  fun tx htx => ⟨tx, htx, rfl, rfl⟩

/-- A write of heights and times is covered both ways. -/
theorem covers_map
    {f : BRTransaction → BRTransaction} (txs : List BRTransaction)
    (hhash : ∀ t, (f t).txHash = t.txHash)
    (houtputs : ∀ t, (f t).outputs = t.outputs) :
    Covers txs (txs.map f) ∧ Covers (txs.map f) txs := by
  constructor
  · intro tx htx
    exact ⟨f tx, List.mem_map_of_mem htx, hhash tx, houtputs tx⟩
  · intro tx htx
    obtain ⟨t, ht, rfl⟩ := List.mem_map.mp htx
    exact ⟨t, ht, (hhash t).symm, (houtputs t).symm⟩

theorem covers_writeBlock
    (w : BRWallet) (txHash : UInt256) (blockHeight timestamp : UInt32) :
    Covers w.transactions (w.writeBlock txHash blockHeight timestamp).transactions ∧
      Covers (w.writeBlock txHash blockHeight timestamp).transactions w.transactions := by
  rw [writeBlock_transactions]
  refine covers_map _ (fun t => ?_) (fun t => ?_) <;> split <;> rfl

/-- One iteration of an update. -/
theorem UsedPaid.updateTx
    {blockHeight timestamp : UInt32} {s s' : BRWallet.Sweep} {txHash : UInt256}
    (hs : UsedPaid s.wallet)
    (h : BRWallet.updateTx blockHeight timestamp s txHash = .ok s') :
    UsedPaid s'.wallet := by
  have hlisted := hs.listed.updateTx h
  have hwrite := covers_writeBlock s.wallet txHash blockHeight timestamp
  cases updateTx_cases h with
  | skipped _ =>
      exact hs
  | @moved tx htx _ _ =>
      by_cases hl : s.wallet.listsTx txHash = true
      · obtain ⟨t, ht, hhash, hget⟩ := hs.listed.lists hl
        rw [htx] at hget
        cases hget
        have hmem : ∀ u, u ∈ (((s.wallet.writeBlock txHash blockHeight timestamp).rmTx
            txHash).insertTx (tx.setBlock blockHeight timestamp)).transactions ↔
              u = tx.setBlock blockHeight timestamp ∨
                u ∈ s.wallet.transactions ∧ u.txHash ≠ txHash := by
          intro u
          rw [(insertTx_perm _ _).mem_iff, List.mem_cons,
            writeBlock_rmTx_transactions hs.listed, List.mem_filter, decide_eq_true_eq]
        simp only [hl, if_true] at hlisted ⊢
        refine hs.congr hlisted (fun _ => rfl) rfl (fun u hu => ?_) (fun u hu => ?_)
        · by_cases heq : u.txHash = txHash
          · have hsame := hs.listed.known u hu
            rw [heq, htx] at hsame
            cases hsame
            exact ⟨_, (hmem _).mpr (Or.inl rfl), rfl, rfl⟩
          · exact ⟨u, (hmem u).mpr (Or.inr ⟨hu, heq⟩), rfl, rfl⟩
        · rcases (hmem u).mp hu with rfl | ⟨hu, -⟩
          · exact ⟨tx, ht, rfl, rfl⟩
          · exact ⟨u, hu, rfl, rfl⟩
      · simp only [hl] at hlisted ⊢
        exact hs.congr hlisted (fun _ => rfl) rfl hwrite.1 hwrite.2
  | freed _ _ _ _ _ =>
      exact hs.congr hlisted (fun _ => rfl) rfl hwrite.1 hwrite.2
  | foreign _ _ _ _ =>
      exact hs.congr hlisted (fun _ => rfl) rfl hwrite.1 hwrite.2

theorem UsedPaid.updateTransactions
    {txHashes : List UInt256} {blockHeight timestamp : UInt32} {events : List Event}
    (hw : UsedPaid w)
    (h : w.updateTransactions now txHashes blockHeight timestamp = .ok (w', events)) :
    UsedPaid w' := by
  obtain ⟨s, hs, -, hend⟩ := updateTransactions_cases h
  have hraise : UsedPaid (w.raiseHeight blockHeight) := by
    rw [BRWallet.raiseHeight]
    split
    · exact hw.congr (hw.listed.congr rfl rfl) (fun _ => rfl) rfl (covers_refl _) (covers_refl _)
    · exact hw
  have hloop : UsedPaid s.wallet :=
    foldlM_invariant (I := fun s => UsedPaid s.wallet)
      (fun _ _ _ _ hs hstep => hs.updateTx hstep) hraise hs
  rcases hend with ⟨-, hbal⟩ | ⟨-, rfl⟩
  · exact UsedPaid.updateBalance hloop.listed hloop.chains hbal
  · exact hloop

theorem UsedPaid.grow
    {gapLimit : Nat} {internal : Bool}
    (hw : UsedPaid w) :
    UsedPaid (w.growChain internal (w.newAddrs fuel gapLimit internal)) where
  listed := hw.listed.congr rfl rfl
  chains := hw.chains.growChain
  used := hw.used

/-- One call. -/
theorem UsedPaid.step
    {c : Call} {events : List Event}
    (hw : UsedPaid w)
    (h : step fuel w c = .ok (w', events)) :
    UsedPaid w' := by
  have hlisted := hw.listed.step h
  obtain ⟨now, op⟩ := c
  cases op with
  | registerTransaction tx =>
      obtain ⟨⟨w₁, es, r⟩, hreg, hret⟩ := bind_eq_ok.mp h
      cases hret
      cases registerTransaction_cases hreg with
      | unsigned _ =>
          exact hw
      | known _ _ =>
          exact hw
      | added _ hknown _ hbal =>
          have hadd := (hw.listed.addTx hknown).insertTx (by rw [getTx_addTx]; simp)
            (hw.listed.not_lists hknown)
          exact (UsedPaid.updateBalance hadd hw.chains hbal).grow.grow
      | refused _ hknown _ =>
          split
          · exact hw.congr (hw.listed.addTx hknown) (fun _ => rfl) rfl (covers_refl _)
              (covers_refl _)
          · exact hw
  | updateTransactions txHashes blockHeight timestamp =>
      exact hw.updateTransactions h
  | setTxUnconfirmedAfter blockHeight =>
      rcases setTxUnconfirmedAfter_cases h with ⟨-, rfl, -⟩ | ⟨-, hbal, -⟩
      · exact hw.congr hlisted (fun _ => rfl) rfl (covers_refl _) (covers_refl _)
      · have hset : Listed { w with blockHeight := blockHeight } := hw.listed.congr rfl rfl
        exact UsedPaid.updateBalance (hset.writeTx _ (fun t => t.setBlock_txHash _ _))
          hw.chains hbal
  | removeTransaction txHash =>
      exact removeTransaction_state_invariant
        (fun _ txHash _ hw _ hbal =>
          UsedPaid.updateBalance (hw.listed.rmTx txHash) hw.chains hbal) hw h
  | unusedAddrs gapLimit internal =>
      obtain ⟨⟨w₁, addrs⟩, hun, hret⟩ := bind_eq_ok.mp h
      cases hret
      obtain rfl := unusedAddrs_ok hun
      exact hw.grow

theorem UsedPaid.run
    {calls : List Call} {log : List Event}
    (hw : UsedPaid w)
    (h : runCalls fuel w calls = .ok (w', log)) :
    UsedPaid w' :=
  run_preserves (fun _ _ _ _ hw hs => hw.step hs) hw h

theorem UsedPaid.new
    {txs : List BRTransaction} {mpk : BRMasterPubKey}
    (h : BRWallet.new fuel now txs mpk = .ok (some w)) :
    UsedPaid w := by
  have hempty : Listed (.empty mpk) := ⟨List.nodup_nil, by intro t ht; cases ht⟩
  have hload := hempty.loadTxs txs
  have hchains : ∀ (txs : List BRTransaction) (w : BRWallet) (internal : Bool),
      (txs.foldl BRWallet.loadTx w).chain internal = w.chain internal := by
    intro txs
    induction txs with
    | nil =>
        intro w internal
        rfl
    | cons tx txs ih =>
        intro w internal
        rw [List.foldl_cons, ih, BRWallet.loadTx]
        split <;> rfl
  have hfilled : ChainsFilled (txs.foldl BRWallet.loadTx (.empty mpk)) := by
    intro internal
    rw [hchains]
    cases internal <;> exact List.not_mem_nil
  have hlisted : Listed ((txs.foldl BRWallet.loadTx (.empty mpk)).filled fuel) :=
    hload.congr rfl rfl
  exact UsedPaid.updateBalance hlisted hfilled.filled (new_cases h)

end Used

/-! ## Invariants of the chains -/

section Chains

variable {now : Int} {fuel : Nat} {w w' : BRWallet}

/-- The chains are the same in both states. -/
structure SameChains (w w' : BRWallet) : Prop where
  key : w'.masterPubKey = w.masterPubKey
  chains : ∀ internal, w'.chain internal = w.chain internal
  addrs : w'.allAddrs = w.allAddrs

/-- A property of the chains that new addresses keep. -/
structure ChainInvariant (I : BRWallet → Prop) : Prop where
  congr : ∀ {w w' : BRWallet}, I w → SameChains w w' → I w'
  grow : ∀ {w : BRWallet} (fuel gapLimit : Nat) (internal : Bool), I w →
    I (w.growChain internal (w.newAddrs fuel gapLimit internal))

namespace ChainInvariant

variable {I : BRWallet → Prop}

theorem updateBalance
    (hI : ChainInvariant I)
    (hw : I w)
    (h : w.updateBalance now = .ok w') :
    I w' := by
  obtain ⟨L, rfl⟩ := updateBalance_frame h
  exact hI.congr hw ⟨rfl, fun _ => rfl, rfl⟩

theorem updateTx
    {blockHeight timestamp : UInt32} {s s' : BRWallet.Sweep} {txHash : UInt256}
    (hI : ChainInvariant I)
    (hw : I s.wallet)
    (h : BRWallet.updateTx blockHeight timestamp s txHash = .ok s') :
    I s'.wallet := by
  cases updateTx_cases h with
  | skipped _ =>
      exact hw
  | moved _ _ _ =>
      refine hI.congr hw ⟨?_, fun _ => ?_, ?_⟩ <;> split <;> rfl
  | freed _ _ _ _ _ =>
      exact hI.congr hw ⟨rfl, fun _ => rfl, rfl⟩
  | foreign _ _ _ _ =>
      exact hI.congr hw ⟨rfl, fun _ => rfl, rfl⟩

/-- One call. -/
theorem step
    {c : Call} {events : List Event}
    (hI : ChainInvariant I)
    (hw : I w)
    (h : step fuel w c = .ok (w', events)) :
    I w' := by
  obtain ⟨now, op⟩ := c
  cases op with
  | registerTransaction tx =>
      obtain ⟨⟨w₁, es, r⟩, hreg, hret⟩ := bind_eq_ok.mp h
      cases hret
      cases registerTransaction_cases hreg with
      | unsigned _ =>
          exact hw
      | known _ _ =>
          exact hw
      | added _ _ _ hbal =>
          have hadd : I ((w.addTx tx).insertTx tx) := hI.congr hw ⟨rfl, fun _ => rfl, rfl⟩
          exact hI.grow _ _ _ (hI.grow _ _ _ (hI.updateBalance hadd hbal))
      | refused _ _ _ =>
          refine hI.congr hw ⟨?_, fun _ => ?_, ?_⟩ <;> split <;> rfl
  | updateTransactions txHashes blockHeight timestamp =>
      obtain ⟨s, hs, -, hend⟩ := updateTransactions_cases h
      have hraise : I (w.raiseHeight blockHeight) := by
        rw [BRWallet.raiseHeight]
        split
        · exact hI.congr hw ⟨rfl, fun _ => rfl, rfl⟩
        · exact hw
      have hloop : I s.wallet :=
        foldlM_invariant (I := fun s => I s.wallet)
          (fun _ _ _ _ hs hstep => hI.updateTx hs hstep) hraise hs
      rcases hend with ⟨-, hbal⟩ | ⟨-, rfl⟩
      · exact hI.updateBalance hloop hbal
      · exact hloop
  | setTxUnconfirmedAfter blockHeight =>
      rcases setTxUnconfirmedAfter_cases h with ⟨-, rfl, -⟩ | ⟨-, hbal, -⟩
      · exact hI.congr hw ⟨rfl, fun _ => rfl, rfl⟩
      · refine hI.updateBalance ?_ hbal
        exact hI.congr hw ⟨rfl, fun _ => rfl, rfl⟩
  | removeTransaction txHash =>
      exact removeTransaction_state_invariant
        (fun w txHash _ (hw : I w) _ hbal =>
          hI.updateBalance (w := w.rmTx txHash) (hI.congr hw ⟨rfl, fun _ => rfl, rfl⟩) hbal) hw h
  | unusedAddrs gapLimit internal =>
      obtain ⟨⟨w₁, addrs⟩, hun, hret⟩ := bind_eq_ok.mp h
      cases hret
      obtain rfl := unusedAddrs_ok hun
      exact hI.grow _ _ _ hw

/-- Every run keeps the property. -/
theorem run
    {calls : List Call} {log : List Event}
    (hI : ChainInvariant I)
    (hw : I w)
    (h : runCalls fuel w calls = .ok (w', log)) :
    I w' :=
  run_preserves (fun _ _ _ _ hw hs => hI.step hw hs) hw h

/-- A new wallet has the property if one without addresses has it. -/
theorem new
    {txs : List BRTransaction} {mpk : BRMasterPubKey}
    (hI : ChainInvariant I)
    (hempty : I (.empty mpk))
    (h : BRWallet.new fuel now txs mpk = .ok (some w)) :
    I w := by
  have hload : ∀ (txs : List BRTransaction) (w : BRWallet),
      I w → I (txs.foldl BRWallet.loadTx w) := by
    intro txs
    induction txs with
    | nil =>
        intro w hw
        exact hw
    | cons tx txs ih =>
        intro w hw
        refine ih _ ?_
        rw [BRWallet.loadTx]
        split
        · exact hw
        · exact hI.congr hw ⟨rfl, fun _ => rfl, rfl⟩
  exact hI.updateBalance (hI.grow _ _ _ (hI.grow _ _ _ (hload txs _ hempty))) (new_cases h)

end ChainInvariant

/-! ## All addresses are those of the chains -/

/-- Each address of `allAddrs` is in one of the chains. -/
def AddrsListed (w : BRWallet) : Prop :=
  ∀ address ∈ w.allAddrs, ∃ internal, address ∈ w.chain internal

theorem AddrsListed.growChain
    (hw : AddrsListed w) (internal : Bool) (new : List Address) :
    AddrsListed (w.growChain internal new) := by
  intro address haddress
  rw [growChain_allAddrs, Finset.mem_union, List.mem_toFinset] at haddress
  rcases haddress with hold | hnew
  · obtain ⟨other, hmem⟩ := hw address hold
    refine ⟨other, ?_⟩
    cases internal <;> cases other <;>
      simp_all [BRWallet.growChain, BRWallet.chain]
  · refine ⟨internal, ?_⟩
    cases internal <;> simp [BRWallet.growChain, BRWallet.chain, hnew]

theorem addrsListed_chainInvariant : ChainInvariant AddrsListed where
  congr := by
    intro w w' hw hsame address haddress
    rw [hsame.addrs] at haddress
    obtain ⟨internal, hmem⟩ := hw address haddress
    exact ⟨internal, (hsame.chains internal).symm ▸ hmem⟩
  grow := fun _ _ internal hw => hw.growChain internal _

theorem AddrsListed.run
    {calls : List Call} {log : List Event}
    (hw : AddrsListed w)
    (h : runCalls fuel w calls = .ok (w', log)) :
    AddrsListed w' :=
  addrsListed_chainInvariant.run hw h

theorem AddrsListed.new
    {txs : List BRTransaction} {mpk : BRMasterPubKey}
    (h : BRWallet.new fuel now txs mpk = .ok (some w)) :
    AddrsListed w := by
  refine addrsListed_chainInvariant.new ?_ h
  intro address haddress
  cases haddress

end Chains

/-! ## Reuse -/

section Reuse

variable {w : BRWallet}

theorem noReuse_iff
    (hw : UsedPaid w) :
    NoReuse w ↔ PaidUnmarked w := by
  have hused : ∀ addr, w.addressIsUsed addr = true ↔ addr ≠ [] ∧ PaidBy w addr := by
    intro addr
    rw [BRWallet.addressIsUsed, decide_eq_true_eq]
    exact hw.used addr
  constructor
  · intro h tx htx _ addr hne hpays
    exact ((hused addr).mp ((h.used_iff addr hne).mpr ⟨tx, htx, hpays⟩)).2
  · intro h
    have hpaid : ∀ addr, addr ≠ [] → (∃ tx ∈ w.transactions, Pays tx addr) → PaidBy w addr := by
      rintro addr hne ⟨tx, htx, hpays⟩
      by_cases hmarks : Unmarked w tx
      · exact ⟨tx, htx, hmarks, hpays⟩
      · exact h tx htx hmarks addr hne hpays
    refine ⟨fun addr hne => ?_, fun fuel gapLimit internal w' addrs hun addr haddr tx htx hpays => ?_⟩
    · rw [hused]
      constructor
      · rintro ⟨-, tx, htx, -, hpays⟩
        exact ⟨tx, htx, hpays⟩
      · exact fun hex => ⟨hne, hpaid addr hne hex⟩
    · obtain ⟨hunused, hmem⟩ := unusedAddrs_unused hun addr haddr
      have hne : addr ≠ [] := by
        obtain rfl := unusedAddrs_ok hun
        rintro rfl
        exact hw.chains.growChain internal hmem
      exact hunused ((hw.used addr).mpr ⟨hne, hpaid addr hne ⟨tx, htx, hpays⟩⟩)

/-- **Address reuse.**  In every state reached from `BRWalletNew`, the used
addresses are those that registered transactions pay, and none of them is given
out again, if and only if no pending or invalid transaction pays an address
that no other transaction pays. -/
theorem run_noReuse_iff
    {fuel : Nat} {t₀ : Int} {w₀ : BRWallet} {txs : List BRTransaction}
    {mpk : BRMasterPubKey} {calls : List Call} {log : List Event}
    (hnew : BRWallet.new fuel t₀ txs mpk = .ok (some w₀))
    (hrun : runCalls fuel w₀ calls = .ok (w, log)) :
    NoReuse w ↔ PaidUnmarked w :=
  noReuse_iff ((UsedPaid.new hnew).run hrun)

theorem run_noReuse_sample :
    NoReuse (sampleRun (sampleNew [samplePayment]) []).1 := by
  refine (@run_noReuse_iff _ 20 0 (sampleNew [samplePayment]) [samplePayment] sampleKey [] _
    rfl rfl).mpr ?_
  intro tx htx hmarks
  obtain rfl : tx = samplePayment := List.mem_singleton.mp htx
  exact absurd ⟨by decide, by decide⟩ hmarks

/-- A replaceable payment to the first receive address. -/
def replaceableReceipt : BRTransaction :=
  sampleTx 1 [⟨97, 0⟩] [1, 0] 50000 txUnconfirmed 0

/-- The receive address is given out again behind the payment. -/
theorem replaceableReceipt_reused :
    BRWallet.new 20 0 [] sampleKey = .ok (some (sampleNew [])) ∧
      ∃ w log w', runCalls 20 (sampleNew []) [⟨0, .registerTransaction replaceableReceipt⟩] =
          .ok (w, log) ∧
        replaceableReceipt ∈ w.transactions ∧ Pays replaceableReceipt [1, 0] ∧
        w.addressIsUsed [1, 0] = false ∧
        w.unusedAddrs 20 1 false = .ok (w', [[1, 0]]) ∧ ¬ NoReuse w := by
  refine ⟨rfl, (sampleRun (sampleNew []) [⟨0, .registerTransaction replaceableReceipt⟩]).1, _, _,
    rfl, by decide, ⟨_, List.mem_cons_self, rfl⟩, by decide, rfl, fun h => ?_⟩
  have hused := (h.used_iff [1, 0] (by simp)).mpr
    ⟨replaceableReceipt, by decide, _, List.mem_cons_self, rfl⟩
  revert hused
  decide

end Reuse

end BreadwalletCore
