import BreadwalletCore.Wallet.Accounting
import BreadwalletCore.Wallet.CreateTx

/-!
# The UTXO set against its specification

`utxos` is meant to hold the wallet outputs of the counted transactions that no
listed, non-invalid transaction spends.  The pass strikes spent outputs off
only when it counts a transaction.  A pending transaction adds its inputs to
`spentOutputs` and goes to the next iteration, so what it spends stays in
`utxos` unless some later transaction is counted.
-/

namespace BreadwalletCore

open CoinBook

/-- A pending transaction with no counted one behind it spends a wallet output
of a counted transaction. -/
def TailSpends (now : Int) (w : BRWallet) : Prop :=
  ∃ pre t post, w.transactions = pre ++ t :: post ∧
    verdictBehind now w pre t = .pending ∧
    (∀ mid u rest, post = mid ++ u :: rest →
      verdictBehind now w (pre ++ t :: mid) u ≠ .counted) ∧
    ∃ pre' u post', w.transactions = pre' ++ u :: post' ∧
      verdictBehind now w pre' u = .counted ∧
      ∃ c ∈ credits w.allAddrs u, c.1 ∈ t.outpoints

/-- The outpoint is an output of `tx` to an address of the wallet. -/
def IsWalletOutput (w : BRWallet) (tx : BRTransaction) (o : BRUTXO) : Prop :=
  ∃ j out, tx.outputs[j]? = some out ∧ out.address ≠ [] ∧
    out.address ∈ w.allAddrs ∧ o = ⟨tx.txHash, UInt32.ofNat j⟩

/-- No listed transaction outside `invalidTx` spends the outpoint. -/
def Unspent (w w' : BRWallet) (o : BRUTXO) : Prop :=
  ∀ s ∈ w.transactions, s.txHash ∉ w'.invalidTx → o ∉ s.outpoints

/-- The ledger of `w'` agrees with the specification on the list of `w`, and no
transaction created from it spends an output twice. -/
structure UtxosMatch (w w' : BRWallet) : Prop where
  mem_iff : ∀ o, o ∈ w'.utxos ↔
    ∃ tx ∈ w.transactions, tx.txHash ∉ w'.invalidTx ∧ tx.txHash ∉ w'.pendingTx ∧
      IsWalletOutput w tx o ∧ Unspent w w' o
  not_spent : ∀ o ∈ w'.utxos, o ∉ w'.spentOutputs
  created : ∀ codec shuffle fuel outputs t w'',
    w'.createTxForOutputs codec shuffle fuel outputs = .ok (some t, w'') →
      ∀ i ∈ t.inputs, Unspent w w' i.outpoint

section Spec

variable {now : Int} {w : BRWallet}

/-- A pending verdict excludes inputs that are spent already. -/
theorem judgeTx_pending
    {blockHeight : UInt32} {s : Finset BRUTXO} {i p : Finset UInt256}
    {tx : BRTransaction}
    (h : judgeTx now blockHeight s i p tx = .pending) :
    Disjoint tx.outpoints.toFinset s := by
  have hvalid : isInvalid s i tx = false := by
    rw [judgeTx] at h
    split at h
    · cases h
    · split at h
      · rename_i hinv hpend
        simp_all
      · cases h
  rw [Finset.disjoint_left]
  intro o ho hs
  obtain ⟨input, hinput, rfl⟩ := List.mem_map.mp (List.mem_toFinset.mp ho)
  have := List.any_eq_false.mp hvalid input hinput
  simp [hs] at this

/-- A coin that is spent and still in the book is spent by a pending
transaction behind the last counted one, and conversely. -/
theorem spent_coin_iff_tailSpends :
    (∃ c ∈ (walletBook now w.blockHeight w.allAddrs w.transactions).coins,
      c.1 ∈ (walletBook now w.blockHeight w.allAddrs w.transactions).spent) ↔
      TailSpends now w := by
  constructor
  · rintro ⟨c, hc, hspent⟩
    obtain ⟨⟨u, hu, hcu⟩, hset⟩ := (mem_coins _).mp hc
    rcases (mem_spent_iff_settled _ _ _).mp hspent with h | h
    · exact absurd h hset
    · obtain ⟨pre, t, post, hl, hv, ho, htail⟩ := h
      obtain ⟨pre', u', post', hl', hv', rfl⟩ := (mem_counted _ _ _).mp hu
      exact ⟨pre, t, post, hl, hv, htail, pre', u', post', hl', hv', c, hcu,
        List.mem_toFinset.mp ho⟩
  · rintro ⟨pre, t, post, hl, hv, htail, pre', u, post', hl', hv', c, hcu, ho⟩
    have hpend : PendingTail (walletRules now w.blockHeight w.allAddrs)
        w.transactions c.1 :=
      ⟨pre, t, post, hl, hv, List.mem_toFinset.mpr ho, htail⟩
    have hset := not_mem_settled_of_pendingTail _
      (fun s i p tx h => judgeTx_pending h) hpend
    have hu : u ∈ (walletBook now w.blockHeight w.allAddrs w.transactions).counted :=
      (mem_counted _ _ _).mpr ⟨pre', u, post', hl', hv', rfl⟩
    exact ⟨c, (mem_coins _).mpr ⟨⟨u, hu, hcu⟩, hset⟩,
      (mem_spent_iff_settled _ _ _).mpr (Or.inr hpend)⟩

theorem isWalletOutput_iff
    {tx : BRTransaction} {o : BRUTXO} :
    IsWalletOutput w tx o ↔ ∃ c ∈ credits w.allAddrs tx, c.1 = o := by
  constructor
  · rintro ⟨j, out, hj, hne, hmem, rfl⟩
    exact ⟨_, mem_credits.mpr ⟨j, out, hj, hne, hmem, rfl⟩, rfl⟩
  · rintro ⟨c, hc, rfl⟩
    obtain ⟨j, out, hj, hne, hmem, rfl⟩ := mem_credits.mp hc
    exact ⟨j, out, hj, hne, hmem, rfl⟩

end Spec

section Results

variable {now : Int} {w : BRWallet}

/--
**When `utxos` is what it is meant to be.**  After `_BRWalletUpdateBalance` the
UTXO set agrees with its specification, and created transactions spend no
output twice, if and only if no pending transaction behind the last counted
one spends a wallet output of a counted transaction.
-/
theorem updateBalance_utxosMatch_iff
    (hw : Listed w) :
    ∃ w', w.updateBalance now = .ok w' ∧ (UtxosMatch w w' ↔ ¬ TailSpends now w) := by
  refine ⟨_, updateBalance_eq hw.known, ?_⟩
  set R := walletRules now w.blockHeight w.allAddrs with hR
  set w' : BRWallet :=
    { w with toLedger := ledgerOf now w.blockHeight w.allAddrs w.transactions } with hw'
  have hunspent : ∀ o, Unspent w w' o ↔ o ∉ (book R w.transactions).spent := by
    intro o
    rw [mem_spent_iff_not_invalid R hw.nodup]
    constructor
    · rintro h ⟨t, ht, hinv, ho⟩
      exact h t ht hinv (List.mem_toFinset.mp ho)
    · intro h s hs hinv ho
      exact h ⟨s, hs, hinv, List.mem_toFinset.mpr ho⟩
  rw [← spent_coin_iff_tailSpends]
  constructor
  · rintro hmatch ⟨c, hc, hspent⟩
    exact hmatch.not_spent c.1 (List.mem_map_of_mem hc) hspent
  · intro hnone
    have hnot : ∀ o ∈ w'.utxos, o ∉ (book R w.transactions).spent := by
      intro o ho hspent
      obtain ⟨c, hc, rfl⟩ := List.mem_map.mp ho
      exact hnone ⟨c, hc, hspent⟩
    refine ⟨?_, hnot, ?_⟩
    · intro o
      rw [hunspent o]
      constructor
      · intro ho
        obtain ⟨c, hc, rfl⟩ := List.mem_map.mp ho
        obtain ⟨⟨t, ht, hct⟩, -⟩ := (mem_coins R).mp hc
        obtain ⟨hmem, hinv, hpend⟩ := (mem_counted_iff_unmarked R hw.nodup t).mp ht
        exact ⟨t, hmem, hinv, hpend, isWalletOutput_iff.mpr ⟨c, hct, rfl⟩,
          hnot c.1 ho⟩
      · rintro ⟨t, hmem, hinv, hpend, hout, hspent⟩
        obtain ⟨c, hct, rfl⟩ := isWalletOutput_iff.mp hout
        have ht := (mem_counted_iff_unmarked R hw.nodup t).mpr ⟨hmem, hinv, hpend⟩
        have hset : c.1 ∉ (book R w.transactions).settled :=
          fun h => hspent (settled_subset_spent R _ h)
        exact List.mem_map_of_mem ((mem_coins R).mpr ⟨⟨t, ht, hct⟩, hset⟩)
    · intro codec shuffle fuel outputs t w'' hcreate i hi
      exact (hunspent _).mpr (hnot _ (createTxForOutputs_inputs hcreate i hi))

theorem updateBalance_utxosMatch_sample :
    ∃ w', sampleWallet.updateBalance 0 = .ok w' ∧ UtxosMatch sampleWallet w' := by
  obtain ⟨w', hok, hiff⟩ := @updateBalance_utxosMatch_iff 0 sampleWallet sampleWallet_listed
  refine ⟨w', hok, hiff.mpr ?_⟩
  rintro ⟨pre, t, post, hl, hv, -⟩
  have ht : t ∈ sampleWallet.transactions := by simp [hl]
  have hconf : ∀ t ∈ sampleWallet.transactions, t.blockHeight ≠ txUnconfirmed := by decide
  rw [verdictBehind, verdictAt, Rules.verdict] at hv
  change judgeTx _ _ _ _ _ t = _ at hv
  rw [judgeTx_confirmed (hconf t ht)] at hv
  cases hv

/-- A replaceable spend of the sample payment. -/
def replaceableSpend : BRTransaction :=
  sampleTx 3 [⟨1, 0⟩] [9, 9] 40000 txUnconfirmed 0

/-- A confirmed payment, and behind it the pending transaction that spends it. -/
def tailWallet : BRWallet :=
  { sampleWallet with
    transactions := [samplePayment, replaceableSpend]
    allTx := [samplePayment, replaceableSpend] }

/-- Scripts that are addresses. -/
def sampleCodec : ScriptCodec where
  addressFromScriptPubKey script := script
  addressFromScriptSig script := script
  addressScriptPubKey address := address

theorem tailWallet_not_utxosMatch :
    Listed tailWallet ∧
    ∃ w' t w'', tailWallet.updateBalance 0 = .ok w' ∧
      replaceableSpend.txHash ∉ w'.invalidTx ∧
      w'.createTxForOutputs sampleCodec id 9
        [{ address := [9], amount := 20000, script := [9] }] = .ok (some t, w'') ∧
      (∃ i ∈ t.inputs, i.outpoint ∈ replaceableSpend.outpoints) ∧
      ¬ UtxosMatch tailWallet w' := by
  refine ⟨⟨by decide, by decide⟩, _, _, _, rfl, by decide, rfl, ?_, ?_⟩
  · decide
  · intro h
    exact h.not_spent ⟨1, 0⟩ (by decide) (by decide)

end Results

end BreadwalletCore
