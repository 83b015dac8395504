import BreadwalletCore.Wallet.History

/-!
# The wallet's chain height

`wallet->blockHeight` is raised by `BRWalletUpdateTransactions` and reset by
`BRWalletSetTxUnconfirmedAfter`.  The peer manager also passes the marker
`TX_UNCONFIRMED` to the former, for relayed transactions that are in no block,
and the marker is compared and stored like a height.
-/

namespace BreadwalletCore

open Machine CoinBook

/-- The chain height that the calls so far tell: the height of the last reset,
raised by the heights of later updates other than `TX_UNCONFIRMED`. -/
def toldHeight (told : UInt32) (c : Call) : UInt32 :=
  match c.op with
  | .updateTransactions _ blockHeight _ =>
      if blockHeight ≠ txUnconfirmed ∧ blockHeight > told then blockHeight else told
  | .setTxUnconfirmedAfter blockHeight => blockHeight
  | _ => told

/-- Has an update passed `TX_UNCONFIRMED` since the last reset? -/
def passedMarker (passed : Bool) (c : Call) : Bool :=
  match c.op with
  | .updateTransactions _ blockHeight _ => passed || blockHeight = txUnconfirmed
  | .setTxUnconfirmedAfter _ => false
  | _ => passed

/-- The told height after a sequence of calls on a new wallet. -/
def chainHeight (calls : List Call) : UInt32 :=
  calls.foldl toldHeight 0

def markerPassed (calls : List Call) : Bool :=
  calls.foldl passedMarker false

/-- An unconfirmed transaction with a non-final input that is locked beyond the
next block. -/
structure HeightLocked (height : UInt32) (tx : BRTransaction) : Prop where
  unconfirmed : tx.blockHeight = txUnconfirmed
  nonFinal : ∃ i ∈ tx.inputs, i.sequence < txinSequence
  isHeight : tx.lockTime < txMaxLockHeight
  above : height.toNat + 1 < tx.lockTime.toNat

/-- The next pass puts every listed transaction locked beyond `height + 1` in
`pendingTx`. -/
def LockHeightRule (w : BRWallet) (height : UInt32) : Prop :=
  ∀ now, ∃ w', w.updateBalance now = .ok w' ∧
    ∀ tx ∈ w.transactions, HeightLocked height tx → tx.txHash ∈ w'.pendingTx

/-- No listed transaction locked beyond `height + 1` is a double spend. -/
def LockedValid (w : BRWallet) (height : UInt32) : Prop :=
  ∀ now pre tx post, w.transactions = pre ++ tx :: post → HeightLocked height tx →
    verdictBehind now w pre tx ≠ .invalid

section Height

variable {fuel : Nat} {w w' : BRWallet}

/-- What one call does to the height. -/
def nextHeight (blockHeight : UInt32) (c : Call) : UInt32 :=
  match c.op with
  | .updateTransactions _ h _ => if h > blockHeight then h else blockHeight
  | .setTxUnconfirmedAfter h => h
  | _ => blockHeight

theorem step_blockHeight
    {c : Call} {events : List Event}
    (hw : Listed w)
    (h : step fuel w c = .ok (w', events)) :
    w'.blockHeight = nextHeight w.blockHeight c := by
  obtain ⟨now, op⟩ := c
  cases op with
  | registerTransaction tx =>
      obtain ⟨⟨w₁, es, r⟩, hreg, hret⟩ := bind_eq_ok.mp h
      cases hret
      cases registerTransaction_cases hreg with
      | unsigned _ =>
          rfl
      | known _ _ =>
          rfl
      | added _ _ _ hbal =>
          obtain ⟨L, rfl⟩ := updateBalance_frame hbal
          rfl
      | refused _ _ _ =>
          split <;> rfl
  | updateTransactions txHashes blockHeight timestamp =>
      obtain ⟨s, hs, -, hend⟩ := updateTransactions_cases h
      have hinv := SweepInv.loop hw hs
      have hheight : s.wallet.blockHeight =
          nextHeight w.blockHeight
            ⟨now, .updateTransactions txHashes blockHeight timestamp⟩ := by
        simp only [hinv.height, BRWallet.raiseHeight, nextHeight]
        split <;> rfl
      rcases hend with ⟨-, hbal⟩ | ⟨-, rfl⟩
      · obtain ⟨L, rfl⟩ := updateBalance_frame hbal
        exact hheight
      · exact hheight
  | setTxUnconfirmedAfter blockHeight =>
      rcases setTxUnconfirmedAfter_cases h with ⟨-, rfl, -⟩ | ⟨-, hbal, -⟩
      · rfl
      · obtain ⟨L, rfl⟩ := updateBalance_frame hbal
        rfl
  | removeTransaction txHash =>
      refine removeTransaction_state_invariant
        (I := fun w' => w'.blockHeight = w.blockHeight) ?_ rfl h
      intro w₁ txHash w₂ hw₁ _ hbal
      obtain ⟨L, rfl⟩ := updateBalance_frame hbal
      exact hw₁
  | unusedAddrs gapLimit internal =>
      obtain ⟨⟨w₁, addrs⟩, hun, hret⟩ := bind_eq_ok.mp h
      cases hret
      obtain rfl := unusedAddrs_ok hun
      rfl

/-- The stored height: the told one, but at least `TX_UNCONFIRMED` once the
marker has been passed. -/
def storedHeight (told : UInt32) (passed : Bool) : UInt32 :=
  if passed ∧ told < txUnconfirmed then txUnconfirmed else told

theorem toNat_raise
    (h b : UInt32) :
    (if h > b then h else b).toNat = max h.toNat b.toNat := by
  split_ifs with hgt
  · have := UInt32.lt_iff_toNat_lt.mp hgt
    omega
  · have := mt UInt32.lt_iff_toNat_lt.mpr hgt
    omega

theorem storedHeight_toNat
    (told : UInt32) (passed : Bool) :
    (storedHeight told passed).toNat =
      max told.toNat (if passed then txUnconfirmed.toNat else 0) := by
  rw [storedHeight]
  cases passed with
  | false =>
      simp
  | true =>
      rw [max_comm, if_pos rfl, ← toNat_raise]
      simp

theorem storedHeight_step
    (told : UInt32) (passed : Bool) (c : Call) :
    nextHeight (storedHeight told passed) c =
      storedHeight (toldHeight told c) (passedMarker passed c) := by
  obtain ⟨now, op⟩ := c
  cases op with
  | updateTransactions txHashes h timestamp =>
      rw [← UInt32.toNat_inj]
      simp only [nextHeight, toldHeight, passedMarker, toNat_raise, storedHeight_toNat]
      by_cases hm : h = txUnconfirmed
      · simp only [hm, ne_eq, not_true_eq_false, false_and, if_false, decide_true,
          Bool.or_true, if_true]
        split_ifs <;> omega
      · simp only [hm, ne_eq, not_false_eq_true, true_and, decide_false, Bool.or_false,
          toNat_raise]
        omega
  | registerTransaction tx =>
      rfl
  | setTxUnconfirmedAfter h =>
      simp [nextHeight, storedHeight, toldHeight, passedMarker]
  | removeTransaction txHash =>
      rfl
  | unusedAddrs gapLimit internal =>
      rfl

/-- The stored height after a whole run. -/
theorem run_storedHeight
    {calls : List Call} {log : List Event} {told : UInt32} {passed : Bool}
    (hw : Listed w)
    (hstart : w.blockHeight = storedHeight told passed)
    (hrun : runCalls fuel w calls = .ok (w', log)) :
    w'.blockHeight =
      storedHeight (calls.foldl toldHeight told) (calls.foldl passedMarker passed) := by
  induction calls generalizing w log told passed with
  | nil =>
      cases hrun
      exact hstart
  | cons c calls ih =>
      obtain ⟨w₁, o, os, hs, hr, rfl⟩ := run_cons_ok hrun
      have hnext : w₁.blockHeight =
          storedHeight (toldHeight told c) (passedMarker passed c) := by
        rw [step_blockHeight hw hs, hstart, storedHeight_step]
      exact ih (hw.step hs) hnext hr

theorem storedHeight_eq_iff
    {told : UInt32} {passed : Bool} :
    storedHeight told passed = told ↔ passed = false ∨ txUnconfirmed ≤ told := by
  rw [storedHeight, UInt32.le_iff_toNat_le]
  cases passed with
  | false =>
      simp
  | true =>
      simp only [true_and, UInt32.lt_iff_toNat_lt, ← UInt32.toNat_inj]
      split_ifs with h
      · simp only [false_or]
        omega
      · simp only [false_or, true_iff]
        omega

theorem new_blockHeight
    {now : Int} {txs : List BRTransaction} {mpk : BRMasterPubKey}
    (h : BRWallet.new fuel now txs mpk = .ok (some w)) :
    w.blockHeight = 0 := by
  have hbal := new_cases h
  obtain ⟨L, rfl⟩ := updateBalance_frame hbal
  have hload : ∀ (txs : List BRTransaction) (w : BRWallet),
      (txs.foldl BRWallet.loadTx w).blockHeight = w.blockHeight := by
    intro txs
    induction txs with
    | nil =>
        intro w
        rfl
    | cons tx txs ih =>
        intro w
        rw [List.foldl_cons, ih, BRWallet.loadTx]
        split <;> rfl
  exact hload txs (.empty mpk)

/-- A non-final input with a lock height above the next block is pending. -/
theorem inputIsPending_of_lockHeight
    {now : Int} {blockHeight : UInt32} {tx : BRTransaction} {i : BRTxInput}
    (hseq : i.sequence < txinSequence)
    (hmax : tx.lockTime < txMaxLockHeight)
    (hlock : blockHeight.toNat + 1 < tx.lockTime.toNat) :
    inputIsPending now blockHeight tx i = true := by
  have hlt := tx.lockTime.toNat_lt
  have hadd : (blockHeight + 1).toNat = blockHeight.toNat + 1 := by
    have hone : UInt32.toNat 1 = 1 := rfl
    rw [UInt32.toNat_add, hone]
    exact Nat.mod_eq_of_lt (by omega)
  have hgt : tx.lockTime > blockHeight + 1 := by
    rw [gt_iff_lt, UInt32.lt_iff_toNat_lt, hadd]
    exact hlock
  simp [inputIsPending, hseq, hmax, hgt]

theorem HeightLocked.isPending
    {now : Int} {blockHeight : UInt32} {tx : BRTransaction}
    (h : HeightLocked blockHeight tx)
    (pendingTx : Finset UInt256) :
    isPending now blockHeight pendingTx tx = true := by
  obtain ⟨i, hi, hseq⟩ := h.nonFinal
  have hany : tx.inputs.any (fun i =>
      inputIsPending now blockHeight tx i || i.txHash ∈ pendingTx) = true := by
    rw [List.any_eq_true]
    exact ⟨i, hi, by simp [inputIsPending_of_lockHeight hseq h.isHeight h.above]⟩
  rw [BreadwalletCore.isPending, hany, Bool.or_true]

/-- A locked transaction is pending wherever it is not invalid. -/
theorem HeightLocked.verdict
    {now : Int} {pre : List BRTransaction} {tx : BRTransaction}
    (h : HeightLocked w.blockHeight tx)
    (hvalid : verdictBehind now w pre tx ≠ .invalid) :
    verdictBehind now w pre tx = .pending := by
  rw [verdictBehind, verdictAt, Rules.verdict] at hvalid ⊢
  change judgeTx _ _ _ _ _ tx ≠ _ at hvalid
  change judgeTx _ _ _ _ _ tx = _
  rw [judgeTx] at hvalid ⊢
  split
  · rename_i hinv
    rw [if_pos hinv] at hvalid
    exact absurd rfl hvalid
  · rw [h.isPending]
    simp [RawTransaction.isUnconfirmed, h.unconfirmed]

theorem lockHeightRule_iff
    (hw : Listed w) :
    LockHeightRule w w.blockHeight ↔ LockedValid w w.blockHeight := by
  constructor
  · intro hrule now pre tx post hl hlocked hinv
    have hmem : tx ∈ w.transactions := by simp [hl]
    obtain ⟨w', hbal, hpending⟩ := hrule now
    have hpend := hpending tx hmem hlocked
    rw [updateBalance_ledger hw hbal] at hpend
    have hverdict := (key_mem_pending_iff
      (walletRules now w.blockHeight w.allAddrs) hw.nodup hl).mp hpend
    rw [verdictBehind, hverdict] at hinv
    cases hinv
  · intro hvalid now
    refine ⟨_, updateBalance_eq hw.known, ?_⟩
    intro tx htx hlocked
    obtain ⟨pre, post, hl⟩ := List.append_of_mem htx
    exact (key_mem_pending_iff
      (walletRules now w.blockHeight w.allAddrs) hw.nodup hl).mpr
        (hlocked.verdict (hvalid now pre tx post hl hlocked))

/--
**When the stored height is a chain height.**  After a run from `BRWalletNew`
the stored height is the told one and every transaction locked beyond it is
pending after the next pass, if and only if no update has passed
`TX_UNCONFIRMED` since the last reset (or the told height has reached that
value) and no such transaction is a double spend.
-/
theorem run_blockHeight_iff
    {now : Int} {w₀ : BRWallet} {txs : List BRTransaction} {mpk : BRMasterPubKey}
    {calls : List Call} {log : List Event}
    (hnew : BRWallet.new fuel now txs mpk = .ok (some w₀))
    (hrun : runCalls fuel w₀ calls = .ok (w, log)) :
    (w.blockHeight = chainHeight calls ∧ LockHeightRule w (chainHeight calls)) ↔
      ((markerPassed calls = false ∨ txUnconfirmed ≤ chainHeight calls) ∧
        LockedValid w (chainHeight calls)) := by
  have hstored : w.blockHeight = storedHeight (chainHeight calls) (markerPassed calls) :=
    run_storedHeight (Listed.new hnew) (new_blockHeight hnew) hrun
  have hlisted : Listed w := (Listed.new hnew).run hrun
  rw [← storedHeight_eq_iff, ← hstored]
  refine and_congr_right (fun heq => ?_)
  rw [← heq]
  exact lockHeightRule_iff hlisted

/-- A reset and the confirmation of a payment. -/
def resetCalls : List Call :=
  [⟨0, .setTxUnconfirmedAfter 90⟩, ⟨0, .updateTransactions [1] 120 7⟩]

theorem run_blockHeight_sample :
    (sampleRun (sampleNew [samplePayment]) resetCalls).1.blockHeight = 120 := by
  have hconf : ∀ tx ∈ (sampleRun (sampleNew [samplePayment]) resetCalls).1.transactions,
      tx.blockHeight ≠ txUnconfirmed := by
    decide
  have hiff := @run_blockHeight_iff 20
    (sampleRun (sampleNew [samplePayment]) resetCalls).1 0
    (sampleNew [samplePayment]) [samplePayment] sampleKey resetCalls
    (sampleRun (sampleNew [samplePayment]) resetCalls).2 rfl rfl
  refine (hiff.mpr ⟨Or.inl rfl, ?_⟩).1
  intro now pre tx post hl hlocked
  exact absurd hlocked.unconfirmed (hconf tx (by rw [hl]; simp))

/-- An unconfirmed payment that is locked until height 200. -/
def lockedPayment : BRTransaction :=
  sampleTx 4 [⟨95, 0⟩] [1, 1] 50000 txUnconfirmed 0xfffffffe 200

/-- A reset to height 100, a relayed payment and the confirmation of its relay,
which passes the marker, and then the locked payment. -/
def relayCalls : List Call :=
  [⟨1600000000, .setTxUnconfirmedAfter 100⟩,
    ⟨1600000000, .registerTransaction (sampleTx 1 [⟨97, 0⟩] [1, 0] 50000 txUnconfirmed)⟩,
    ⟨1600000000, .updateTransactions [1] txUnconfirmed 1600000000⟩,
    ⟨1600000000, .registerTransaction lockedPayment⟩]

theorem relayCalls_blockHeight :
    BRWallet.new 20 0 [] sampleKey = .ok (some (sampleNew [])) ∧
    ∃ w log, runCalls 20 (sampleNew []) relayCalls = .ok (w, log) ∧
      chainHeight relayCalls = 100 ∧ w.blockHeight = txUnconfirmed ∧
      lockedPayment ∈ w.transactions ∧ lockedPayment.txHash ∉ w.invalidTx ∧
      lockedPayment.txHash ∉ w.pendingTx := by
  refine ⟨rfl, (sampleRun (sampleNew []) relayCalls).1, _, rfl, ?_, ?_, ?_, ?_, ?_⟩
  · decide
  · decide
  · decide
  · decide
  · decide

end Height

end BreadwalletCore
