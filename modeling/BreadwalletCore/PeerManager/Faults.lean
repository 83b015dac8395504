import BreadwalletCore.PeerManager.BlockTree

/-!
# How a relayed block can fail

Where a call of `_peerRelayedBlock` does not return, the fault comes from the
wallet, from the arithmetic of the difficulty check, or from a block pointer:
`lastBlock` is `NULL`, or a walk through the stored blocks falls off them.
-/

namespace BreadwalletCore

open Machine Ancestry

theorem callWallet_error
    {α : Type} {x : Except Fault α} {e : ManagerFault}
    (h : callWallet x = .error e) :
    ∃ f, e = .wallet f := by
  cases x with
  | error f =>
      cases h
      exact ⟨f, rfl⟩
  | ok a =>
      cases h

/-- How a walk through the stored blocks fails. -/
theorem BlockSet.walkDown_error
    {blocks : BlockSet} {height n : ℕ} {b : Option ChainBlock} {e : ManagerFault}
    (h : blocks.walkDown height n b = .error e) :
    e = .outOfFuel := by
  induction n generalizing b with
  | zero =>
      cases h
      rfl
  | succ n ih =>
      cases b with
      | none =>
          cases h
      | some b =>
          rw [walkDown] at h
          split at h
          · exact ih h
          · cases h

theorem BlockSet.joinLoop_error
    {blocks : BlockSet} {n : ℕ} {b b2 : Option ChainBlock} {e : ManagerFault}
    (h : blocks.joinLoop n b b2 = .error e) :
    e = .outOfFuel := by
  induction n generalizing b b2 with
  | zero =>
      cases h
      rfl
  | succ n ih =>
      cases b with
      | none =>
          cases h
      | some b =>
          cases b2 with
          | none =>
              cases h
          | some b2 =>
              rw [joinLoop] at h
              split at h
              · cases h
              · split at h
                · cases h
                · exact ih h

theorem BlockStore.freeLoop_error
    {interval n : ℕ} {prevBlock : UInt256} {s : BlockStore} {e : ManagerFault}
    (h : freeLoop interval n prevBlock s = .error e) :
    e = .outOfFuel := by
  induction n generalizing prevBlock s with
  | zero =>
      cases h
      rfl
  | succ n ih =>
      rw [freeLoop] at h
      split at h
      · cases h
      · exact ih h

theorem BRWallet.replayLoop_error
    {now : ℕ} {blocks : BlockSet} {joinHeight n : ℕ} {b : Option ChainBlock} {w : BRWallet}
    {e : ManagerFault}
    (h : w.replayLoop now blocks joinHeight n b = .error e) :
    e = .outOfFuel ∨ ∃ f, e = .wallet f := by
  induction n generalizing b w with
  | zero =>
      cases h
      exact Or.inl rfl
  | succ n ih =>
      cases b with
      | none =>
          cases h
      | some b =>
          rw [replayLoop] at h
          split at h
          · dsimp only at h
            split at h
            · exact ih h
            · rcases bind_eq_error.mp h with hw | ⟨⟨w₁, es⟩, -, h⟩
              · exact Or.inr (callWallet_error hw)
              · rcases bind_eq_error.mp h with h | ⟨p, -, h⟩
                · exact ih h
                · cases h
          · cases h

namespace BRPeerManager

variable {env : Env} {m m' : BRPeerManager} {peer : BRPeer} {block prev last : ChainBlock}
variable {es : List ManagerEvent} {r : Handled} {e : ManagerFault}

theorem last_error
    (h : m.last = .error e) :
    m.lastBlock = none ∧ e = .nullBlock := by
  rw [BRPeerManager.last] at h
  split at h
  · cases h
  · rename_i hnone
    cases h
    exact ⟨hnone, rfl⟩

theorem loadBloomFilter_error
    (h : m.loadBloomFilter env peer = .error e) :
    (∃ f, e = .wallet f) ∨ m.lastBlock = none ∧ e = .nullBlock := by
  rcases bind_eq_error.mp h with hw | ⟨w, -, h⟩
  · exact Or.inl (callWallet_error hw)
  · rcases bind_eq_error.mp h with hl | ⟨b, -, h⟩
    · exact Or.inr (last_error hl)
    · cases h

theorem completeDownload_error
    {saveCount : ℕ}
    (hlast : m.lastBlock = some last)
    (h : m.completeDownload env block saveCount = .error e) :
    ∃ f, e = .wallet f := by
  rw [completeDownload] at h
  split at h
  · rcases bind_eq_error.mp h with h | ⟨m₁, -, h⟩
    · obtain ⟨m₁, p, -, hm₁, hstep⟩ := foldlM_error
        (I := fun m' : BRPeerManager => m'.lastBlock = some last)
        (by
          intro m₁ p _ m₂ hm₁ hstep
          rw [loadMempool] at hstep
          split at hstep
          · exact (loadBloomFilter_ok hstep).1.store.lastBlock.trans hm₁
          · cases hstep
            exact hm₁) hlast h
      rw [loadMempool] at hstep
      split at hstep
      · rcases loadBloomFilter_error hstep with hw | ⟨hnone, -⟩
        · exact hw
        · rw [hm₁] at hnone
          cases hnone
      · cases hstep
    · cases h
  · cases h

theorem updateTx_error
    {txHashes : List UInt256} {blockHeight timestamp : UInt32}
    (h : m.updateTx env txHashes blockHeight timestamp = .error e) :
    ∃ f, e = .wallet f := by
  rcases bind_eq_error.mp h with h | ⟨p, -, h⟩
  · exact callWallet_error h
  · cases h

theorem confirmTxs_error
    (h : m.confirmTxs env block prev = .error e) :
    ∃ f, e = .wallet f := by
  rw [confirmTxs] at h
  split at h
  · cases h
  · exact updateTx_error h

theorem extendChain_error
    (h : m.extendChain env peer block prev = .error e) :
    ∃ f, e = .wallet f := by
  rcases bind_eq_error.mp h with h | ⟨⟨m₁, es⟩, hconf, h⟩
  · exact confirmTxs_error h
  · have hlast : m₁.lastBlock = some block := by
      rw [(confirmTxs_ok hconf).1.store]
    rcases bind_eq_error.mp h with h | ⟨p, -, h⟩
    · have hlast' : ∀ c : Prop, ∀ [Decidable c],
          (if c then { m₁ with connectFailureCount := 0 } else m₁).lastBlock = some block := by
        intro c _
        split <;> exact hlast
      exact completeDownload_error (hlast' _) h
    · cases h

/-- How the handling of a block fails: inside a wallet call or the difficulty
check, without a `lastBlock`, or on a walk. -/
inductive HandleError (env : Env) (m : BRPeerManager) (block : ChainBlock) :
    ManagerFault → Prop where
  | wallet (f : Fault) : HandleError env m block (.wallet f)
  | arithmetic (f : ArithmeticFault) : HandleError env m block (.arithmetic f)
  | noLast : m.lastBlock = none → HandleError env m block .nullBlock
  | free {prev t : ChainBlock} :
      m.blocks.get block.prevBlock = some prev →
      m.toBlockStore.previousTransition block = some t →
      BlockStore.freeLoop (transitionInterval block.height) (m.blocks.length + 1) t.prevBlock
        m.toBlockStore = .error .outOfFuel →
      HandleError env m block .outOfFuel
  | walk {prev last b : ChainBlock} {s : BlockStore} {e : ManagerFault} :
      m.blocks.get block.prevBlock = some prev →
      m.toBlockStore.verifyBlock block prev = .ok (s, true) →
      m.lastBlock = some last → s.blocks.get block.blockHash = some b →
      (s.blocks.walkDown block.height (s.blocks.length + 2) (some last) = .error e ∨
        s.blocks.walkDown block.height (s.blocks.length + 2) (some last) = .ok none ∧
          e = .nullBlock) →
      HandleError env m block e
  | join {prev last : ChainBlock} {s : BlockStore} {blocks : BlockSet} {e : ManagerFault} :
      m.blocks.get block.prevBlock = some prev →
      m.toBlockStore.verifyBlock block prev = .ok (s, true) →
      m.lastBlock = some last → last.height < block.height →
      blocks = KeyedList.add (·.blockHash) s.blocks block →
      (blocks.joinLoop (blocks.length + 1) (some block) (some last) = .error e ∨
        (∃ b2, blocks.joinLoop (blocks.length + 1) (some block) (some last) = .ok (none, b2)) ∧
          e = .nullBlock ∨
        (∃ j b2 w, blocks.joinLoop (blocks.length + 1) (some block) (some last) =
            .ok (some j, some b2) ∧
          BRWallet.replayLoop env.now blocks b2.height (blocks.length + 1) (some block) w =
            .error e)) →
      HandleError env m block e

theorem verifyBlock_error
    (hprev : m.blocks.get block.prevBlock = some prev)
    (h : m.toBlockStore.verifyBlock block prev = .error e) :
    HandleError env m block e := by
  rcases bind_eq_error.mp h with h | ⟨⟨s, found⟩, -, h⟩
  · rw [BlockStore.passTransition] at h
    split at h
    · split at h
      · cases h
      · rename_i t ht
        rcases bind_eq_error.mp h with h | ⟨s, -, h⟩
        · obtain rfl := BlockStore.freeLoop_error h
          exact .free hprev ht h
        · cases h
    · cases h
  · dsimp only at h
    split at h
    · rcases bind_eq_error.mp h with h | ⟨p, -, h⟩
      · generalize hv : DifficultyCall.verify ⟨block, prev, s.blocks⟩ s.pastCount = v at h
        cases v with
        | error f =>
            cases h
            exact .arithmetic f
        | ok p =>
            cases h
      · cases h
    · cases h

theorem relayExisting_error
    (h : m.relayExisting env block prev last = .error e) :
    (∃ f, e = .wallet f) ∨
      m.blocks.walkDown block.height (m.blocks.length + 2) (some last) = .error e ∨
      m.blocks.walkDown block.height (m.blocks.length + 2) (some last) = .ok none ∧
        e = .nullBlock := by
  rcases bind_eq_error.mp h with h | ⟨b, hwalk, h⟩
  · exact Or.inr (Or.inl h)
  · cases b with
    | none =>
        cases h
        exact Or.inr (Or.inr ⟨hwalk, rfl⟩)
    | some b =>
        rcases bind_eq_error.mp h with h | ⟨p, -, h⟩
        · split at h
          · rcases bind_eq_error.mp h with h | ⟨p, -, h⟩
            · exact Or.inl (confirmTxs_error h)
            · cases h
          · cases h
        · cases h

theorem reorganize_error
    (h : m.reorganize env block last = .error e) :
    (∃ f, e = .wallet f) ∨
      m.blocks.joinLoop (m.blocks.length + 1) (some block) (some last) = .error e ∨
      (∃ b2, m.blocks.joinLoop (m.blocks.length + 1) (some block) (some last) =
        .ok (none, b2)) ∧ e = .nullBlock ∨
      (∃ j b2 w, m.blocks.joinLoop (m.blocks.length + 1) (some block) (some last) =
          .ok (some j, some b2) ∧
        BRWallet.replayLoop env.now m.blocks b2.height (m.blocks.length + 1) (some block) w =
          .error e) := by
  rcases bind_eq_error.mp h with h | ⟨⟨j, b2⟩, hj, h⟩
  · exact Or.inr (Or.inl h)
  · cases j with
    | none =>
        cases h
        exact Or.inr (Or.inr (Or.inl ⟨⟨b2, hj⟩, rfl⟩))
    | some j =>
        rcases bind_eq_error.mp h with h | ⟨⟨w, es⟩, -, h⟩
        · exact Or.inl (callWallet_error h)
        · rcases bind_eq_error.mp h with h | ⟨⟨w', es'⟩, -, h⟩
          · cases b2 with
            | none =>
                cases h
            | some b2 =>
                exact Or.inr (Or.inr (Or.inr ⟨j, b2, w, hj, h⟩))
          · rcases bind_eq_error.mp h with h | ⟨p, -, h⟩
            · have hlast : ({ m with wallet := w', lastBlock := some block } :
                  BRPeerManager).toBlockStore.lastBlock = some block := by
                rfl
              exact Or.inl (completeDownload_error hlast h)
            · cases h

theorem relayValid_error
    {s : BlockStore}
    (hprev : m.blocks.get block.prevBlock = some prev)
    (hverify : m.toBlockStore.verifyBlock block prev = .ok (s, true))
    (h : BRPeerManager.relayValid env { m with toBlockStore := s } peer block prev = .error e) :
    HandleError env m block e := by
  have hlast := (BlockStore.verifyBlock_ok hverify).1.lastBlock
  rcases bind_eq_error.mp h with h | ⟨last, hl, h⟩
  · obtain ⟨hnone, rfl⟩ := last_error h
    exact .noLast (hlast.symm.trans hnone)
  have hl := hlast.symm.trans (last_ok hl)
  split at h
  · obtain ⟨f, rfl⟩ := extendChain_error h
    exact .wallet f
  · split at h
    · rename_i hstored
      obtain ⟨b, hb⟩ := Option.isSome_iff_exists.mp hstored
      rcases relayExisting_error h with ⟨f, rfl⟩ | hwalk
      · exact .wallet f
      · exact .walk hprev hverify hl hb hwalk
    · split at h
      · cases h
      · split at h
        · cases h
        · rw [relayFork] at h
          split at h
          · rename_i hhigh
            rcases reorganize_error h with ⟨f, rfl⟩ | hjoin
            · exact .wallet f
            · exact .join hprev hverify hl hhigh rfl hjoin
          · cases h

theorem handleBlock_error
    (h : m.handleBlock env peer block = .error e) :
    HandleError env m block e := by
  rw [handleBlock] at h
  split at h
  · cases h
  · split at h
    · rcases bind_eq_error.mp h with h | ⟨syncing, -, h⟩
      · rw [isSyncing] at h
        split at h
        · rcases bind_eq_error.mp h with h | ⟨b, -, h⟩
          · obtain ⟨hnone, rfl⟩ := last_error h
            exact .noLast hnone
          · cases h
        · cases h
      · cases h
    · split at h
      · rcases bind_eq_error.mp h with h | ⟨b, -, h⟩
        · obtain ⟨hnone, rfl⟩ := last_error h
          exact .noLast hnone
        · split at h <;> cases h
      · rename_i prev hprev
        rcases bind_eq_error.mp h with h | ⟨⟨s, valid⟩, hverify, h⟩
        · exact verifyBlock_error hprev h
        · cases valid with
          | true =>
              exact relayValid_error hprev hverify h
          | false =>
              cases h

end BRPeerManager

end BreadwalletCore
