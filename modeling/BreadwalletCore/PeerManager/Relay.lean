import BreadwalletCore.Data.Ancestry
import BreadwalletCore.PeerManager.Start
import BreadwalletCore.Wallet.Transitions

/-!
# What a relayed block can do

Inversion lemmas for the functions of `_peerRelayedBlock`: the blocks that
verification frees, the walks through the stored blocks, and one case for each
branch.
-/

namespace BreadwalletCore

open Machine Ancestry

/-! ## The stored blocks as a forest -/

namespace BlockSet

/-- The predecessor, where it is stored. -/
def parent (blocks : BlockSet) (b : ChainBlock) : Option ChainBlock :=
  blocks.get b.prevBlock

variable {blocks : BlockSet} {b b' : ChainBlock} {n : ℕ}

theorem back_eq_ancestor
    (blocks : BlockSet) (n : ℕ) (b : ChainBlock) :
    blocks.back n b = ancestor blocks.parent n b := by
  induction n generalizing b with
  | zero =>
      rfl
  | succ n ih =>
      rw [back, ancestor_succ, parent]
      cases blocks.get b.prevBlock with
      | none =>
          rfl
      | some p =>
          exact ih p

theorem get_hash
    {h : UInt256}
    (hget : blocks.get h = some b) :
    b.blockHash = h :=
  @KeyedList.key_of_get _ _ _ (fun b : ChainBlock => b.blockHash) _ _ _ hget

theorem mem_of_get
    {h : UInt256}
    (hget : blocks.get h = some b) :
    b ∈ blocks :=
  KeyedList.mem_of_get hget

theorem get_add
    (blocks : BlockSet) (b : ChainBlock) (h : UInt256) :
    BlockSet.get (KeyedList.add (·.blockHash) blocks b) h =
      if b.blockHash = h then some b else blocks.get h :=
  KeyedList.get_add _ _ _

theorem get_remove
    (blocks : BlockSet) (h h' : UInt256) :
    BlockSet.get (KeyedList.remove (·.blockHash) blocks h') h =
      if h = h' then none else blocks.get h :=
  KeyedList.get_remove _ _ _

theorem getPrev_add
    (orphans : BlockSet) (b : ChainBlock) (h : UInt256) :
    BlockSet.getPrev (KeyedList.add (·.prevBlock) orphans b) h =
      if b.prevBlock = h then some b else orphans.getPrev h :=
  KeyedList.get_add _ _ _

theorem getPrev_remove
    (orphans : BlockSet) (h h' : UInt256) :
    BlockSet.getPrev (KeyedList.remove (·.prevBlock) orphans h') h =
      if h = h' then none else orphans.getPrev h :=
  KeyedList.get_remove _ _ _

theorem getPrev_prevBlock
    {orphans : BlockSet} {h : UInt256}
    (hget : orphans.getPrev h = some b) :
    b.prevBlock = h :=
  @KeyedList.key_of_get _ _ _ (fun b : ChainBlock => b.prevBlock) _ _ _ hget

end BlockSet

/-! ## Verification -/

namespace BlockStore

/-- A block that the verification of another one frees. -/
def Doomed (s : BlockStore) (block b : ChainBlock) : Prop :=
  atTransition block ∧ b.height % transitionInterval block.height ≠ 0 ∧
    ∃ t p, s.previousTransition block = some t ∧ s.blocks.parent t = some p ∧
      Above s.blocks.parent p b

/-- Nothing but some blocks with `Q` have been removed and freed. -/
structure Freed (Q : ChainBlock → Prop) (s s' : BlockStore) : Prop where
  orphans : s'.orphans = s.orphans
  checkpoints : s'.checkpoints = s.checkpoints
  lastBlock : s'.lastBlock = s.lastBlock
  lastOrphan : s'.lastOrphan = s.lastOrphan
  get : ∀ h, s'.blocks.get h = s.blocks.get h ∨
    s'.blocks.get h = none ∧ ∃ b, s.blocks.get h = some b ∧ Q b
  freed : ∀ a ∈ s'.freed, a ∈ s.freed ∨
    ∃ b, s.blocks.get b.blockHash = some b ∧ Q b ∧ b.addr = a ∧
      s'.blocks.get b.blockHash = none
  length : s'.blocks.length ≤ s.blocks.length

namespace Freed

variable {Q : ChainBlock → Prop} {s s₁ s' : BlockStore} {b : ChainBlock} {h : UInt256}

theorem refl
    (Q : ChainBlock → Prop) (s : BlockStore) :
    Freed Q s s where
  orphans := rfl
  checkpoints := rfl
  lastBlock := rfl
  lastOrphan := rfl
  get := fun _ => Or.inl rfl
  freed := fun _ h => Or.inl h
  length := le_rfl

theorem get_of_some
    (hf : Freed Q s s')
    (hget : s'.blocks.get h = some b) :
    s.blocks.get h = some b := by
  rcases hf.get h with heq | ⟨hnone, -⟩
  · rw [← heq]
    exact hget
  · rw [hnone] at hget
    cases hget

/-- What is not to be freed stays. -/
theorem get_of_not
    (hf : Freed Q s s')
    (hget : s.blocks.get h = some b)
    (hb : ¬ Q b) :
    s'.blocks.get h = some b := by
  rcases hf.get h with heq | ⟨-, b', hb', hQ⟩
  · rw [heq]
    exact hget
  · rw [hget] at hb'
    cases hb'
    exact absurd hQ hb

theorem trans
    (h₁ : Freed Q s s₁)
    (h₂ : Freed Q s₁ s') :
    Freed Q s s' where
  orphans := h₂.orphans.trans h₁.orphans
  checkpoints := h₂.checkpoints.trans h₁.checkpoints
  lastBlock := h₂.lastBlock.trans h₁.lastBlock
  lastOrphan := h₂.lastOrphan.trans h₁.lastOrphan
  length := h₂.length.trans h₁.length
  get := by
    intro h
    rcases h₂.get h with heq | ⟨hnone, b, hb, hQ⟩
    · rcases h₁.get h with heq₁ | ⟨hnone, hex⟩
      · exact Or.inl (heq.trans heq₁)
      · exact Or.inr ⟨heq.trans hnone, hex⟩
    · exact Or.inr ⟨hnone, b, h₁.get_of_some hb, hQ⟩
  freed := by
    intro a ha
    rcases h₂.freed a ha with ha | ⟨b, hb, hQ, haddr, hnone⟩
    · rcases h₁.freed a ha with ha | ⟨b, hb, hQ, haddr, hnone⟩
      · exact Or.inl ha
      · refine Or.inr ⟨b, hb, hQ, haddr, ?_⟩
        rcases h₂.get b.blockHash with heq | ⟨hnone', -⟩
        · rw [heq, hnone]
        · exact hnone'
    · exact Or.inr ⟨b, h₁.get_of_some hb, hQ, haddr, hnone⟩

theorem mono
    {R : ChainBlock → Prop}
    (hf : Freed Q s s')
    (himp : ∀ b, Q b → R b) :
    Freed R s s' where
  orphans := hf.orphans
  checkpoints := hf.checkpoints
  lastBlock := hf.lastBlock
  lastOrphan := hf.lastOrphan
  length := hf.length
  get := by
    intro h
    rcases hf.get h with heq | ⟨hnone, b, hb, hQ⟩
    · exact Or.inl heq
    · exact Or.inr ⟨hnone, b, hb, himp b hQ⟩
  freed := by
    intro a ha
    rcases hf.freed a ha with ha | ⟨b, hb, hQ, hrest⟩
    · exact Or.inl ha
    · exact Or.inr ⟨b, hb, himp b hQ, hrest⟩

theorem freeBlock
    (hget : s.blocks.get b.blockHash = some b)
    (hb : Q b) :
    Freed Q s (s.freeBlock b) where
  orphans := rfl
  checkpoints := rfl
  lastBlock := rfl
  lastOrphan := rfl
  length := List.length_filter_le _ _
  get := by
    intro h
    rw [BlockStore.freeBlock, BlockSet.get_remove]
    by_cases hh : h = b.blockHash
    · subst hh
      rw [if_pos rfl]
      exact Or.inr ⟨rfl, b, hget, hb⟩
    · rw [if_neg hh]
      exact Or.inl rfl
  freed := by
    intro a ha
    rcases List.mem_cons.mp ha with rfl | ha
    · refine Or.inr ⟨b, hget, hb, rfl, ?_⟩
      rw [BlockStore.freeBlock, BlockSet.get_remove, if_pos rfl]
    · exact Or.inl ha

end Freed

variable {s s' : BlockStore} {block prev : ChainBlock} {valid : Bool}

/-- The loop frees ancestors of the block it starts from, in any set of blocks
that is closed under predecessors. -/
theorem freeLoop_ok
    {Q : ChainBlock → Prop} {interval n : ℕ} {prevBlock : UInt256}
    (hclosed : ∀ a b, Q a → s.blocks.parent a = some b → Q b)
    (hstart : ∀ b, s.blocks.get prevBlock = some b → Q b)
    (h : freeLoop interval n prevBlock s = .ok s') :
    Freed (fun b => b.height % interval ≠ 0 ∧ Q b) s s' ∧ s'.pastCount = s.pastCount := by
  induction n generalizing s prevBlock with
  | zero =>
      cases h
  | succ n ih =>
      rw [freeLoop] at h
      split at h
      · cases h
        exact ⟨.refl _ _, rfl⟩
      · rename_i b hb
        have hQ := hstart b hb
        by_cases hheight : b.height % interval ≠ 0
        · rw [if_pos hheight] at h
          have hstep : Freed (fun b => b.height % interval ≠ 0 ∧ Q b) s (s.freeBlock b) := by
            apply Freed.freeBlock _ ⟨hheight, hQ⟩
            rw [BlockSet.get_hash hb]
            exact hb
          obtain ⟨hrest, hpast⟩ := ih
            (fun a c ha hc => hclosed a c ha (hstep.get_of_some hc))
            (fun c hc => hclosed b c hQ (hstep.get_of_some hc)) h
          exact ⟨hstep.trans hrest, hpast⟩
        · rw [if_neg hheight] at h
          exact ih hclosed (fun c hc => hclosed b c hQ hc) h

/-- What verification does: it frees blocks, and a valid block is not in front
of a missing transition and is no stranger to the checkpoints. -/
theorem verifyBlock_ok
    (h : s.verifyBlock block prev = .ok (s', valid)) :
    Freed (s.Doomed block) s s' ∧
      (valid = true → s.checkpointOk block = true ∧
        (atTransition block → (s.previousTransition block).isSome)) := by
  rw [verifyBlock, bind_eq_ok] at h
  obtain ⟨⟨s₁, found⟩, hpass, h⟩ := h
  have hfreed : Freed (s.Doomed block) s s₁ ∧
      (found = true → atTransition block → (s.previousTransition block).isSome) := by
    rw [passTransition] at hpass
    split at hpass
    · rename_i htrans
      split at hpass
      · cases hpass
        refine ⟨.refl _ _, ?_⟩
        intro hfound
        cases hfound
      · rename_i t ht
        obtain ⟨s₂, hloop, hret⟩ := bind_eq_ok.mp hpass
        cases hret
        obtain ⟨hf, -⟩ := freeLoop_ok
          (Q := fun b => ∃ p, s.blocks.parent t = some p ∧ Above s.blocks.parent p b)
          (by
            rintro a b ⟨p, hp, hab⟩ hb
            exact ⟨p, hp, hab.trans (Above.step hb (Above.refl _ _))⟩)
          (by
            intro b hb
            exact ⟨b, hb, Above.refl _ _⟩)
          hloop
        refine ⟨hf.mono ?_, fun _ _ => by rw [ht]; rfl⟩
        rintro b ⟨hheight, p, hp, hab⟩
        exact ⟨htrans, hheight, t, p, ht, hp, hab⟩
    · rename_i htrans
      cases hpass
      exact ⟨.refl _ _, fun _ h => absurd h htrans⟩
  dsimp only at h
  split at h
  · rename_i hfound
    obtain ⟨⟨ok, pastCount⟩, -, hret⟩ := bind_eq_ok.mp h
    cases hret
    refine ⟨⟨hfreed.1.orphans, hfreed.1.checkpoints, hfreed.1.lastBlock,
      hfreed.1.lastOrphan, hfreed.1.get, hfreed.1.freed, hfreed.1.length⟩, ?_⟩
    intro hvalid
    have hcheck := (Bool.and_eq_true_iff.mp hvalid).2
    rw [checkpointOk, hfreed.1.checkpoints] at hcheck
    exact ⟨hcheck, hfreed.2 hfound⟩
  · cases h
    refine ⟨hfreed.1, ?_⟩
    intro hvalid
    cases hvalid

end BlockStore

/-! ## Walks -/

namespace BlockSet

variable {blocks : BlockSet} {P : ChainBlock → Prop} {b b2 c z : ChainBlock} {k n : ℕ}

theorem ranked_length
    (hr : Ranked blocks.parent ChainBlock.height P)
    (hb : P b)
    (h : ancestor blocks.parent k b = some z) :
    k ≤ blocks.length :=
  hr.ancestor_le_length (fun _ _ hup => mem_of_get hup) hb (by rw [h]; rfl)

/-- Two walks that can meet do so, at the same hash. -/
theorem joinLoop_returns
    (hr : Ranked blocks.parent ChainBlock.height P)
    (hb : P b)
    (hb2 : P b2)
    (hc : ancestor blocks.parent k b = some c)
    (hc2 : Above blocks.parent b2 c)
    (hle : b2.height ≤ b.height)
    (hk : k < n) :
    ∃ j j2, blocks.joinLoop n (some b) (some b2) = .ok (some j, some j2) ∧
      j.blockHash = j2.blockHash ∧ Above blocks.parent b j ∧ Above blocks.parent b2 j2 := by
  obtain ⟨n, rfl⟩ : ∃ m, n = m + 1 := ⟨n - 1, by omega⟩
  induction k generalizing b b2 n with
  | zero =>
      have hbc : b = c := Option.some.inj hc
      subst hbc
      have heq : b2 = b :=
        hr.above_unique hb2 (Above.refl _ _) hc2 (by
          have := (hr.above_rank hb2 hc2).2
          omega)
      subst heq
      refine ⟨b2, b2, ?_, rfl, Above.refl _ _, Above.refl _ _⟩
      rw [joinLoop, if_pos rfl]
      rfl
  | succ k ih =>
      by_cases hhash : b.blockHash = b2.blockHash
      · refine ⟨b, b2, ?_, hhash, Above.refl _ _, Above.refl _ _⟩
        rw [joinLoop, if_pos hhash]
        rfl
      · have hne : b ≠ b2 := fun h => hhash (by rw [h])
        obtain ⟨n, rfl⟩ : ∃ m, n = m + 1 := ⟨n - 1, by omega⟩
        obtain ⟨b', hup, hrest⟩ := Option.bind_eq_some_iff.mp hc
        have hrank := hr.rank_up hb hup
        have hPb' := hr.closed hb hup
        have hget : blocks.get b.prevBlock = some b' := hup
        rw [joinLoop, if_neg hhash, hget]
        dsimp only
        by_cases hlt : b'.height < b2.height
        · -- both pointers are at one height, and the second one moves as well
          have hshare : Shares blocks.parent b2 b := ⟨c, hc2, k + 1, hc⟩
          obtain ⟨b2', hup2, -⟩ := hshare.up_left hr hb (by omega) (Ne.symm hne)
          have hrank2 := hr.rank_up hb2 hup2
          have hc2' : Above blocks.parent b2' c := by
            rcases hc2.cases with heq | ⟨x, hx, hxc⟩
            · have hbc : Above blocks.parent b b2 := ⟨k + 1, heq ▸ hc⟩
              exact absurd (hr.above_unique hb (Above.refl _ _) hbc (by omega)) hne
            · rw [hup2] at hx
              cases hx
              exact hxc
          have hget2 : blocks.get b2.prevBlock = some b2' := hup2
          rw [if_pos hlt, hget2]
          obtain ⟨j, j2, hj, heq, hab, hab2⟩ :=
            ih hPb' (hr.closed hb2 hup2) hrest hc2' (by omega) n (by omega)
          exact ⟨j, j2, hj, heq, Above.step hup hab, Above.step hup2 hab2⟩
        · rw [if_neg hlt]
          obtain ⟨j, j2, hj, heq, hab, hab2⟩ :=
            ih hPb' hb2 hrest hc2 (by omega) n (by omega)
          exact ⟨j, j2, hj, heq, Above.step hup hab, hab2⟩

end BlockSet

/-! ## Parts of the branches -/

/-- More addresses have been generated, nothing else. -/
structure BRWallet.Grown (w w' : BRWallet) : Prop where
  transactions : w'.transactions = w.transactions
  allTx : w'.allTx = w.allTx
  toLedger : w'.toLedger = w.toLedger
  allAddrs : w.allAddrs ⊆ w'.allAddrs

theorem BRWallet.Grown.trans
    {w w₁ w' : BRWallet}
    (h₁ : w.Grown w₁)
    (h₂ : w₁.Grown w') :
    w.Grown w' where
  transactions := h₂.transactions.trans h₁.transactions
  allTx := h₂.allTx.trans h₁.allTx
  toLedger := h₂.toLedger.trans h₁.toLedger
  allAddrs := h₁.allAddrs.trans h₂.allAddrs

theorem BRWallet.grown_growChain
    (w : BRWallet) (internal : Bool) (new : List Address) :
    w.Grown (w.growChain internal new) where
  transactions := rfl
  allTx := rfl
  toLedger := rfl
  allAddrs := by
    rw [growChain_allAddrs]
    exact Finset.subset_union_left

/-- Nothing has changed, except that the orphans may have been freed. -/
structure BlockStore.Cleared (s s' : BlockStore) : Prop where
  blocks : s'.blocks = s.blocks
  checkpoints : s'.checkpoints = s.checkpoints
  lastBlock : s'.lastBlock = s.lastBlock
  pastCount : s'.pastCount = s.pastCount
  orphans : (s'.orphans = s.orphans ∧ s'.lastOrphan = s.lastOrphan) ∨
    (s'.orphans = [] ∧ s'.lastOrphan = none)
  freed : ∀ a ∈ s'.freed, a ∈ s.freed ∨ ∃ o ∈ s.orphans, o.addr = a

theorem BlockStore.Cleared.refl
    (s : BlockStore) :
    s.Cleared s :=
  ⟨rfl, rfl, rfl, rfl, Or.inl ⟨rfl, rfl⟩, fun _ h => Or.inl h⟩

theorem BlockStore.Cleared.trans
    {s s₁ s' : BlockStore}
    (h₁ : s.Cleared s₁)
    (h₂ : s₁.Cleared s') :
    s.Cleared s' where
  blocks := h₂.blocks.trans h₁.blocks
  checkpoints := h₂.checkpoints.trans h₁.checkpoints
  lastBlock := h₂.lastBlock.trans h₁.lastBlock
  pastCount := h₂.pastCount.trans h₁.pastCount
  orphans := by
    rcases h₂.orphans with ⟨ho, hl⟩ | hnil
    · rw [ho, hl]
      exact h₁.orphans
    · exact Or.inr hnil
  freed := by
    intro a ha
    rcases h₂.freed a ha with ha | ⟨o, ho, rfl⟩
    · exact h₁.freed a ha
    · rcases h₁.orphans with ⟨horphans, -⟩ | ⟨hnil, -⟩
      · rw [horphans] at ho
        exact Or.inr ⟨o, ho, rfl⟩
      · rw [hnil] at ho
        cases ho

namespace BRPeerManager

/-- Filters have been loaded. -/
structure Reloaded (m m' : BRPeerManager) : Prop where
  store : m.toBlockStore.Cleared m'.toBlockStore
  publish : m'.toPublishLists = m.toPublishLists
  relays : m'.toRelayLists = m.toRelayLists
  connections : m'.toConnections = m.toConnections
  earliestKeyTime : m'.earliestKeyTime = m.earliestKeyTime
  bloomFilter : m.bloomFilter ≠ none → m'.bloomFilter ≠ none
  wallet : m.wallet.Grown m'.wallet

theorem Reloaded.refl
    (m : BRPeerManager) :
    m.Reloaded m :=
  ⟨.refl _, rfl, rfl, rfl, rfl, id, ⟨rfl, rfl, rfl, Finset.Subset.refl _⟩⟩

theorem Reloaded.trans
    {m m₁ m' : BRPeerManager}
    (h₁ : m.Reloaded m₁)
    (h₂ : m₁.Reloaded m') :
    m.Reloaded m' where
  store := h₁.store.trans h₂.store
  publish := h₂.publish.trans h₁.publish
  relays := h₂.relays.trans h₁.relays
  connections := h₂.connections.trans h₁.connections
  earliestKeyTime := h₂.earliestKeyTime.trans h₁.earliestKeyTime
  bloomFilter := fun h => h₂.bloomFilter (h₁.bloomFilter h)
  wallet := h₁.wallet.trans h₂.wallet

variable {env : Env} {m m' : BRPeerManager} {peer : BRPeer} {block prev last : ChainBlock}
variable {es : List ManagerEvent} {r : Handled}

theorem spareAddrs_ok
    {w w' : BRWallet}
    (h : spareAddrs env w = .ok w') :
    w.Grown w' := by
  obtain ⟨⟨w₁, a₁⟩, h₁, h⟩ := bind_eq_ok.mp h
  obtain ⟨⟨w₂, a₂⟩, h₂, hret⟩ := bind_eq_ok.mp h
  cases hret
  obtain rfl := unusedAddrs_ok h₁
  obtain rfl := unusedAddrs_ok h₂
  exact (BRWallet.grown_growChain _ _ _).trans (BRWallet.grown_growChain _ _ _)

theorem loadBloomFilter_ok
    (h : m.loadBloomFilter env peer = .ok m') :
    m.Reloaded m' ∧ m'.orphans = [] ∧ m'.bloomFilter ≠ none := by
  obtain ⟨w, hw, h⟩ := bind_eq_ok.mp h
  obtain ⟨b, -, hret⟩ := bind_eq_ok.mp h
  cases hret
  refine ⟨⟨⟨rfl, rfl, rfl, rfl, Or.inr ⟨rfl, rfl⟩, ?_⟩, rfl, rfl, rfl, rfl, ?_,
    spareAddrs_ok (callWallet_eq_ok.mp hw)⟩, rfl, ?_⟩
  · intro a ha
    rcases List.mem_append.mp ha with ha | ha
    · obtain ⟨o, ho, rfl⟩ := List.mem_map.mp ha
      exact Or.inr ⟨o, ho, rfl⟩
    · exact Or.inl ha
  · intro _ hnone
    cases hnone
  · intro hnone
    cases hnone

theorem loadMempools_ok
    (h : m.loadMempools env = .ok m') :
    m.Reloaded m' := by
  refine foldlM_invariant (I := fun m' => m.Reloaded m') ?_ (.refl m) h
  intro m₁ peer _ m₂ hm₁ hstep
  rw [loadMempool] at hstep
  split at hstep
  · exact hm₁.trans (loadBloomFilter_ok hstep).1
  · cases hstep
    exact hm₁

theorem completeDownload_ok
    {saveCount count : ℕ}
    (h : m.completeDownload env block saveCount = .ok (m', count)) :
    m.Reloaded m' ∧
      count =
        if block.height = m.estimatedHeight then
          block.height % blockDifficultyInterval + blockDifficultyInterval + 1
        else saveCount := by
  rw [completeDownload] at h
  split at h
  · rename_i heq
    obtain ⟨m₁, h₁, hret⟩ := bind_eq_ok.mp h
    cases hret
    exact ⟨loadMempools_ok h₁, by rw [if_pos heq]⟩
  · rename_i hne
    cases h
    exact ⟨.refl m, by rw [if_neg hne]⟩

/-- Confirmed transactions have been taken off the lists, nothing else. -/
structure Delisted (m m' : BRPeerManager) : Prop where
  store : m'.toBlockStore = m.toBlockStore
  connections : m'.toConnections = m.toConnections
  earliestKeyTime : m'.earliestKeyTime = m.earliestKeyTime
  bloomFilter : m'.bloomFilter = m.bloomFilter
  wallet : m'.wallet = m.wallet
  txRequests : m'.txRequests = m.txRequests

theorem delisted_foldl
    (txHashes : List UInt256) (m : BRPeerManager) :
    m.Delisted (txHashes.foldl rmConfirmed m) := by
  induction txHashes generalizing m with
  | nil =>
      exact ⟨rfl, rfl, rfl, rfl, rfl, rfl⟩
  | cons h txHashes ih =>
      obtain ⟨hs, hc, he, hb, hw, hr⟩ := ih (m.rmConfirmed h)
      exact ⟨hs, hc, he, hb, hw, hr⟩

/-- What `_BRPeerManagerUpdateTx` does: the wallet's update, and for a block
height the lists without the named transactions. -/
theorem updateTx_ok
    {txHashes : List UInt256} {blockHeight timestamp : UInt32}
    (h : m.updateTx env txHashes blockHeight timestamp = .ok (m', es)) :
    ∃ m₁ w events,
      m₁ = (if blockHeight ≠ txUnconfirmed then txHashes.foldl rmConfirmed m else m) ∧
      m.Delisted m₁ ∧
      m.wallet.updateTransactions env.now txHashes blockHeight timestamp = .ok (w, events) ∧
      m' = { m₁ with wallet := w } ∧ es = events.map .wallet := by
  obtain ⟨⟨w, events⟩, hw, hret⟩ := bind_eq_ok.mp h
  cases hret
  have hde : m.Delisted
      (if blockHeight ≠ txUnconfirmed then txHashes.foldl rmConfirmed m else m) := by
    split
    · exact delisted_foldl txHashes m
    · exact ⟨rfl, rfl, rfl, rfl, rfl, rfl⟩
  refine ⟨_, w, events, rfl, hde, ?_, rfl, rfl⟩
  rw [callWallet_eq_ok, hde.wallet] at hw
  exact hw

/-- The wallet and the lists may have changed, nothing else. -/
structure Confirmed (m m' : BRPeerManager) : Prop where
  store : m'.toBlockStore = m.toBlockStore
  connections : m'.toConnections = m.toConnections
  earliestKeyTime : m'.earliestKeyTime = m.earliestKeyTime
  bloomFilter : m'.bloomFilter = m.bloomFilter
  txRequests : m'.txRequests = m.txRequests

theorem confirmTxs_ok
    (h : m.confirmTxs env block prev = .ok (m', es)) :
    m.Confirmed m' ∧
      (block.txHashes = [] ∧ m' = m ∧ es = [] ∨
        m.updateTx env block.txHashes (UInt32.ofNat block.height)
          (block.txTime (some prev)) = .ok (m', es)) := by
  rw [confirmTxs] at h
  split at h
  · rename_i hnil
    cases h
    exact ⟨⟨rfl, rfl, rfl, rfl, rfl⟩, Or.inl ⟨hnil, rfl, rfl⟩⟩
  · obtain ⟨m₁, w, events, -, hde, -, rfl, -⟩ := updateTx_ok h
    exact ⟨⟨hde.store, hde.connections, hde.earliestKeyTime, hde.bloomFilter,
      hde.txRequests⟩, Or.inr h⟩

/-! ## The branches -/

/-- What the branch for an extended main chain does. -/
theorem extendChain_ok
    (h : m.extendChain env peer block prev = .ok r) :
    ∃ m₁ m₂ c,
      BRPeerManager.confirmTxs env
        { m with
          blocks := KeyedList.add (·.blockHash) m.blocks block
          lastBlock := some block } block prev = .ok (m₁, r.events) ∧
      m₂ = { m₁ with connectFailureCount := c } ∧
      m₂.Reloaded r.manager ∧
      r.block = some block ∧
      r.saveCount =
        if block.height = m.estimatedHeight then
          block.height % blockDifficultyInterval + blockDifficultyInterval + 1
        else if block.height % blockDifficultyInterval = 0 then 1 else 0 := by
  obtain ⟨⟨m₁, es⟩, h₁, h⟩ := bind_eq_ok.mp h
  obtain ⟨⟨m₃, count⟩, h₃, hret⟩ := bind_eq_ok.mp h
  cases hret
  have hest : m₁.estimatedHeight = m.estimatedHeight := by
    rw [(confirmTxs_ok h₁).1.connections]
  obtain ⟨hre, hcount⟩ := completeDownload_ok h₃
  split at hre
  · rename_i hsync
    rw [if_pos hsync] at hcount
    refine ⟨m₁, _, 0, h₁, rfl, hre, rfl, ?_⟩
    rw [hcount, ← hest]
  · rename_i hsync
    rw [if_neg hsync] at hcount
    refine ⟨m₁, _, m₁.connectFailureCount, h₁, rfl, hre, rfl, ?_⟩
    rw [hcount, ← hest]

/-- Away from the estimated height the download is not complete. -/
theorem completeDownload_eq
    {saveCount : ℕ}
    (h : block.height ≠ m.estimatedHeight) :
    m.completeDownload env block saveCount = .ok (m, saveCount) := by
  rw [completeDownload, if_neg h]
  rfl

/-- There an extension only confirms transactions. -/
theorem extendChain_eq
    {m₁ : BRPeerManager}
    (hconf : BRPeerManager.confirmTxs env
      { m with
        blocks := KeyedList.add (·.blockHash) m.blocks block
        lastBlock := some block } block prev = .ok (m₁, es))
    (hne : block.height ≠ m.estimatedHeight) :
    m.extendChain env peer block prev =
      .ok
        { manager :=
            if block.height < m₁.estimatedHeight ∧ some peer = m₁.downloadPeer then
              { m₁ with connectFailureCount := 0 }
            else m₁
          events := es
          block := some block
          saveCount := if block.height % blockDifficultyInterval = 0 then 1 else 0 } := by
  have hest : m₁.estimatedHeight = m.estimatedHeight := by
    rw [(confirmTxs_ok hconf).1.connections]
  rw [extendChain, hconf, ok_bind]
  dsimp only
  rw [completeDownload_eq]
  · rfl
  · split <;> rwa [hest]

/-- What the branch for a stored block does. -/
theorem relayExisting_ok
    (h : m.relayExisting env block prev last = .ok r) :
    ∃ b m₁, m.blocks.walkDown block.height (m.blocks.length + 2) (some last) = .ok (some b) ∧
      r.manager = m₁.replaceBlock block ∧ r.block = some block ∧ r.saveCount = 0 ∧
      (b.blockHash ≠ block.blockHash ∧ m₁ = m ∧ r.events = [] ∨
        b.blockHash = block.blockHash ∧ ∃ m₂,
          m.confirmTxs env block prev = .ok (m₂, r.events) ∧
          m₁ = if block.height = last.height then { m₂ with lastBlock := some block }
            else m₂) := by
  obtain ⟨b, hb, h⟩ := bind_eq_ok.mp h
  cases b with
  | none =>
      cases h
  | some b =>
      obtain ⟨⟨m₁, es⟩, h₁, hret⟩ := bind_eq_ok.mp h
      cases hret
      refine ⟨b, m₁, hb, rfl, rfl, rfl, ?_⟩
      split at h₁
      · rename_i heq
        obtain ⟨⟨m₂, es₂⟩, h₂, hret⟩ := bind_eq_ok.mp h₁
        cases hret
        exact Or.inr ⟨heq, m₂, h₂, rfl⟩
      · rename_i hne
        cases h₁
        exact Or.inl ⟨hne, rfl, rfl⟩

/-- What a reorganisation does. -/
theorem reorganize_ok
    (h : m.reorganize env block last = .ok r) :
    ∃ j b2 w₁ w₂ es₁ es₂,
      m.blocks.joinLoop (m.blocks.length + 1) (some block) (some last) = .ok (some j, b2) ∧
      m.wallet.setTxUnconfirmedAfter env.now (UInt32.ofNat j.height) = .ok (w₁, es₁) ∧
      (b2 = none ∧ w₂ = w₁ ∧ es₂ = [] ∨
        ∃ x, b2 = some x ∧ w₁.replayLoop env.now m.blocks x.height (m.blocks.length + 1)
          (some block) = .ok (w₂, es₂)) ∧
      BRPeerManager.Reloaded { m with wallet := w₂, lastBlock := some block } r.manager ∧
      r.events = (es₁ ++ es₂).map .wallet ∧
      r.block = some block ∧
      r.saveCount =
        if block.height = m.estimatedHeight then
          block.height % blockDifficultyInterval + blockDifficultyInterval + 1
        else 0 := by
  obtain ⟨⟨j, b2⟩, hj, h⟩ := bind_eq_ok.mp h
  cases j with
  | none =>
      cases h
  | some j =>
      obtain ⟨⟨w₁, es₁⟩, h₁, h⟩ := bind_eq_ok.mp h
      obtain ⟨⟨w₂, es₂⟩, h₂, h⟩ := bind_eq_ok.mp h
      obtain ⟨⟨m₃, count⟩, h₃, hret⟩ := bind_eq_ok.mp h
      cases hret
      obtain ⟨hre, hcount⟩ := completeDownload_ok h₃
      refine ⟨j, b2, w₁, w₂, es₁, es₂, hj, callWallet_eq_ok.mp h₁, ?_, hre, rfl, rfl, hcount⟩
      cases b2 with
      | none =>
          cases h₂
          exact Or.inl ⟨rfl, rfl, rfl⟩
      | some x =>
          exact Or.inr ⟨x, rfl, h₂⟩

/-- What can happen to a valid block, after verification. -/
inductive Valid (env : Env) (m : BRPeerManager) (peer : BRPeer) (block prev : ChainBlock) :
    Handled → Prop where
  | extended {last : ChainBlock} {r : Handled} :
      m.lastBlock = some last → block.prevBlock = last.blockHash →
      m.extendChain env peer block prev = .ok r →
      Valid env m peer block prev r
  | existing {last b : ChainBlock} {r : Handled} :
      m.lastBlock = some last → block.prevBlock ≠ last.blockHash →
      m.blocks.get block.blockHash = some b →
      m.relayExisting env block prev last = .ok r →
      Valid env m peer block prev r
  | postponed {last : ChainBlock} :
      m.lastBlock = some last → block.prevBlock ≠ last.blockHash →
      m.blocks.get block.blockHash = none →
      last.height < env.lastblock peer → last.height + 1 < block.height →
      Valid env m peer block prev (m.addOrphan block)
  | oldFork {last : ChainBlock} :
      m.lastBlock = some last → block.prevBlock ≠ last.blockHash →
      m.blocks.get block.blockHash = none →
      block.height ≤ env.lastCheckpointHeight →
      Valid env m peer block prev (m.ignoreBlock block)
  | lowFork {last : ChainBlock} :
      m.lastBlock = some last → block.prevBlock ≠ last.blockHash →
      m.blocks.get block.blockHash = none →
      env.lastCheckpointHeight < block.height → block.height ≤ last.height →
      Valid env m peer block prev
        { manager := { m with blocks := KeyedList.add (·.blockHash) m.blocks block }
          block := some block }
  | highFork {last : ChainBlock} {r : Handled} :
      m.lastBlock = some last → block.prevBlock ≠ last.blockHash →
      m.blocks.get block.blockHash = none →
      env.lastCheckpointHeight < block.height → last.height < block.height →
      BRPeerManager.reorganize env
        { m with blocks := KeyedList.add (·.blockHash) m.blocks block } block last = .ok r →
      Valid env m peer block prev r

theorem last_ok
    (h : m.last = .ok last) :
    m.lastBlock = some last := by
  rw [BRPeerManager.last] at h
  split at h
  · rename_i b hb
    cases h
    exact hb
  · cases h

theorem relayValid_cases
    (h : m.relayValid env peer block prev = .ok r) :
    Valid env m peer block prev r := by
  obtain ⟨last, hlast, h⟩ := bind_eq_ok.mp h
  have hlast := last_ok hlast
  split at h
  · rename_i hext
    exact .extended hlast hext h
  · rename_i hext
    split at h
    · rename_i hstored
      obtain ⟨b, hb⟩ := Option.isSome_iff_exists.mp hstored
      exact .existing hlast hext hb h
    · rename_i hstored
      have hnew : m.blocks.get block.blockHash = none := by simpa using hstored
      split at h
      · rename_i hspecial
        cases h
        exact .postponed hlast hext hnew hspecial.1 hspecial.2
      · split at h
        · rename_i hold
          cases h
          exact .oldFork hlast hext hnew hold
        · rename_i hold
          rw [relayFork] at h
          split at h
          · rename_i hhigh
            exact .highFork hlast hext hnew (by omega) hhigh h
          · rename_i hhigh
            cases h
            exact .lowFork hlast hext hnew (by omega) (by omega)

/-- What can happen to a relayed block. -/
inductive Branch (env : Env) (m : BRPeerManager) (peer : BRPeer) (block : ChainBlock) :
    Handled → Prop where
  | header :
      block.isRecentHeader m.earliestKeyTime = true →
      Branch env m peer block (m.ignoreBlock block)
  | waiting {c : ℕ} :
      block.isRecentHeader m.earliestKeyTime = false → m.bloomFilter = none →
      Branch env m peer block
        (BRPeerManager.ignoreBlock { m with connectFailureCount := c } block)
  | oldOrphan :
      block.isRecentHeader m.earliestKeyTime = false → m.bloomFilter ≠ none →
      m.blocks.get block.prevBlock = none →
      (block.timestamp + weekTime).toNat < env.now →
      Branch env m peer block (m.ignoreBlock block)
  | orphan :
      block.isRecentHeader m.earliestKeyTime = false → m.bloomFilter ≠ none →
      m.blocks.get block.prevBlock = none →
      env.now ≤ (block.timestamp + weekTime).toNat →
      Branch env m peer block (m.addOrphan block)
  | invalid {prev : ChainBlock} {s : BlockStore} :
      block.isRecentHeader m.earliestKeyTime = false → m.bloomFilter ≠ none →
      m.blocks.get block.prevBlock = some prev →
      m.toBlockStore.verifyBlock block prev = .ok (s, false) →
      Branch env m peer block (BRPeerManager.ignoreBlock { m with toBlockStore := s } block)
  | valid {prev : ChainBlock} {s : BlockStore} {r : Handled} :
      block.isRecentHeader m.earliestKeyTime = false → m.bloomFilter ≠ none →
      m.blocks.get block.prevBlock = some prev →
      m.toBlockStore.verifyBlock block prev = .ok (s, true) →
      Valid env { m with toBlockStore := s } peer block prev r →
      Branch env m peer block r

theorem handleBlock_cases
    (h : m.handleBlock env peer block = .ok r) :
    Branch env m peer block r := by
  rw [handleBlock] at h
  split at h
  · rename_i hheader
    cases h
    exact .header hheader
  · rename_i hheader
    have hheader : block.isRecentHeader m.earliestKeyTime = false := by simpa using hheader
    split at h
    · rename_i hfilter
      obtain ⟨syncing, -, hret⟩ := bind_eq_ok.mp h
      cases hret
      cases syncing with
      | true =>
          exact .waiting (c := 0) hheader hfilter
      | false =>
          exact .waiting (c := m.connectFailureCount) hheader hfilter
    · rename_i hfilter
      split at h
      · rename_i hprev
        obtain ⟨last, -, h⟩ := bind_eq_ok.mp h
        split at h
        · rename_i hold
          cases h
          exact .oldOrphan hheader hfilter hprev hold
        · rename_i hold
          cases h
          exact .orphan hheader hfilter hprev (by omega)
      · rename_i prev hprev
        obtain ⟨⟨s, valid⟩, hverify, h⟩ := bind_eq_ok.mp h
        cases valid with
        | true =>
            exact .valid hheader hfilter hprev hverify (relayValid_cases h)
        | false =>
            cases h
            exact .invalid hheader hfilter hprev hverify

/-- What stands behind the branches. -/
theorem finish_ok
    {next : Option ChainBlock}
    (h : r.finish = .ok (m', es, next)) :
    r.block = none ∧ m' = r.manager ∧ es = r.events ∧ next = none ∨
      ∃ b saved, r.block = some b ∧ r.manager.releaseNext b = (m', next) ∧
        savedBlocks m'.blocks (some b) r.saveCount = .ok saved ∧
        es = r.events ++ saveEvents saved := by
  rw [Handled.finish] at h
  split at h
  · rename_i hnone
    cases h
    exact Or.inl ⟨hnone, rfl, rfl, rfl⟩
  · rename_i b hb
    obtain ⟨saved, hsaved, hret⟩ := bind_eq_ok.mp h
    cases hret
    exact Or.inr ⟨b, saved, hb, rfl, hsaved, rfl⟩

/-- Where nothing is to be saved, only the next block is taken out. -/
theorem finish_eq
    (hb : r.block = some block)
    (hsave : r.saveCount = 0) :
    r.finish = .ok ((r.manager.releaseNext block).1, r.events,
      (r.manager.releaseNext block).2) := by
  have hnil : savedBlocks (r.manager.releaseNext block).1.blocks (some block) 0 = .ok [] := by
    rfl
  rw [Handled.finish, hb, hsave]
  dsimp only
  rw [hnil, ok_bind, saveEvents, if_pos rfl, List.append_nil]
  rfl

/-- One call up to its recursion is a branch and what stands behind it. -/
theorem relayStep_ok
    {next : Option ChainBlock}
    (h : m.relayStep env peer block = .ok (m', es, next)) :
    ∃ r, Branch env m peer (m.placeBlock block) r ∧ r.finish = .ok (m', es, next) := by
  obtain ⟨_, -, h⟩ := bind_eq_ok.mp h
  obtain ⟨r, hr, h⟩ := bind_eq_ok.mp h
  exact ⟨r, handleBlock_cases hr, h⟩

end BRPeerManager

end BreadwalletCore
