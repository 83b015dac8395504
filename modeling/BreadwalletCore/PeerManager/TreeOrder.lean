import BreadwalletCore.PeerManager.Faults
import BreadwalletCore.PeerManager.BlockTree

/-!
# Trees of relayed blocks

A finite tree of blocks above `root`, in the order in which a peer relays them,
and what a call of `_peerRelayedBlock` does with a new block of such a tree.

Among stored blocks that fit into one tree, the replay of a reorganisation and
the selection of the blocks to be saved do not fail.
-/

namespace BreadwalletCore

open Machine Ancestry

/-! ## Trees of relayed blocks -/

/-- The blocks of a finite tree above `root`, in the order in which a peer
relays them: their heights are not set yet. -/
structure TreeOrder (tree : BlockTree) (root : ChainBlock) (order : List ChainBlock) :
    Prop where
  names : ∀ b ∈ order, tree.Names b
  nodup : (order.map (·.blockHash)).Nodup
  linked : ∀ b ∈ order, b.prevBlock = root.blockHash ∨
    ∃ p ∈ order, b.prevBlock = p.blockHash
  unknown : ∀ b ∈ order, b.height = blockUnknownHeight
  known : ∀ b ∈ order, tree.height b.blockHash < blockUnknownHeight

/-- The block and all blocks between it and `root` have been relayed. -/
inductive Joined (root : ChainBlock) (relayed : List ChainBlock) : ChainBlock → Prop where
  | root {b : ChainBlock} :
      b ∈ relayed → b.prevBlock = root.blockHash → Joined root relayed b
  | block {b p : ChainBlock} :
      b ∈ relayed → Joined root relayed p → b.prevBlock = p.blockHash →
      Joined root relayed b

/-- No two blocks wait for the same predecessor: a block that has a sibling in
front of it comes when its predecessor has been joined to `root`. -/
def NoTwinsWait (root : ChainBlock) (order : List ChainBlock) : Prop :=
  ∀ relayed y rest, order = relayed ++ y :: rest →
    ∀ x ∈ relayed, x.prevBlock = y.prevBlock →
      y.prevBlock = root.blockHash ∨ ∃ p, Joined root relayed p ∧ y.prevBlock = p.blockHash

/-- A block of the tree, or `root`. -/
def OfTree (root : ChainBlock) (order : List ChainBlock) (h : UInt256) : Prop :=
  h = root.blockHash ∨ ∃ b ∈ order, h = b.blockHash

/-- No block of the tree at a difficulty transition has one of the tree so far
behind it that it would be freed. -/
def Unpruned (tree : BlockTree) (root : ChainBlock) (order : List ChainBlock) : Prop :=
  ∀ x ∈ order, tree.height x.blockHash % transitionInterval (tree.height x.blockHash) = 0 →
    ∀ k > transitionInterval (tree.height x.blockHash),
      OfTree root order (tree.parent^[k] x.blockHash) →
      tree.height (tree.parent^[k] x.blockHash) %
        transitionInterval (tree.height x.blockHash) = 0

/-- A block as a peer sends it. -/
def relayedSample (blockHash prevBlock : UInt256) : ChainBlock where
  addr := blockHash.toNat
  blockHash := blockHash
  prevBlock := prevBlock
  timestamp := 1600000000
  target := 0
  totalTx := 1
  height := blockUnknownHeight

/-- A block is one higher than the one whose hash it names. -/
theorem BlockTree.Names.height_eq
    {tree : BlockTree} {b : ChainBlock} {h : UInt256}
    (hb : tree.Names b)
    (hlink : b.prevBlock = h)
    (hne : h ≠ 0) :
    tree.height b.blockHash = tree.height h + 1 := by
  have hparent : tree.parent b.blockHash = h := hb.parent.symm.trans hlink
  rw [tree.height_eq b.blockHash (hparent ▸ hne), hparent]

namespace TreeOrder

variable {tree : BlockTree} {root b c : ChainBlock} {order : List ChainBlock}

/-- Different blocks have different hashes. -/
theorem eq_of_hash
    (ht : TreeOrder tree root order)
    (hb : b ∈ order)
    (hc : c ∈ order)
    (h : b.blockHash = c.blockHash) :
    b = c :=
  List.inj_on_of_nodup_map ht.nodup hb hc h

/-- The blocks of the tree are higher than `root`. -/
theorem height_lt
    (ht : TreeOrder tree root order)
    (hroot : tree.Holds root)
    (hb : b ∈ order) :
    root.height < tree.height b.blockHash := by
  generalize hn : tree.height b.blockHash = n
  induction n using Nat.strong_induction_on generalizing b with
  | _ n ih =>
      rcases ht.linked b hb with hlink | ⟨p, hp, hlink⟩
      · rw [← hn, (ht.names b hb).height_eq hlink hroot.hash, hroot.height]
        omega
      · have hheight := (ht.names b hb).height_eq hlink (ht.names p hp).hash
        have := ih _ (by omega) hp rfl
        omega

/-- When all blocks have been relayed, each is joined to `root`. -/
theorem joined
    (ht : TreeOrder tree root order)
    (hb : b ∈ order) :
    Joined root order b := by
  generalize hn : tree.height b.blockHash = n
  induction n using Nat.strong_induction_on generalizing b with
  | _ n ih =>
      rcases ht.linked b hb with hlink | ⟨p, hp, hlink⟩
      · exact .root hb hlink
      · have hheight := (ht.names b hb).height_eq hlink (ht.names p hp).hash
        exact .block hb (ih _ (by omega) hp rfl) hlink

end TreeOrder

/-- A walk through the stored blocks follows the tree. -/
theorem BlockTree.ancestor_hash
    {tree : BlockTree} {blocks : BlockSet} {a b : ChainBlock} {k : ℕ}
    (hblocks : ∀ h b, blocks.get h = some b → tree.Holds b)
    (ha : tree.Holds a)
    (h : ancestor blocks.parent k a = some b) :
    b.blockHash = tree.parent^[k] a.blockHash := by
  induction k generalizing a with
  | zero =>
      cases h
      rfl
  | succ k ih =>
      obtain ⟨p, hup, h⟩ := Option.bind_eq_some_iff.mp h
      have hp := hblocks _ _ hup
      have hhash : p.blockHash = a.prevBlock := BlockSet.get_hash hup
      have hparent := ha.parent.resolve_right (by rw [← hhash]; exact hp.hash)
      rw [Function.iterate_succ_apply, ← hparent, ← hhash]
      exact ih hp h

/-- Verification keeps the blocks of an unpruned tree. -/
theorem BlockStore.Freed.keeps
    {tree : BlockTree} {root block b : ChainBlock} {order : List ChainBlock}
    {s s' : BlockStore} {h : UInt256}
    (hf : Freed (s.Doomed block) s s')
    (hs : tree.Stores s)
    (hblock : tree.Holds block)
    (hmem : ∃ x ∈ order, x.blockHash = block.blockHash)
    (hun : Unpruned tree root order)
    (hh : OfTree root order h)
    (hget : s.blocks.get h = some b) :
    s'.blocks.get h = some b := by
  refine hf.get_of_not hget ?_
  rintro ⟨htrans, hheight, t, p, ht, hp, n, hn⟩
  obtain ⟨x, hx, hhash⟩ := hmem
  have hb := hs.blocks _ _ hget
  rw [BlockStore.previousTransition, BlockSet.back_eq_ancestor] at ht
  have hanc : ancestor s.blocks.parent (transitionInterval block.height + (1 + n)) block =
      some b := by
    rw [ancestor_add, ht, Option.bind_some, ancestor_add, ancestor_one, hp, Option.bind_some, hn]
  have hbhash := BlockTree.ancestor_hash hs.blocks hblock hanc
  have hzero := hun x hx (by rw [hhash, ← hblock.height]; exact htrans)
    (transitionInterval block.height + (1 + n)) (by rw [hhash, ← hblock.height]; omega)
    (by rw [hhash, ← hbhash, BlockSet.get_hash hget]; exact hh)
  rw [hhash, ← hbhash, ← hb.height, ← hblock.height] at hzero
  exact hheight hzero

/-! ## Where a call cannot fail -/

/-- A replay that gets down to its height ends there. -/
theorem BRWallet.replayLoop_wallet
    {now : ℕ} {blocks : BlockSet} {joinHeight n k : ℕ} {b z : ChainBlock} {w : BRWallet}
    {e : ManagerFault}
    (hz : ancestor blocks.parent k b = some z)
    (hheight : z.height ≤ joinHeight)
    (hk : k < n)
    (h : w.replayLoop now blocks joinHeight n (some b) = .error e) :
    ∃ f, e = .wallet f := by
  induction k generalizing b n w with
  | zero =>
      cases hz
      obtain ⟨n, rfl⟩ := Nat.exists_eq_add_of_lt hk
      rw [Nat.zero_add, replayLoop, if_neg (by omega)] at h
      cases h
  | succ k ih =>
      obtain ⟨b', hup, hz⟩ := Option.bind_eq_some_iff.mp hz
      obtain ⟨n, rfl⟩ : ∃ m, n = m + 1 := ⟨n - 1, by omega⟩
      have hget : blocks.get b.prevBlock = some b' := hup
      rw [replayLoop] at h
      split at h
      · rw [hget] at h
        dsimp only at h
        split at h
        · exact ih hz (by omega) h
        · rcases bind_eq_error.mp h with hw | ⟨⟨w₁, es⟩, -, h⟩
          · exact callWallet_error hw
          · rcases bind_eq_error.mp h with h | ⟨p, -, h⟩
            · exact ih hz (by omega) h
            · cases h
      · cases h

/-- The collected blocks go down by one. -/
theorem BlockSet.runBack_height
    {blocks : BlockSet} {P : ChainBlock → Prop} {n : ℕ} {b : ChainBlock}
    (hr : Ranked blocks.parent ChainBlock.height P)
    (hb : P b) :
    ∀ i, ∀ c, (blocks.runBack n (some b))[i]? = some c → c.height + i = b.height := by
  induction n generalizing b with
  | zero =>
      intro i c h
      cases h
  | succ n ih =>
      intro i c h
      rw [runBack] at h
      cases i with
      | zero =>
          cases h
          rfl
      | succ i =>
          rw [List.getElem?_cons_succ] at h
          cases hup : blocks.get b.prevBlock with
          | none =>
              rw [hup] at h
              cases n <;> cases h
          | some p =>
              rw [hup] at h
              have hp := ih (hr.closed hb hup) i c h
              have := hr.rank_up hb hup
              omega

/-- So the assertion behind them holds. -/
theorem BRPeerManager.savedBlocks_returns
    {blocks : BlockSet} {P : ChainBlock → Prop} {b : ChainBlock}
    (hr : Ranked blocks.parent ChainBlock.height P)
    (hb : P b) (count : ℕ) :
    ∃ saved, savedBlocks blocks (some b) count = .ok saved := by
  have hheight := BlockSet.runBack_height (n := count) hr hb
  rw [savedBlocks]
  generalize blocks.runBack count (some b) = saved at hheight
  have hlast : (saved.take (saveLength saved)).getLast?.all
      (fun b => b.height % blockDifficultyInterval = 0) = true := by
    rw [Option.all_eq_true]
    intro c hc
    rw [decide_eq_true_eq]
    rw [List.getLast?_eq_getElem?, List.length_take] at hc
    have hpos : 0 < min (saveLength saved) saved.length := by
      by_contra hzero
      obtain ⟨hlt, -⟩ := List.getElem?_eq_some_iff.mp hc
      rw [List.length_take] at hlt
      omega
    rw [List.getElem?_take, if_pos (by omega)] at hc
    have hcheight := hheight _ _ hc
    rw [saveLength] at hcheight hpos
    cases hl : saved.getLast? with
    | none =>
        rw [hl] at hpos
        simp at hpos
    | some l =>
        rw [hl] at hcheight hpos
        have hlheight := hheight (saved.length - 1) l (by
          rw [← List.getLast?_eq_getElem?]
          exact hl)
        dsimp only at hcheight hpos
        rw [blockDifficultyInterval] at *
        split_ifs at hcheight hpos <;> omega
  rw [if_pos hlast]
  exact ⟨_, rfl⟩

/-! ## One call -/

namespace BRPeerManager

variable {env : Env} {m m' : BRPeerManager} {peer : BRPeer} {block prev last b : ChainBlock}
variable {es : List ManagerEvent} {r : Handled} {next : Option ChainBlock}

/-- There is one peer, from which the chain is downloaded, and the false positive
rate of its filter is not so high that the filter is loaded again. -/
structure OnePeer (env : Env) (peer : BRPeer) (m : BRPeerManager) : Prop where
  connected : ∀ p ∈ m.connectedPeers, p = peer
  download : m.downloadPeer = some peer
  rate : env.fpRateHigh peer = false

/-- Then no filter is loaded with the mempools. -/
theorem OnePeer.loadMempools
    (h : OnePeer env peer m) :
    m.loadMempools env = .ok m := by
  have hfold : ∀ peers : List BRPeer, (∀ p ∈ peers, p = peer) →
      peers.foldlM (loadMempool env) m = .ok m := by
    intro peers
    induction peers with
    | nil =>
        intro _
        rfl
    | cons p peers ih =>
        intro hpeers
        have hp := hpeers p List.mem_cons_self
        have hone : loadMempool env m p = .ok m := by
          rw [loadMempool, if_neg]
          · rfl
          · rw [hp, h.download, h.rate]
            simp
        rw [List.foldlM_cons, hone, ok_bind]
        exact ih (fun q hq => hpeers q (List.mem_cons_of_mem _ hq))
  refine hfold _ (fun p hp => h.connected p ?_)
  exact List.mem_reverse.mp (List.mem_of_mem_filter hp)

theorem OnePeer.completeDownload
    {saveCount count : ℕ}
    (h : OnePeer env peer m)
    (hdone : m.completeDownload env block saveCount = .ok (m', count)) :
    m' = m := by
  rw [BRPeerManager.completeDownload, h.loadMempools] at hdone
  split at hdone <;> cases hdone <;> rfl

/-- A new block has been stored, and is the new `lastBlock` if it is higher. -/
structure StoredBlock (m : BRPeerManager) (last block : ChainBlock) (r : Handled) : Prop where
  handed : r.block = some block
  blocks : r.manager.blocks = KeyedList.add (·.blockHash) m.blocks block
  orphans : r.manager.orphans = m.orphans
  lastBlock : last.height < block.height ∧ r.manager.lastBlock = some block ∨
    block.height ≤ last.height ∧ r.manager.lastBlock = some last
  bloomFilter : r.manager.bloomFilter = m.bloomFilter
  connectedPeers : r.manager.connectedPeers = m.connectedPeers
  downloadPeer : r.manager.downloadPeer = m.downloadPeer
  earliestKeyTime : r.manager.earliestKeyTime = m.earliestKeyTime

theorem extendChain_stored
    (hone : OnePeer env peer m)
    (hhigh : last.height < block.height)
    (h : m.extendChain env peer block prev = .ok r) :
    StoredBlock m last block r := by
  obtain ⟨⟨m₁, es⟩, h₁, h⟩ := bind_eq_ok.mp h
  obtain ⟨⟨m₃, count⟩, h₃, hret⟩ := bind_eq_ok.mp h
  cases hret
  have hconf := (confirmTxs_ok h₁).1
  have hpeers : m₁.connectedPeers = m.connectedPeers := by rw [hconf.connections]
  have hdown : m₁.downloadPeer = m.downloadPeer := by rw [hconf.connections]
  -- a reset failure count does not matter
  obtain ⟨c, hc⟩ : ∃ c, (if block.height < m₁.estimatedHeight ∧ some peer = m₁.downloadPeer then
      { m₁ with connectFailureCount := 0 } else m₁) = { m₁ with connectFailureCount := c } := by
    split
    · exact ⟨0, rfl⟩
    · exact ⟨m₁.connectFailureCount, rfl⟩
  have hone₁ : OnePeer env peer { m₁ with connectFailureCount := c } :=
    ⟨by rw [hpeers]; exact hone.connected, by rw [hdown]; exact hone.download, hone.rate⟩
  rw [hc] at h₃
  obtain rfl := hone₁.completeDownload h₃
  refine ⟨rfl, ?_, ?_, Or.inl ⟨hhigh, ?_⟩, hconf.bloomFilter, hpeers, hdown,
    hconf.earliestKeyTime⟩
  · change m₁.toBlockStore.blocks = _
    rw [hconf.store]
  · change m₁.toBlockStore.orphans = _
    rw [hconf.store]
  · change m₁.toBlockStore.lastBlock = _
    rw [hconf.store]

theorem reorganize_stored
    (hone : OnePeer env peer m)
    (hhigh : last.height < block.height)
    (h : BRPeerManager.reorganize env
      { m with blocks := KeyedList.add (·.blockHash) m.blocks block } block last = .ok r) :
    StoredBlock m last block r := by
  obtain ⟨⟨j, b2⟩, -, h⟩ := bind_eq_ok.mp h
  cases j with
  | none =>
      cases h
  | some j =>
      obtain ⟨⟨w₁, es₁⟩, -, h⟩ := bind_eq_ok.mp h
      obtain ⟨⟨w₂, es₂⟩, -, h⟩ := bind_eq_ok.mp h
      obtain ⟨⟨m₃, count⟩, h₃, hret⟩ := bind_eq_ok.mp h
      cases hret
      have hone₂ : OnePeer env peer
          { m with
            blocks := KeyedList.add (·.blockHash) m.blocks block
            wallet := w₂
            lastBlock := some block } :=
        ⟨hone.connected, hone.download, hone.rate⟩
      obtain rfl := hone₂.completeDownload h₃
      exact ⟨rfl, rfl, rfl, Or.inl ⟨hhigh, rfl⟩, rfl, rfl, rfl, rfl⟩

/-- A new block is stored, if it is not on a fork below the last checkpoint. -/
theorem valid_stored
    (hone : OnePeer env peer m)
    (hlast : m.lastBlock = some last)
    (hnew : m.blocks.get block.blockHash = none)
    (hlow : env.lastblock peer ≤ last.height)
    (hfork : block.height ≤ env.lastCheckpointHeight → block.prevBlock = last.blockHash)
    (hnext : block.prevBlock = last.blockHash → last.height < block.height)
    (h : Valid env m peer block prev r) :
    StoredBlock m last block r := by
  cases h with
  | extended hl hlink hext =>
      rw [hlast] at hl
      cases hl
      exact extendChain_stored hone (hnext hlink) hext
  | existing _ _ hold _ =>
      rw [hnew] at hold
      cases hold
  | postponed hl _ _ hbehind _ =>
      rw [hlast] at hl
      cases hl
      omega
  | oldFork hl hne _ hold =>
      rw [hlast] at hl
      cases hl
      exact absurd (hfork hold) hne
  | lowFork hl _ _ _ hle =>
      rw [hlast] at hl
      cases hl
      exact ⟨rfl, rfl, rfl, Or.inr ⟨hle, hlast⟩, rfl, rfl, rfl, rfl⟩
  | highFork hl _ _ _ hhigh hre =>
      rw [hlast] at hl
      cases hl
      exact reorganize_stored hone hhigh hre

/-- What stands behind the branches does not fail. -/
theorem finish_returns
    {tree : BlockTree}
    (hm : tree.Fits m.toBlockStore)
    (hb : tree.Names block)
    (hr : Branch env m peer (m.placeBlock block) r)
    {e : ManagerFault} :
    r.finish ≠ .error e := by
  intro h
  have hfits := fits_branch hm hb hr
  rw [Handled.finish] at h
  split at h
  · cases h
  · rename_i b hblock
    obtain rfl := branch_block hr hblock
    cases hr with
    | orphan _ _ hprev _ =>
        rcases bind_eq_error.mp h with h | ⟨_, -, h⟩
        · cases h
        · cases h
    | valid _ _ hprev _ _ =>
        rw [placeBlock_prevBlock] at hprev
        have hholds := holds_placeBlock hm.stores hb hprev
        have hblocks : (r.manager.releaseNext (m.placeBlock block)).1.blocks =
            r.manager.blocks := by
          rw [releaseNext]
          split <;> rfl
        obtain ⟨saved, hsaved⟩ := savedBlocks_returns hfits.ranked hholds r.saveCount
        generalize r.manager.releaseNext (m.placeBlock block) = p at h hblocks
        obtain ⟨m₁, next⟩ := p
        dsimp only at h hblocks
        rw [← hblocks] at hsaved
        rcases bind_eq_error.mp h with h | ⟨_, -, h⟩
        · rw [hsaved] at h
          cases h
        · cases h
    | _ => cases hblock

end BRPeerManager

end BreadwalletCore
