import BreadwalletCore.PeerManager.Relay

/-!
# Blocks and their hashes

A block hash commits to the header of the block, so it determines the hash of
the predecessor and, counted from the first block, the height.  `BlockTree` is
such an assignment.  What fits into one tree keeps doing so: the stored blocks
have the heights of the tree, and a walk to a predecessor goes down by one.

The last part is the rule for runs: `_peerRelayedBlock` calls itself for a
block that it has taken out of `orphans`, at most as often as there are orphans
of greater height.
-/

namespace BreadwalletCore

open Machine Ancestry

/-- What hashes stand for.  The hash 0 is in the place of a predecessor that
there is not. -/
structure BlockTree where
  parent : UInt256 → UInt256
  height : UInt256 → ℕ
  height_eq : ∀ h, parent h ≠ 0 → height h = height (parent h) + 1

namespace BlockTree

/-- The block is what its hash stands for. -/
structure Names (tree : BlockTree) (b : ChainBlock) : Prop where
  hash : b.blockHash ≠ 0
  parent : b.prevBlock = tree.parent b.blockHash

/-- The block has the height of its hash.  A block that stands for a checkpoint
has no predecessor. -/
structure Holds (tree : BlockTree) (b : ChainBlock) : Prop where
  hash : b.blockHash ≠ 0
  parent : b.prevBlock = tree.parent b.blockHash ∨ b.prevBlock = 0
  height : b.height = tree.height b.blockHash

/-- All blocks of the manager fit into the tree. -/
structure Fits (tree : BlockTree) (s : BlockStore) : Prop where
  blocks : ∀ h b, s.blocks.get h = some b → tree.Holds b
  orphans : ∀ b ∈ s.orphans, tree.Names b
  lastBlock : ∀ b, s.lastBlock = some b → tree.Holds b

/-- The stored blocks and `lastBlock` fit into the tree. -/
structure Stores (tree : BlockTree) (s : BlockStore) : Prop where
  blocks : ∀ h b, s.blocks.get h = some b → tree.Holds b
  lastBlock : ∀ b, s.lastBlock = some b → tree.Holds b

variable {tree : BlockTree} {s s' : BlockStore} {block prev b : ChainBlock}

theorem Fits.stores
    (hs : tree.Fits s) :
    tree.Stores s :=
  ⟨hs.blocks, hs.lastBlock⟩

/-- A block behind another one is one lower. -/
theorem Holds.height_prev
    (hb : tree.Holds b)
    (hp : tree.Holds prev)
    (hlink : b.prevBlock = prev.blockHash) :
    b.height = prev.height + 1 := by
  have hne : b.prevBlock ≠ 0 := by
    rw [hlink]
    exact hp.hash
  have hparent := hb.parent.resolve_right hne
  rw [hb.height, tree.height_eq b.blockHash (hparent ▸ hne), ← hparent, hlink, hp.height]

theorem ranked
    {blocks : BlockSet}
    (hblocks : ∀ h b, blocks.get h = some b → tree.Holds b) :
    Ranked blocks.parent ChainBlock.height tree.Holds where
  closed := fun _ hup => hblocks _ _ hup
  rank_up := fun ha hup =>
    ha.height_prev (hblocks _ _ hup) (BlockSet.get_hash hup).symm

theorem Fits.ranked
    (hs : tree.Fits s) :
    Ranked s.blocks.parent ChainBlock.height tree.Holds :=
  BlockTree.ranked hs.blocks

theorem Stores.cleared
    (hs : tree.Stores s)
    (h : s.Cleared s') :
    tree.Stores s' where
  blocks := by
    rw [h.blocks]
    exact hs.blocks
  lastBlock := by
    rw [h.lastBlock]
    exact hs.lastBlock

theorem Fits.cleared
    (hs : tree.Fits s)
    (h : s.Cleared s') :
    tree.Fits s' where
  blocks := (hs.stores.cleared h).blocks
  orphans := by
    intro b hb
    rcases h.orphans with ⟨ho, -⟩ | ⟨hnil, -⟩
    · rw [ho] at hb
      exact hs.orphans b hb
    · rw [hnil] at hb
      cases hb
  lastBlock := (hs.stores.cleared h).lastBlock

theorem Stores.freed
    {Q : ChainBlock → Prop}
    (hs : tree.Stores s)
    (h : BlockStore.Freed Q s s') :
    tree.Stores s' where
  blocks := fun h' b hb => hs.blocks h' b (h.get_of_some hb)
  lastBlock := by
    rw [h.lastBlock]
    exact hs.lastBlock

/-- A stored block behind which one is linked gives it its height. -/
theorem Names.holds
    (hb : tree.Names b)
    (hp : tree.Holds prev)
    (hlink : b.prevBlock = prev.blockHash)
    (hheight : b.height = prev.height + 1) :
    tree.Holds b where
  hash := hb.hash
  parent := Or.inl hb.parent
  height := by
    have hne : tree.parent b.blockHash ≠ 0 := by
      rw [← hb.parent, hlink]
      exact hp.hash
    rw [hheight, tree.height_eq b.blockHash hne, ← hb.parent, hlink, hp.height]

theorem holds_add
    {blocks : BlockSet}
    (hblocks : ∀ h b, blocks.get h = some b → tree.Holds b)
    (hb : tree.Holds block) :
    ∀ h b, BlockSet.get (KeyedList.add (·.blockHash) blocks block) h = some b →
      tree.Holds b := by
  intro h b hget
  rw [BlockSet.get_add] at hget
  split at hget
  · cases hget
    exact hb
  · exact hblocks h b hget

end BlockTree

namespace BRPeerManager

variable {env : Env} {m m' : BRPeerManager} {peer : BRPeer} {block prev last b : ChainBlock}
variable {es : List ManagerEvent} {r : Handled} {next : Option ChainBlock} {tree : BlockTree}

@[simp] theorem placeBlock_blockHash
    (m : BRPeerManager) (block : ChainBlock) :
    (m.placeBlock block).blockHash = block.blockHash := by
  rw [placeBlock]
  split <;> rfl

@[simp] theorem placeBlock_prevBlock
    (m : BRPeerManager) (block : ChainBlock) :
    (m.placeBlock block).prevBlock = block.prevBlock := by
  rw [placeBlock]
  split <;> rfl

@[simp] theorem placeBlock_txHashes
    (m : BRPeerManager) (block : ChainBlock) :
    (m.placeBlock block).txHashes = block.txHashes := by
  rw [placeBlock]
  split <;> rfl

theorem placeBlock_height
    (h : m.blocks.get block.prevBlock = some prev) :
    (m.placeBlock block).height = prev.height + 1 := by
  rw [placeBlock, h]

theorem names_placeBlock
    (hb : tree.Names block) :
    tree.Names (m.placeBlock block) :=
  ⟨by simpa using hb.hash, by simpa using hb.parent⟩

theorem holds_placeBlock
    (hm : tree.Stores m.toBlockStore)
    (hb : tree.Names block)
    (h : m.blocks.get block.prevBlock = some prev) :
    tree.Holds (m.placeBlock block) :=
  (names_placeBlock hb).holds (hm.blocks _ _ h)
    (by rw [placeBlock_prevBlock, BlockSet.get_hash h]) (placeBlock_height h)

/-! ## The orphans -/

theorem replaceBlock_blocks
    (m : BRPeerManager) (block : ChainBlock) :
    (m.replaceBlock block).blocks = KeyedList.add (·.blockHash) m.blocks block := by
  rw [replaceBlock]
  dsimp only
  split
  · rfl
  · split <;> rfl

theorem replaceBlock_lastBlock
    (m : BRPeerManager) (block : ChainBlock) :
    (m.replaceBlock block).lastBlock = m.lastBlock := by
  rw [replaceBlock]
  dsimp only
  split
  · rfl
  · split <;> rfl

theorem replaceBlock_orphans
    (m : BRPeerManager) (block : ChainBlock) :
    List.Sublist (m.replaceBlock block).orphans m.orphans := by
  rw [replaceBlock]
  dsimp only
  split
  · exact List.Sublist.refl _
  · split
    · exact List.Sublist.refl _
    · split
      · exact List.filter_sublist
      · exact List.Sublist.refl _

theorem valid_orphans
    (h : Valid env m peer block prev r) :
    List.Sublist r.manager.orphans (block :: m.orphans) := by
  have hcleared : ∀ {s : BlockStore}, s.orphans = m.orphans →
      s.Cleared r.manager.toBlockStore →
      List.Sublist r.manager.orphans (block :: m.orphans) := by
    intro s hs hc
    rcases hc.orphans with ⟨ho, -⟩ | ⟨hnil, -⟩
    · rw [ho, hs]
      exact List.sublist_cons_self _ _
    · rw [hnil]
      exact List.nil_sublist _
  cases h with
  | extended _ _ hext =>
      obtain ⟨m₁, m₂, c, hconf, rfl, hre, -, -⟩ := extendChain_ok hext
      have hstore := (confirmTxs_ok hconf).1.store
      exact hcleared (by rw [hstore]) hre.store
  | existing _ _ _ hex =>
      obtain ⟨b, m₁, -, hman, -, -, hcase⟩ := relayExisting_ok hex
      have hm₁ : m₁.orphans = m.orphans := by
        rcases hcase with ⟨-, rfl, -⟩ | ⟨-, m₂, hconf, rfl⟩
        · rfl
        · have hstore := (confirmTxs_ok hconf).1.store
          split
          · change m₂.toBlockStore.orphans = m.orphans
            rw [hstore]
          · rw [hstore]
      rw [hman]
      refine (replaceBlock_orphans _ _).trans ?_
      rw [hm₁]
      exact List.sublist_cons_self _ _
  | postponed _ _ _ _ _ =>
      exact List.Sublist.cons_cons _ List.filter_sublist
  | oldFork _ _ _ _ =>
      exact List.sublist_cons_self _ _
  | lowFork _ _ _ _ _ =>
      exact List.sublist_cons_self _ _
  | highFork _ _ _ _ _ hre =>
      obtain ⟨_, _, _, _, _, _, _, _, _, hre, -⟩ := reorganize_ok hre
      refine hcleared ?_ hre.store
      rfl

/-- A call adds no other orphan than its block. -/
theorem branch_orphans
    (h : Branch env m peer block r) :
    List.Sublist r.manager.orphans (block :: m.orphans) := by
  cases h with
  | header _ =>
      exact List.sublist_cons_self _ _
  | waiting _ _ =>
      exact List.sublist_cons_self _ _
  | oldOrphan _ _ _ _ =>
      exact List.sublist_cons_self _ _
  | orphan _ _ _ _ =>
      exact List.Sublist.cons_cons _ List.filter_sublist
  | invalid _ _ _ hverify =>
      have hfreed := (BlockStore.verifyBlock_ok hverify).1.orphans
      rw [ignoreBlock]
      dsimp only
      rw [hfreed]
      exact List.sublist_cons_self _ _
  | valid _ _ _ hverify hvalid =>
      have hfreed := (BlockStore.verifyBlock_ok hverify).1.orphans
      have hsub := valid_orphans hvalid
      dsimp only at hsub
      rw [hfreed] at hsub
      exact hsub

/-! ## The tree is kept -/

theorem stores_valid
    (hm : tree.Stores m.toBlockStore)
    (hh : tree.Holds block)
    (h : Valid env m peer block prev r) :
    tree.Stores r.manager.toBlockStore := by
  have hadd := BlockTree.holds_add hm.blocks hh
  cases h with
  | extended _ _ hext =>
      obtain ⟨m₁, m₂, c, hconf, rfl, hre, -, -⟩ := extendChain_ok hext
      refine BlockTree.Stores.cleared ?_ hre.store
      have hstore := (confirmTxs_ok hconf).1.store
      change tree.Stores m₁.toBlockStore
      rw [hstore]
      refine ⟨hadd, ?_⟩
      intro b hlast
      cases hlast
      exact hh
  | existing hlast _ _ hex =>
      obtain ⟨b, m₁, -, hman, -, -, hcase⟩ := relayExisting_ok hex
      have hm₁ : tree.Stores m₁.toBlockStore ∧ m₁.blocks = m.blocks := by
        rcases hcase with ⟨-, rfl, -⟩ | ⟨-, m₂, hconf, rfl⟩
        · exact ⟨hm, rfl⟩
        · have hstore := (confirmTxs_ok hconf).1.store
          have hm₂ : tree.Stores m₂.toBlockStore := by
            rw [hstore]
            exact hm
          have hblocks : m₂.blocks = m.blocks := by rw [hstore]
          split
          · refine ⟨⟨hm₂.blocks, ?_⟩, hblocks⟩
            intro b hlast
            cases hlast
            exact hh
          · exact ⟨hm₂, hblocks⟩
      rw [hman]
      refine ⟨?_, ?_⟩
      · rw [replaceBlock_blocks, hm₁.2]
        exact hadd
      · rw [replaceBlock_lastBlock]
        exact hm₁.1.lastBlock
  | postponed _ _ _ _ _ =>
      exact ⟨hm.blocks, hm.lastBlock⟩
  | oldFork _ _ _ _ =>
      exact ⟨hm.blocks, hm.lastBlock⟩
  | lowFork _ _ _ _ _ =>
      exact ⟨hadd, hm.lastBlock⟩
  | highFork _ _ _ _ _ hre =>
      obtain ⟨_, _, _, _, _, _, _, _, _, hre, -⟩ := reorganize_ok hre
      refine BlockTree.Stores.cleared ?_ hre.store
      refine ⟨hadd, ?_⟩
      intro b hlast
      cases hlast
      exact hh

theorem stores_branch
    (hm : tree.Stores m.toBlockStore)
    (hb : tree.Names block)
    (h : Branch env m peer (m.placeBlock block) r) :
    tree.Stores r.manager.toBlockStore := by
  cases h with
  | header _ =>
      exact ⟨hm.blocks, hm.lastBlock⟩
  | waiting _ _ =>
      exact ⟨hm.blocks, hm.lastBlock⟩
  | oldOrphan _ _ _ _ =>
      exact ⟨hm.blocks, hm.lastBlock⟩
  | orphan _ _ _ _ =>
      exact ⟨hm.blocks, hm.lastBlock⟩
  | invalid _ _ _ hverify =>
      have hs := hm.freed (BlockStore.verifyBlock_ok hverify).1
      exact ⟨hs.blocks, hs.lastBlock⟩
  | valid _ _ hprev hverify hvalid =>
      rw [placeBlock_prevBlock] at hprev
      have hs := hm.freed (BlockStore.verifyBlock_ok hverify).1
      exact stores_valid hs (holds_placeBlock hm hb hprev) hvalid

theorem fits_branch
    (hm : tree.Fits m.toBlockStore)
    (hb : tree.Names block)
    (h : Branch env m peer (m.placeBlock block) r) :
    tree.Fits r.manager.toBlockStore where
  blocks := (stores_branch hm.stores hb h).blocks
  orphans := by
    intro o ho
    rcases List.mem_cons.mp ((branch_orphans h).subset ho) with rfl | ho
    · exact names_placeBlock hb
    · exact hm.orphans o ho
  lastBlock := (stores_branch hm.stores hb h).lastBlock

theorem releaseNext_ok
    (h : m.releaseNext block = (m', next)) :
    (block.height = blockUnknownHeight ∧ m' = m ∧ next = none) ∨
      (block.height ≠ blockUnknownHeight ∧
        m' = { m with
          estimatedHeight := max m.estimatedHeight block.height
          orphans := KeyedList.remove (·.prevBlock) m.orphans block.blockHash } ∧
        next = m.orphans.getPrev block.blockHash) := by
  rw [releaseNext] at h
  split at h
  · rename_i hunknown
    cases h
    exact Or.inl ⟨hunknown, rfl, rfl⟩
  · rename_i hknown
    cases h
    exact Or.inr ⟨hknown, rfl, rfl⟩

/-- One call keeps the tree, and the block it goes on with belongs to it. -/
theorem fits_relayStep
    (hm : tree.Fits m.toBlockStore)
    (hb : tree.Names block)
    (h : m.relayStep env peer block = .ok (m', es, next)) :
    tree.Fits m'.toBlockStore ∧ ∀ n, next = some n → tree.Names n := by
  obtain ⟨r, hr, hfin⟩ := relayStep_ok h
  have hfits := fits_branch hm hb hr
  rcases finish_ok hfin with ⟨-, rfl, -, rfl⟩ | ⟨b, saved, -, hrel, -, -⟩
  · refine ⟨hfits, ?_⟩
    intro n hn
    cases hn
  · rcases releaseNext_ok hrel with ⟨-, rfl, rfl⟩ | ⟨-, rfl, rfl⟩
    · refine ⟨hfits, ?_⟩
      intro n hn
      cases hn
    · refine ⟨⟨hfits.blocks, ?_, hfits.lastBlock⟩, ?_⟩
      · exact fun o ho => hfits.orphans o (List.mem_of_mem_filter ho)
      · exact fun n hn => hfits.orphans n (KeyedList.mem_of_get hn)

/-! ## Runs -/

/-- A branch hands on no other block than its own. -/
theorem branch_block
    (h : Branch env m peer block r)
    (hb : r.block = some b) :
    b = block := by
  cases h with
  | header _ =>
      cases hb
  | waiting _ _ =>
      cases hb
  | oldOrphan _ _ _ _ =>
      cases hb
  | orphan _ _ _ _ =>
      cases hb
      rfl
  | invalid _ _ _ _ =>
      cases hb
  | valid _ _ _ _ hvalid =>
      cases hvalid with
      | extended _ _ hext =>
          obtain ⟨_, _, _, -, -, -, hblock, -⟩ := extendChain_ok hext
          rw [hblock] at hb
          cases hb
          rfl
      | existing _ _ _ hex =>
          obtain ⟨_, _, -, -, hblock, -, -⟩ := relayExisting_ok hex
          rw [hblock] at hb
          cases hb
          rfl
      | postponed _ _ _ _ _ =>
          cases hb
          rfl
      | oldFork _ _ _ _ =>
          cases hb
      | lowFork _ _ _ _ _ =>
          cases hb
          rfl
      | highFork _ _ _ _ _ hre =>
          obtain ⟨_, _, _, _, _, _, -, -, -, -, -, hblock, -⟩ := reorganize_ok hre
          rw [hblock] at hb
          cases hb
          rfl

/-- The orphans that are higher than a block. -/
def pendingAbove (tree : BlockTree) (m : BRPeerManager) (block : ChainBlock) :
    List ChainBlock :=
  m.orphans.filter (fun o => tree.height block.blockHash < tree.height o.blockHash)

/-- Each recursive call has fewer orphans above it. -/
theorem pendingAbove_lt
    {n : ChainBlock}
    (hm : tree.Fits m.toBlockStore)
    (hb : tree.Names block)
    (h : m.relayStep env peer block = .ok (m', es, some n)) :
    (pendingAbove tree m' n).length < (pendingAbove tree m block).length := by
  obtain ⟨r, hr, hfin⟩ := relayStep_ok h
  have hfits := fits_branch hm hb hr
  have hsub := branch_orphans hr
  rcases finish_ok hfin with ⟨-, -, -, hnone⟩ | ⟨b, saved, hblock, hrel, -, -⟩
  · cases hnone
  have hhash : b.blockHash = block.blockHash := by
    rw [← placeBlock_blockHash m block]
    exact branch_block hr hblock ▸ rfl
  rcases releaseNext_ok hrel with ⟨-, -, hnone⟩ | ⟨-, rfl, hnext⟩
  · cases hnone
  have hn : n ∈ r.manager.orphans := KeyedList.mem_of_get hnext.symm
  have hprev : n.prevBlock = block.blockHash := by
    rw [BlockSet.getPrev_prevBlock hnext.symm, hhash]
  have hheight : tree.height n.blockHash = tree.height block.blockHash + 1 := by
    have hnames := hfits.orphans n hn
    have hne : tree.parent n.blockHash ≠ 0 := by
      rw [← hnames.parent, hprev]
      exact hb.hash
    rw [tree.height_eq _ hne, ← hnames.parent, hprev]
  -- neither the block itself nor `n` is above `n`, but `n` is above the block
  have hself : ¬ tree.height n.blockHash < tree.height (m.placeBlock block).blockHash := by
    rw [placeBlock_blockHash]
    omega
  have hold : n ∈ m.orphans := by
    rcases List.mem_cons.mp (hsub.subset hn) with rfl | hold
    · rw [placeBlock_blockHash] at hheight
      omega
    · exact hold
  have hle : List.Sublist
      (pendingAbove tree
        { r.manager with
          estimatedHeight := max r.manager.estimatedHeight b.height
          orphans := KeyedList.remove (·.prevBlock) r.manager.orphans b.blockHash } n)
      (m.orphans.filter (fun o => tree.height n.blockHash < tree.height o.blockHash)) := by
    refine (List.Sublist.filter _ (List.filter_sublist.trans hsub)).trans ?_
    rw [List.filter_cons_of_neg (by simpa using hself)]
  have hfilter : m.orphans.filter
      (fun o => tree.height n.blockHash < tree.height o.blockHash) =
        (pendingAbove tree m block).filter
          (fun o => tree.height n.blockHash < tree.height o.blockHash) := by
    rw [pendingAbove, List.filter_filter]
    refine List.filter_congr (fun o _ => ?_)
    rw [← Bool.decide_and, decide_eq_decide]
    omega
  refine lt_of_le_of_lt hle.length_le ?_
  rw [hfilter, List.length_filter_lt_length_iff_exists]
  refine ⟨n, List.mem_filter.mpr ⟨hold, ?_⟩, by simp⟩
  simp only [decide_eq_true_eq]
  omega

/-- Every call of the recursion meets a condition. -/
def RelayGuard (env : Env) (peer : BRPeer) (ok : BRPeerManager → ChainBlock → Prop) :
    ℕ → BRPeerManager → ChainBlock → Prop
  | 0, _, _ => True
  | n + 1, m, block =>
      ok m block ∧ ∀ m' es next, m.relayStep env peer block = .ok (m', es, some next) →
        RelayGuard env peer ok n m' next

section Rule

variable {ok : BRPeerManager → ChainBlock → Prop} {I : BRPeerManager → Prop}
variable {Q : BRPeerManager → ChainBlock → Prop} {n : ℕ}

/-- **Recursion rule**: what every call keeps, `_peerRelayedBlock` keeps. -/
theorem relayLoop_invariant
    (hstep : ∀ m b m' es next, I m → Q m b → ok m b →
      m.relayStep env peer b = .ok (m', es, next) →
      I m' ∧ ∀ x, next = some x → Q m' x)
    (hI : I m)
    (hQ : Q m block)
    (hguard : RelayGuard env peer ok n m block)
    (h : relayLoop env peer n m block = .ok (m', es)) :
    I m' := by
  induction n generalizing m block es with
  | zero =>
      cases h
  | succ n ih =>
      obtain ⟨⟨m₁, es₁, next⟩, hs, h⟩ := bind_eq_ok.mp h
      obtain ⟨hI', hnext⟩ := hstep m block m₁ es₁ next hI hQ hguard.1 hs
      cases next with
      | none =>
          cases h
          exact hI'
      | some x =>
          obtain ⟨⟨m₂, es₂⟩, hloop, hret⟩ := bind_eq_ok.mp h
          cases hret
          exact ih hI' (hnext x rfl) (hguard.2 m₁ es₁ x hs) hloop

/-- `_peerRelayedBlock` fails only in one of its calls: the recursion ends. -/
theorem relayLoop_error
    {e : ManagerFault}
    (hfits : ∀ m, I m → tree.Fits m.toBlockStore)
    (hnames : ∀ m b, Q m b → tree.Names b)
    (hstep : ∀ m b m' es next, I m → Q m b → ok m b →
      m.relayStep env peer b = .ok (m', es, next) →
      I m' ∧ ∀ x, next = some x → Q m' x)
    (hI : I m)
    (hQ : Q m block)
    (hguard : RelayGuard env peer ok n m block)
    (hfuel : (pendingAbove tree m block).length < n)
    (h : relayLoop env peer n m block = .error e) :
    ∃ m b, I m ∧ Q m b ∧ ok m b ∧ m.relayStep env peer b = .error e := by
  induction n generalizing m block with
  | zero =>
      omega
  | succ n ih =>
      rcases bind_eq_error.mp h with hs | ⟨⟨m₁, es₁, next⟩, hs, h⟩
      · exact ⟨m, block, hI, hQ, hguard.1, hs⟩
      · obtain ⟨hI', hnext⟩ := hstep m block m₁ es₁ next hI hQ hguard.1 hs
        cases next with
        | none =>
            cases h
        | some x =>
            have hlt := pendingAbove_lt (hfits m hI) (hnames m block hQ) hs
            rcases bind_eq_error.mp h with hloop | ⟨⟨m₂, es₂⟩, hloop, hret⟩
            · exact ih hI' (hnext x rfl) (hguard.2 m₁ es₁ x hs) (by omega) hloop
            · cases hret

theorem pendingAbove_fuel
    (tree : BlockTree) (m : BRPeerManager) (block : ChainBlock) :
    (pendingAbove tree m block).length < m.orphans.length + 2 := by
  have := List.length_filter_le
    (fun o : ChainBlock => decide (tree.height block.blockHash < tree.height o.blockHash))
    m.orphans
  rw [pendingAbove]
  omega

end Rule

end BRPeerManager

end BreadwalletCore
