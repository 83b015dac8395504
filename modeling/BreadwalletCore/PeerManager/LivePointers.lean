import BreadwalletCore.PeerManager.Faults
import BreadwalletCore.PeerManager.MainChain

/-!
# Live pointers

Blocks are shared between `blocks`, `checkpoints`, `orphans` and `lastBlock`, and
`_BRPeerManagerVerifyBlock` frees those that it prunes.  One call of
`_peerRelayedBlock` keeps these pointers live, and reads none that is `NULL`, if
it prunes neither `lastBlock` nor a block with the hash of a checkpoint, and if
the walk back from `lastBlock` is not cut above the block, or the fork.
-/

namespace BreadwalletCore

open Machine Ancestry

/-! ## What a call does to the block sets -/

/-- Only the relayed block has been added to the sets, in one of them, nothing
has been taken out of `blocks`, and `lastBlock` is the same or the block. -/
structure Moved (block : ChainBlock) (s s' : BlockStore) : Prop where
  checkpoints : s'.checkpoints = s.checkpoints
  orphans : List.Sublist s'.orphans (block :: s.orphans)
  blocks : ∀ h b, s'.blocks.get h = some b →
    s.blocks.get h = some b ∨ b = block ∧ List.Sublist s'.orphans s.orphans
  kept : ∀ h b, s.blocks.get h = some b → (s'.blocks.get h).isSome
  last : ∀ l, s.lastBlock = some l → s.blocks.get l.blockHash = some l →
    ∃ l', s'.lastBlock = some l' ∧ s'.blocks.get l'.blockHash = some l'

namespace Moved

variable {block : ChainBlock} {s s₁ s' : BlockStore}

/-- The sets are as they were. -/
theorem same
    (block : ChainBlock)
    (hcheck : s'.checkpoints = s.checkpoints)
    (horphans : s'.orphans = s.orphans)
    (hblocks : s'.blocks = s.blocks)
    (hlast : s'.lastBlock = s.lastBlock) :
    Moved block s s' where
  checkpoints := hcheck
  orphans := by
    rw [horphans]
    exact List.sublist_cons_self _ _
  blocks := by
    rw [hblocks]
    exact fun _ _ h => Or.inl h
  kept := by
    rw [hblocks]
    exact fun _ _ h => Option.isSome_of_eq_some h
  last := by
    rw [hblocks, hlast]
    exact fun l hl hget => ⟨l, hl, hget⟩

/-- The block has been stored. -/
theorem stored
    (hcheck : s'.checkpoints = s.checkpoints)
    (horphans : List.Sublist s'.orphans s.orphans)
    (hblocks : s'.blocks = KeyedList.add (·.blockHash) s.blocks block)
    (hlast : ∀ l, s.lastBlock = some l → s.blocks.get l.blockHash = some l →
      s'.lastBlock = some block ∨ s'.lastBlock = some l ∧ l.blockHash ≠ block.blockHash) :
    Moved block s s' where
  checkpoints := hcheck
  orphans := horphans.trans (List.sublist_cons_self _ _)
  blocks := by
    intro h b hb
    rw [hblocks, BlockSet.get_add] at hb
    split at hb
    · cases hb
      exact Or.inr ⟨rfl, horphans⟩
    · exact Or.inl hb
  kept := by
    intro h b hb
    rw [hblocks, BlockSet.get_add]
    split
    · rfl
    · rw [hb]
      rfl
  last := by
    intro l hl hget
    rcases hlast l hl hget with heq | ⟨heq, hne⟩
    · refine ⟨block, heq, ?_⟩
      rw [hblocks, BlockSet.get_add, if_pos rfl]
    · refine ⟨l, heq, ?_⟩
      rw [hblocks, BlockSet.get_add, if_neg hne.symm]
      exact hget

/-- Clearing the orphans behind it changes nothing. -/
theorem cleared
    (h : Moved block s s₁)
    (hc : s₁.Cleared s') :
    Moved block s s' where
  checkpoints := hc.checkpoints.trans h.checkpoints
  orphans := by
    rcases hc.orphans with ⟨ho, -⟩ | ⟨hnil, -⟩
    · rw [ho]
      exact h.orphans
    · rw [hnil]
      exact List.nil_sublist _
  blocks := by
    intro k b hb
    rw [hc.blocks] at hb
    rcases h.blocks k b hb with hold | ⟨heq, hsub⟩
    · exact Or.inl hold
    · refine Or.inr ⟨heq, ?_⟩
      rcases hc.orphans with ⟨ho, -⟩ | ⟨hnil, -⟩
      · rw [ho]
        exact hsub
      · rw [hnil]
        exact List.nil_sublist _
  kept := by
    rw [hc.blocks]
    exact h.kept
  last := by
    rw [hc.blocks, hc.lastBlock]
    exact h.last

end Moved

namespace BRPeerManager

variable {env : Env} {m m' : BRPeerManager} {peer : BRPeer} {block prev last b : ChainBlock}
variable {es : List ManagerEvent} {r : Handled} {next : Option ChainBlock} {tree : BlockTree}

theorem replaceBlock_checkpoints
    (m : BRPeerManager) (block : ChainBlock) :
    (m.replaceBlock block).checkpoints = m.checkpoints := by
  rw [replaceBlock]
  dsimp only
  split
  · rfl
  · split <;> rfl

/-- A valid block is put into one set. -/
theorem valid_moved
    (hm : tree.Stores m.toBlockStore)
    (hh : tree.Holds block)
    (h : Valid env m peer block prev r) :
    Moved block m.toBlockStore r.manager.toBlockStore := by
  cases h with
  | extended _ _ hext =>
      obtain ⟨m₁, m₂, c, hconf, rfl, hre, -⟩ := extendChain_ok hext
      have hstore := (confirmTxs_ok hconf).1.store
      have hmoved : Moved block m.toBlockStore m₁.toBlockStore := by
        rw [hstore]
        exact .stored rfl (List.Sublist.refl _) rfl (fun _ _ _ => Or.inl rfl)
      exact hmoved.cleared hre.store
  | @existing l _ _ hlast _ _ hex =>
      obtain ⟨b, m₁, hwalk, hman, -, -, hcase⟩ := relayExisting_ok hex
      have hstore : m₁.blocks = m.blocks ∧ m₁.checkpoints = m.checkpoints ∧
          m₁.orphans = m.orphans := by
        rcases hcase with ⟨-, rfl, -⟩ | ⟨-, m₂, hconf, rfl⟩
        · exact ⟨rfl, rfl, rfl⟩
        · have hstore := (confirmTxs_ok hconf).1.store
          have hsame : m₂.blocks = m.blocks ∧ m₂.checkpoints = m.checkpoints ∧
              m₂.orphans = m.orphans := by
            rw [hstore]
            exact ⟨rfl, rfl, rfl⟩
          split <;> exact hsame
      rw [hman]
      refine .stored ?_ ?_ ?_ ?_
      · rw [replaceBlock_checkpoints, hstore.2.1]
      · rw [← hstore.2.2]
        exact replaceBlock_orphans _ _
      · rw [replaceBlock_blocks, hstore.1]
      · intro l' hl _
        obtain rfl : l = l' := Option.some.inj (hlast.symm.trans hl)
        rw [replaceBlock_lastBlock]
        rcases hcase with ⟨hne, rfl, -⟩ | ⟨-, m₂, hconf, rfl⟩
        · refine Or.inr ⟨hl, ?_⟩
          -- at its own height the walk ends at `lastBlock`
          intro heq
          have hheight : l.height = block.height := by
            rw [(hm.lastBlock l hl).height, hh.height, heq]
          rw [BlockSet.walkDown, if_neg (by omega)] at hwalk
          cases hwalk
          exact hne heq
        · split
          · exact Or.inl rfl
          · rename_i hheight
            refine Or.inr ⟨?_, ?_⟩
            · rw [(confirmTxs_ok hconf).1.store]
              exact hl
            · intro heq
              rw [(hm.lastBlock l hl).height, hh.height, heq] at hheight
              exact hheight rfl
  | postponed _ _ _ _ _ =>
      refine ⟨rfl, ?_, fun _ _ h => Or.inl h, fun _ _ h => Option.isSome_of_eq_some h,
        fun l hl hget => ⟨l, hl, hget⟩⟩
      exact List.Sublist.cons_cons _ List.filter_sublist
  | oldFork _ _ _ _ =>
      exact .same _ rfl rfl rfl rfl
  | lowFork hlast _ hnew _ _ =>
      refine .stored rfl (List.Sublist.refl _) rfl (fun l hl hget => Or.inr ⟨hl, ?_⟩)
      intro heq
      rw [← heq, hget] at hnew
      cases hnew
  | highFork _ _ _ _ _ hre =>
      obtain ⟨_, _, _, w₂, _, _, _, _, _, hre, -⟩ := reorganize_ok hre
      have hmoved : Moved block m.toBlockStore
          { m with
            blocks := KeyedList.add (·.blockHash) m.blocks block
            wallet := w₂
            lastBlock := some block : BRPeerManager }.toBlockStore :=
        .stored rfl (List.Sublist.refl _) rfl (fun _ _ _ => Or.inl rfl)
      exact hmoved.cleared hre.store

end BRPeerManager

/-! ## Live pointers -/

/-- The pointers of a manager are live: `lastBlock` is a stored block, the hash
of each checkpoint is stored, and no pruned object is referenced.  Objects are
told apart by their addresses. -/
structure Live (checkpointArray : List Checkpoint) (pruned : ℕ → Prop) (s : BlockStore) :
    Prop where
  last : ∃ b, s.lastBlock = some b ∧ s.blocks.get b.blockHash = some b
  rows : ∀ row ∈ checkpointArray, (s.blocks.get row.hash).isSome
  checkpoints : ∀ c ∈ s.checkpoints, ∃ row ∈ checkpointArray, c.blockHash = row.hash
  checkpointAddr : ∀ c ∈ s.checkpoints, ∀ h b, s.blocks.get h = some b → b.addr = c.addr →
    b.blockHash = c.blockHash
  storedAddr : ∀ h h' b b', s.blocks.get h = some b → s.blocks.get h' = some b' →
    b.addr = b'.addr → b = b'
  orphanAddr : ∀ o ∈ s.orphans, ∀ h b, s.blocks.get h = some b → b.addr ≠ o.addr
  orphanCheckpoint : ∀ o ∈ s.orphans, ∀ c ∈ s.checkpoints, c.addr ≠ o.addr
  orphansNodup : (s.orphans.map (·.addr)).Nodup
  prunedCheckpoint : ∀ c ∈ s.checkpoints, ¬ pruned c.addr
  prunedStored : ∀ h b, s.blocks.get h = some b → ¬ pruned b.addr
  prunedOrphan : ∀ o ∈ s.orphans, ¬ pruned o.addr

/-- The block is an object that nothing refers to yet. -/
structure FreshObject (pruned : ℕ → Prop) (s : BlockStore) (block : ChainBlock) : Prop where
  stored : ∀ h b, s.blocks.get h = some b → b.addr ≠ block.addr
  orphans : ∀ o ∈ s.orphans, o.addr ≠ block.addr
  checkpoints : ∀ c ∈ s.checkpoints, c.addr ≠ block.addr
  pruned : ¬ pruned block.addr

section Live

variable {checkpointArray : List Checkpoint} {pruned pruned' : ℕ → Prop} {s s' : BlockStore}
variable {block b : ChainBlock} {tree : BlockTree}

theorem Live.mono
    (hs : Live checkpointArray pruned s)
    (himp : ∀ a, pruned' a → pruned a) :
    Live checkpointArray pruned' s where
  last := hs.last
  rows := hs.rows
  checkpoints := hs.checkpoints
  checkpointAddr := hs.checkpointAddr
  storedAddr := hs.storedAddr
  orphanAddr := hs.orphanAddr
  orphanCheckpoint := hs.orphanCheckpoint
  orphansNodup := hs.orphansNodup
  prunedCheckpoint := fun c hc h => hs.prunedCheckpoint c hc (himp _ h)
  prunedStored := fun h b hb hp => hs.prunedStored h b hb (himp _ hp)
  prunedOrphan := fun o ho h => hs.prunedOrphan o ho (himp _ h)

/-- The addresses of the blocks that are no longer stored. -/
def Dropped (s s' : BlockStore) (a : ℕ) : Prop :=
  ∃ b, s.blocks.get b.blockHash = some b ∧ s'.blocks.get b.blockHash = none ∧ b.addr = a

/-- Pruning that removes neither `lastBlock` nor a block with the hash of a
checkpoint keeps the pointers live. -/
theorem Live.freed
    {Q : ChainBlock → Prop}
    (hs : Live checkpointArray pruned s)
    (hf : BlockStore.Freed Q s s')
    (hlast : ∀ b, s.lastBlock = some b → ¬ Q b)
    (hrows : ∀ b, Q b → ∀ row ∈ checkpointArray, b.blockHash ≠ row.hash) :
    Live checkpointArray (fun a => pruned a ∨ Dropped s s' a) s' where
  last := by
    obtain ⟨b, hb, hget⟩ := hs.last
    exact ⟨b, hf.lastBlock.trans hb, hf.get_of_not hget (hlast b hb)⟩
  rows := by
    intro row hrow
    obtain ⟨b, hb⟩ := Option.isSome_iff_exists.mp (hs.rows row hrow)
    have hnot : ¬ Q b := fun hQ => hrows b hQ row hrow (BlockSet.get_hash hb)
    rw [hf.get_of_not hb hnot]
    rfl
  checkpoints := by
    rw [hf.checkpoints]
    exact hs.checkpoints
  checkpointAddr := by
    rw [hf.checkpoints]
    exact fun c hc h b hb => hs.checkpointAddr c hc h b (hf.get_of_some hb)
  storedAddr := fun h h' b b' hb hb' =>
    hs.storedAddr h h' b b' (hf.get_of_some hb) (hf.get_of_some hb')
  orphanAddr := by
    rw [hf.orphans]
    exact fun o ho h b hb => hs.orphanAddr o ho h b (hf.get_of_some hb)
  orphanCheckpoint := by
    rw [hf.orphans, hf.checkpoints]
    exact hs.orphanCheckpoint
  orphansNodup := by
    rw [hf.orphans]
    exact hs.orphansNodup
  prunedCheckpoint := by
    rw [hf.checkpoints]
    rintro c hc (hp | ⟨b, hb, hnone, haddr⟩)
    · exact hs.prunedCheckpoint c hc hp
    · -- a removed block has no checkpoint's hash
      obtain ⟨row, hrow, hhash⟩ := hs.checkpoints c hc
      have heq := hs.checkpointAddr c hc _ b hb haddr
      rcases hf.get b.blockHash with hsame | ⟨-, b', hb', hQ⟩
      · rw [hsame, hb] at hnone
        cases hnone
      · rw [hb] at hb'
        cases hb'
        exact hrows b hQ row hrow (heq.trans hhash)
  prunedStored := by
    rintro h b hb (hp | ⟨b', hb', hnone, haddr⟩)
    · exact hs.prunedStored h b (hf.get_of_some hb) hp
    · have hold := hf.get_of_some hb
      obtain rfl := hs.storedAddr _ _ _ _ hb' hold haddr
      rw [BlockSet.get_hash hold, hb] at hnone
      cases hnone
  prunedOrphan := by
    rw [hf.orphans]
    rintro o ho (hp | ⟨b, hb, -, haddr⟩)
    · exact hs.prunedOrphan o ho hp
    · exact hs.orphanAddr o ho _ b hb haddr

theorem FreshObject.freed
    {Q : ChainBlock → Prop}
    (hs : FreshObject pruned s block)
    (hf : BlockStore.Freed Q s s') :
    FreshObject (fun a => pruned a ∨ Dropped s s' a) s' block where
  stored := fun h b hb => hs.stored h b (hf.get_of_some hb)
  orphans := by
    rw [hf.orphans]
    exact hs.orphans
  checkpoints := by
    rw [hf.checkpoints]
    exact hs.checkpoints
  pruned := by
    rintro (hp | ⟨b, hb, -, haddr⟩)
    · exact hs.pruned hp
    · exact hs.stored _ b hb haddr

/-- Putting a new object into one of the sets keeps the pointers live. -/
theorem Live.moved
    (hs : Live checkpointArray pruned s)
    (hfresh : FreshObject pruned s block)
    (h : Moved block s s') :
    Live checkpointArray pruned s' := by
  have horphan : ∀ o ∈ s'.orphans, o = block ∨ o ∈ s.orphans :=
    fun o ho => List.mem_cons.mp (h.orphans.subset ho)
  refine ⟨?_, ?_, ?_, ?_, ?_, ?_, ?_, ?_, ?_, ?_, ?_⟩
  · obtain ⟨l, hl, hget⟩ := hs.last
    exact h.last l hl hget
  · intro row hrow
    obtain ⟨b, hb⟩ := Option.isSome_iff_exists.mp (hs.rows row hrow)
    exact h.kept _ b hb
  · rw [h.checkpoints]
    exact hs.checkpoints
  · rw [h.checkpoints]
    intro c hc k b hb haddr
    rcases h.blocks k b hb with hold | ⟨rfl, -⟩
    · exact hs.checkpointAddr c hc k b hold haddr
    · exact absurd haddr.symm (hfresh.checkpoints c hc)
  · intro k k' b b' hb hb' haddr
    rcases h.blocks k b hb with hold | ⟨rfl, -⟩
    · rcases h.blocks k' b' hb' with hold' | ⟨rfl, -⟩
      · exact hs.storedAddr k k' b b' hold hold' haddr
      · exact absurd haddr (hfresh.stored k b hold)
    · rcases h.blocks k' b' hb' with hold' | ⟨rfl, -⟩
      · exact absurd haddr.symm (hfresh.stored k' b' hold')
      · rfl
  · intro o ho k b hb
    rcases h.blocks k b hb with hold | ⟨rfl, hsub⟩
    · rcases horphan o ho with rfl | ho
      · exact hfresh.stored k b hold
      · exact hs.orphanAddr o ho k b hold
    · exact (hfresh.orphans o (hsub.subset ho)).symm
  · rw [h.checkpoints]
    intro o ho c hc
    rcases horphan o ho with rfl | ho
    · exact hfresh.checkpoints c hc
    · exact hs.orphanCheckpoint o ho c hc
  · refine (h.orphans.map (·.addr)).nodup ?_
    rw [List.map_cons, List.nodup_cons]
    refine ⟨?_, hs.orphansNodup⟩
    intro hmem
    obtain ⟨o, ho, haddr⟩ := List.mem_map.mp hmem
    exact hfresh.orphans o ho haddr
  · rw [h.checkpoints]
    exact hs.prunedCheckpoint
  · intro k b hb
    rcases h.blocks k b hb with hold | ⟨rfl, -⟩
    · exact hs.prunedStored k b hold
    · exact hfresh.pruned
  · intro o ho
    rcases horphan o ho with rfl | ho
    · exact hfresh.pruned
    · exact hs.prunedOrphan o ho

/-- What has been taken out of `orphans` is referenced by nothing. -/
theorem Live.released
    {next : ChainBlock} {h : UInt256} {s : BlockStore}
    (hs : Live checkpointArray pruned s)
    (hnext : s.orphans.getPrev h = some next) :
    FreshObject pruned { s with orphans := KeyedList.remove (·.prevBlock) s.orphans h } next := by
  have hmem : next ∈ s.orphans := KeyedList.mem_of_get hnext
  refine ⟨fun k b hb => hs.orphanAddr next hmem k b hb, ?_,
    fun c hc => hs.orphanCheckpoint next hmem c hc, hs.prunedOrphan next hmem⟩
  intro o ho haddr
  obtain ⟨ho, hkey⟩ := List.mem_filter.mp ho
  obtain rfl := List.inj_on_of_nodup_map hs.orphansNodup ho hmem haddr
  exact of_decide_eq_true hkey (BlockSet.getPrev_prevBlock hnext)

/-- Fewer orphans and another `lastBlock`. -/
theorem Live.fewer
    (hs : Live checkpointArray pruned s)
    (hblocks : s'.blocks = s.blocks)
    (hcheck : s'.checkpoints = s.checkpoints)
    (hsub : List.Sublist s'.orphans s.orphans)
    (hlast : ∃ b, s'.lastBlock = some b ∧ s.blocks.get b.blockHash = some b) :
    Live checkpointArray pruned s' := by
  refine ⟨?_, ?_, ?_, ?_, ?_, ?_, ?_, (hsub.map _).nodup hs.orphansNodup, ?_, ?_, ?_⟩
  · rw [hblocks]
    exact hlast
  · rw [hblocks]
    exact hs.rows
  · rw [hcheck]
    exact hs.checkpoints
  · rw [hcheck, hblocks]
    exact hs.checkpointAddr
  · rw [hblocks]
    exact hs.storedAddr
  · rw [hblocks]
    exact fun o ho => hs.orphanAddr o (hsub.subset ho)
  · rw [hcheck]
    exact fun o ho => hs.orphanCheckpoint o (hsub.subset ho)
  · rw [hcheck]
    exact hs.prunedCheckpoint
  · rw [hblocks]
    exact hs.prunedStored
  · exact fun o ho => hs.prunedOrphan o (hsub.subset ho)

theorem Live.cleared
    (hs : Live checkpointArray pruned s)
    (hc : s.Cleared s') :
    Live checkpointArray pruned s' := by
  refine hs.fewer hc.blocks hc.checkpoints ?_ (by rw [hc.lastBlock]; exact hs.last)
  rcases hc.orphans with ⟨ho, -⟩ | ⟨hnil, -⟩
  · rw [ho]
  · rw [hnil]
    exact List.nil_sublist _

end Live

/-! ## The walks of a call -/

/-- A walk that meets only blocks without `Q` is not cut. -/
theorem BlockStore.Freed.above
    {Q : ChainBlock → Prop} {s s' : BlockStore} {P : ChainBlock → Prop} {a b : ChainBlock}
    (hf : Freed Q s s')
    (hr : Ranked s.blocks.parent ChainBlock.height P)
    (ha : P a)
    (hab : Above s.blocks.parent a b)
    (hno : ∀ c, Above s.blocks.parent a c → b.height ≤ c.height → ¬ Q c) :
    Above s'.blocks.parent a b := by
  obtain ⟨n, hn⟩ := hab
  induction n generalizing a with
  | zero =>
      exact ⟨0, hn⟩
  | succ n ih =>
      obtain ⟨p, hup, hn⟩ := Option.bind_eq_some_iff.mp hn
      have hp := hr.closed ha hup
      have hle := (hr.ancestor_rank hp hn).2
      refine Above.step ?_ (ih hp (fun c hc => hno c (Above.step hup hc)) hn)
      exact hf.get_of_not hup (hno p (Above.step hup (Above.refl _ _)) (by omega))

namespace BRPeerManager

variable {env : Env} {m m' : BRPeerManager} {peer : BRPeer} {block prev last b c : ChainBlock}
variable {es : List ManagerEvent} {r : Handled} {next : Option ChainBlock} {tree : BlockTree}

/-- The second block is stored behind the first, and the verification of `block`
prunes none of the blocks down to it. -/
def Spared (m : BRPeerManager) (block a b : ChainBlock) : Prop :=
  Above m.blocks.parent a b ∧
    ∀ c, Above m.blocks.parent a c → b.height ≤ c.height → ¬ m.toBlockStore.Doomed block c

/-- Is the branch for a fork that is higher than the main chain taken? -/
def TakesFork (env : Env) (m : BRPeerManager) (peer : BRPeer) (block last : ChainBlock) : Prop :=
  m.blocks.get block.blockHash = none ∧ last.height < block.height ∧
    env.lastCheckpointHeight < block.height ∧
    ¬ (last.height < env.lastblock peer ∧ last.height + 1 < block.height)

/-- What a call needs of a block with its height.  If its verification is
reached, it prunes neither `lastBlock` nor a block with the hash of a checkpoint.
If the block does not extend the main chain, and is stored or a higher fork, the
walk from `lastBlock` gets down to it, or meets the fork. -/
structure Sparing (checkpointArray : List Checkpoint) (env : Env) (peer : BRPeer)
    (m : BRPeerManager) (block : ChainBlock) : Prop where
  last : ∀ l, m.lastBlock = some l → ¬ m.toBlockStore.Doomed block l
  rows : ∀ b, m.toBlockStore.Doomed block b → ∀ row ∈ checkpointArray, b.blockHash ≠ row.hash
  reaches : ∀ l b, m.lastBlock = some l → block.prevBlock ≠ l.blockHash →
    m.blocks.get block.blockHash = some b → ∃ z, m.Spared block l z ∧ z.height ≤ block.height
  joins : ∀ l prev, m.lastBlock = some l → block.prevBlock ≠ l.blockHash →
    m.blocks.get block.prevBlock = some prev → TakesFork env m peer block l →
    ∃ z, m.Spared block l z ∧ m.Spared block prev z

/-- The objects that a call prunes, if it comes to the verification. -/
def Prunes (m : BRPeerManager) (block : ChainBlock) (a : ℕ) : Prop :=
  block.isRecentHeader m.earliestKeyTime = false ∧ m.bloomFilter ≠ none ∧
    ∃ prev s valid, m.blocks.get block.prevBlock = some prev ∧
      m.toBlockStore.verifyBlock block prev = .ok (s, valid) ∧ Dropped m.toBlockStore s a

/-- What a call needs, if it comes to the verification. -/
def SafeCall (checkpointArray : List Checkpoint) (env : Env) (peer : BRPeer)
    (m : BRPeerManager) (block : ChainBlock) : Prop :=
  (m.placeBlock block).isRecentHeader m.earliestKeyTime = false → m.bloomFilter ≠ none →
    Sparing checkpointArray env peer m (m.placeBlock block)

variable {checkpointArray : List Checkpoint} {pruned : ℕ → Prop}

theorem fresh_placeBlock
    (h : FreshObject pruned m.toBlockStore block) :
    FreshObject pruned m.toBlockStore (m.placeBlock block) := by
  rw [placeBlock]
  split
  · exact ⟨h.stored, h.orphans, h.checkpoints, h.pruned⟩
  · exact h

/-- Every branch keeps the pointers live. -/
theorem live_branch
    (hm : tree.Fits m.toBlockStore)
    (hlive : Live checkpointArray pruned m.toBlockStore)
    (hb : tree.Names block)
    (hfresh : FreshObject pruned m.toBlockStore block)
    (hsafe : SafeCall checkpointArray env peer m block)
    (h : Branch env m peer (m.placeBlock block) r) :
    Live checkpointArray (fun a => pruned a ∨ m.Prunes (m.placeBlock block) a)
      r.manager.toBlockStore := by
  have hsame : (∀ a, ¬ m.Prunes (m.placeBlock block) a) →
      ∀ {s : BlockStore}, Moved (m.placeBlock block) m.toBlockStore s →
      Live checkpointArray (fun a => pruned a ∨ m.Prunes (m.placeBlock block) a) s := by
    intro hno s hmoved
    exact (hlive.moved (fresh_placeBlock hfresh) hmoved).mono (fun a ha => ha.resolve_right (hno a))
  have hprunes : ∀ {prev : ChainBlock} {s : BlockStore} {valid : Bool},
      m.blocks.get (m.placeBlock block).prevBlock = some prev →
      m.toBlockStore.verifyBlock (m.placeBlock block) prev = .ok (s, valid) →
      ∀ a, m.Prunes (m.placeBlock block) a → Dropped m.toBlockStore s a := by
    rintro prev s valid hprev hverify a ⟨-, -, prev', s', valid', hprev', hverify', hrem⟩
    rw [hprev] at hprev'
    cases hprev'
    rw [hverify] at hverify'
    cases hverify'
    exact hrem
  cases h with
  | header hheader =>
      refine hsame ?_ (.same _ rfl rfl rfl rfl)
      rintro a ⟨hno, -⟩
      rw [hheader] at hno
      cases hno
  | waiting _ hfilter =>
      refine hsame ?_ (.same _ rfl rfl rfl rfl)
      rintro a ⟨-, hno, -⟩
      exact hno hfilter
  | oldOrphan _ _ hprev _ =>
      refine hsame ?_ (.same _ rfl rfl rfl rfl)
      rintro a ⟨-, -, prev, s, valid, hno, -⟩
      rw [hprev] at hno
      cases hno
  | orphan _ _ hprev _ =>
      refine hsame ?_ ?_
      · rintro a ⟨-, -, prev, s, valid, hno, -⟩
        rw [hprev] at hno
        cases hno
      · exact ⟨rfl, List.Sublist.cons_cons _ List.filter_sublist, fun _ _ h => Or.inl h,
          fun _ _ h => Option.isSome_of_eq_some h, fun l hl hget => ⟨l, hl, hget⟩⟩
  | @invalid prev s hheader hfilter hprev hverify =>
      have hspare := hsafe hheader hfilter
      have hf := (BlockStore.verifyBlock_ok hverify).1
      have hfreed : Live checkpointArray
          (fun a => pruned a ∨ m.Prunes (m.placeBlock block) a) s :=
        (hlive.freed hf hspare.last hspare.rows).mono
          (fun a ha => ha.imp_right (hprunes hprev hverify a))
      exact hfreed.fewer rfl rfl (List.Sublist.refl _) hfreed.last
  | valid hheader hfilter hprev hverify hvalid =>
      have hspare := hsafe hheader hfilter
      have hf := (BlockStore.verifyBlock_ok hverify).1
      have hfreed := hlive.freed hf hspare.last hspare.rows
      have hplaced := hprev
      rw [placeBlock_prevBlock] at hplaced
      have hmoved := valid_moved (hm.stores.freed hf) (holds_placeBlock hm.stores hb hplaced)
        hvalid
      exact (hfreed.moved ((fresh_placeBlock hfresh).freed hf) hmoved).mono
        (fun a ha => ha.imp_right (hprunes hprev hverify a))

/-- One call keeps the pointers live, and the block that it goes on with is
referenced by nothing. -/
theorem live_relayStep
    (hm : tree.Fits m.toBlockStore)
    (hlive : Live checkpointArray pruned m.toBlockStore)
    (hb : tree.Names block)
    (hfresh : FreshObject pruned m.toBlockStore block)
    (hsafe : SafeCall checkpointArray env peer m block)
    (h : m.relayStep env peer block = .ok (m', es, next)) :
    Live checkpointArray (fun a => pruned a ∨ m.Prunes (m.placeBlock block) a)
        m'.toBlockStore ∧
      ∀ x, next = some x →
        FreshObject (fun a => pruned a ∨ m.Prunes (m.placeBlock block) a) m'.toBlockStore x := by
  obtain ⟨r, hr, hfin⟩ := relayStep_ok h
  have hbranch := live_branch hm hlive hb hfresh hsafe hr
  rcases finish_ok hfin with ⟨-, rfl, -, rfl⟩ | ⟨b, saved, -, hrel, -, -⟩
  · exact ⟨hbranch, fun x hx => nomatch hx⟩
  · rcases releaseNext_ok hrel with ⟨-, rfl, rfl⟩ | ⟨-, rfl, hnext⟩
    · exact ⟨hbranch, fun x hx => nomatch hx⟩
    · refine ⟨hbranch.fewer rfl rfl List.filter_sublist hbranch.last, ?_⟩
      intro x hx
      have hreleased := hbranch.released (hnext.symm.trans hx)
      exact ⟨hreleased.stored, hreleased.orphans, hreleased.checkpoints, hreleased.pruned⟩

end BRPeerManager

end BreadwalletCore
