import BreadwalletCore.PeerManager.ChainBook
import BreadwalletCore.PeerManager.DeliveryOrder
import BreadwalletCore.PeerManager.MainChain

/-!
# Confirmations across forks

`_peerRelayedBlock` writes the heights of transactions when the chain is
extended, when a block of the chain is relayed again and when the chain is
reorganised.  Each of these keeps the book of the chain behind `lastBlock`, for
every wallet transaction, and so does a whole run.

This needs that no version of a block matches less than the stored one, and that
each fork joins the chain: the first is written over the other, and without a
join point nothing is replayed.
-/

namespace BreadwalletCore

open Machine Ancestry

/-! ## One call -/

namespace BRPeerManager

variable {tree : BlockTree} {matched : UInt256 → UInt256 → Prop}
variable {floor : ℕ} {old : UInt256 → UInt32 → Prop}
variable {env : Env} {m m' : BRPeerManager} {peer : BRPeer} {block prev last b : ChainBlock}
variable {es : List ManagerEvent} {r : Handled} {next : Option ChainBlock}

/-- Each wallet transaction has the height at which the chain behind `lastBlock`
matches it, and the chain goes down to the height `floor`. -/
structure ChainBooks (tree : BlockTree) (matched : UInt256 → UInt256 → Prop) (floor : ℕ)
    (old : UInt256 → UInt32 → Prop) (m : BRPeerManager) (last : ChainBlock) : Prop where
  blocks : ∀ h b, m.blocks.get h = some b → SoundBlock tree matched b
  lastBlock : m.lastBlock = some last
  stored : m.blocks.get last.blockHash = some last
  reaches : ∃ z, Above m.blocks.parent last z ∧ z.height ≤ floor
  tidy : Tidy m.wallet
  booked : ∀ tx ∈ m.wallet.transactions,
    Booked floor old m.blocks last tx.txHash tx.blockHeight

/-- The verification of the block prunes nothing. -/
def PrunesNothing (m : BRPeerManager) (block : ChainBlock) : Prop :=
  ∀ prev s valid, m.blocks.get block.prevBlock = some prev →
    m.toBlockStore.verifyBlock (m.placeBlock block) prev = .ok (s, valid) →
    s.blocks = m.blocks

/-- What is assumed of a call: nothing is pruned, a stored version of the block
matches no more transactions, and the branch of the block joins the chain. -/
structure Orderly (m : BRPeerManager) (block : ChainBlock) : Prop where
  unpruned : m.PrunesNothing block
  keeps : ∀ v, m.blocks.get block.blockHash = some v → ∀ t ∈ v.txHashes, t ∈ block.txHashes
  joins : ∀ last prev, m.lastBlock = some last → m.blocks.get block.prevBlock = some prev →
    Shares m.blocks.parent last prev

theorem ChainBooks.congr
    (hm : ChainBooks tree matched floor old m last)
    (hblocks : m'.blocks = m.blocks)
    (hlast : m'.lastBlock = m.lastBlock)
    (hwallet : m'.wallet = m.wallet) :
    ChainBooks tree matched floor old m' last where
  blocks := by
    rw [hblocks]
    exact hm.blocks
  lastBlock := hlast.trans hm.lastBlock
  stored := by
    rw [hblocks]
    exact hm.stored
  reaches := by
    rw [hblocks]
    exact hm.reaches
  tidy := by
    rw [hwallet]
    exact hm.tidy
  booked := by
    rw [hblocks, hwallet]
    exact hm.booked

theorem ChainBooks.reloaded
    (hm : ChainBooks tree matched floor old m last)
    (hre : m.Reloaded m') :
    ChainBooks tree matched floor old m' last where
  blocks := by
    rw [hre.store.blocks]
    exact hm.blocks
  lastBlock := hre.store.lastBlock.trans hm.lastBlock
  stored := by
    rw [hre.store.blocks]
    exact hm.stored
  reaches := by
    rw [hre.store.blocks]
    exact hm.reaches
  tidy := hm.tidy.grown hre.wallet
  booked := by
    rw [hre.store.blocks, hre.wallet.transactions]
    exact hm.booked

theorem replaceBlock_wallet
    (m : BRPeerManager) (block : ChainBlock) :
    (m.replaceBlock block).wallet = m.wallet := by
  rw [replaceBlock]
  dsimp only
  split
  · rfl
  · split <;> rfl

/-- Confirming the transactions of a block gives them its height. -/
theorem confirmTxs_reheighted
    (hw : Tidy m.wallet)
    (h : m.confirmTxs env block prev = .ok (m', es)) :
    Tidy m'.wallet ∧ Reheighted
      (fun t b => if t ∈ block.txHashes then UInt32.ofNat block.height else b)
      m.wallet m'.wallet := by
  rcases (confirmTxs_ok h).2 with ⟨hnil, rfl, -⟩ | hupd
  · refine ⟨hw, fun tx htx => ⟨tx, htx, rfl, ?_⟩⟩
    rw [hnil]
    rfl
  · obtain ⟨m₁, w, events, -, -, hw', rfl, -⟩ := updateTx_ok hupd
    exact hw.updateTransactions hw'

section Step

variable (hm : ChainBooks tree matched floor old m last)
variable (hblock : SoundBlock tree matched block)
variable (hparent : block.prevBlock = tree.parent block.blockHash)
variable (hkeeps : ∀ v, m.blocks.get block.blockHash = some v →
  ∀ t ∈ v.txHashes, t ∈ block.txHashes)

include hm hblock hparent

/-- What storing a block does to the chain. -/
theorem ChainBooks.put
    {blocks' : BlockSet} {last' : ChainBlock}
    (hput : PutsBlock block m.blocks blocks')
    (hlast' : blocks'.get last.blockHash = some last') :
    ∃ z, Above blocks'.parent last' z ∧ z.height ≤ floor := by
  obtain ⟨z, hz, hzfloor⟩ := hm.reaches
  obtain ⟨l, z', hl, hz', habove⟩ := hput.above hm.blocks hparent hm.stored hz
  rw [hlast'] at hl
  cases hl
  refine ⟨z', habove, ?_⟩
  have hzs := stored_of_above hm.stored hz
  rw [(hput.sound hm.blocks hblock _ _ hz').height_eq (hm.blocks _ _ hzs)
    (BlockSet.get_hash hz')]
  exact hzfloor

include hkeeps

/-- The main chain is extended. -/
theorem ChainBooks.extended
    (honce : OncePerBranch tree matched)
    (hlink : block.prevBlock = last.blockHash)
    (h : BRPeerManager.confirmTxs env
      { m with
        blocks := KeyedList.add (·.blockHash) m.blocks block
        lastBlock := some block } block prev = .ok (m', es)) :
    ChainBooks tree matched floor old m' block := by
  have hput := putsBlock_add m.blocks block
  have hblocks' := hput.sound hm.blocks hblock
  have hstore := (confirmTxs_ok h).1.store
  obtain ⟨htidy, hre⟩ := confirmTxs_reheighted (m := { m with
    blocks := KeyedList.add (·.blockHash) m.blocks block
    lastBlock := some block }) hm.tidy h
  have hself : BlockSet.get (KeyedList.add (·.blockHash) m.blocks block) block.blockHash =
      some block := by
    rw [hput, if_pos rfl]
  -- the block is higher than `last`, so that one stays
  have hlow := hblock.holds.height_prev (hm.blocks _ _ hm.stored).holds hlink
  have hne : block.blockHash ≠ last.blockHash := by
    intro heq
    have := hblock.height_eq (hm.blocks _ _ hm.stored) heq
    omega
  have hlast' : BlockSet.get (KeyedList.add (·.blockHash) m.blocks block) last.blockHash =
      some last := by
    rw [hput, if_neg hne]
    exact hm.stored
  have hup : BlockSet.parent (KeyedList.add (·.blockHash) m.blocks block) block = some last := by
    rw [BlockSet.parent, hlink]
    exact hlast'
  have hblocks : m'.blocks = KeyedList.add (·.blockHash) m.blocks block := by
    rw [hstore]
  refine ⟨?_, ?_, ?_, ?_, htidy, ?_⟩
  · rw [hblocks]
    exact hblocks'
  · rw [hstore]
  · rw [hblocks]
    exact hself
  · obtain ⟨z, hz, hzfloor⟩ := hm.put hblock hparent hput hlast'
    rw [hblocks]
    exact ⟨z, Above.step hup hz, hzfloor⟩
  · rw [hblocks]
    intro tx' htx'
    obtain ⟨tx, htx, hhash, hheight⟩ := hre tx' htx'
    dsimp only at hheight
    rw [hheight, ← hhash]
    split
    · rename_i hmem
      exact .of_member honce hblocks' hblock (Above.refl _ _) hmem
    · rename_i hmem
      obtain ⟨z, hz, hzfloor⟩ := hm.reaches
      exact .extend hup hmem ((hm.booked tx htx).put hput hm.blocks hblock hparent hkeeps
        hm.stored hlast' hz hzfloor (fun _ _ _ _ hin => absurd hin hmem))

/-- A stored block is relayed again. -/
theorem ChainBooks.existing
    (honce : OncePerBranch tree matched)
    (h : m.relayExisting env block prev last = .ok r) :
    ∃ last', ChainBooks tree matched floor old r.manager last' := by
  have hput := putsBlock_add m.blocks block
  have hblocks' := hput.sound hm.blocks hblock
  have hr := SoundBlock.ranked hm.blocks
  have hlasts := hm.blocks _ _ hm.stored
  obtain ⟨z, hz, hzfloor⟩ := hm.reaches
  obtain ⟨b, m₁, hwalk, hman, -, -, hcase⟩ := relayExisting_ok h
  -- a block of the chain with this hash is the one at which the walk ends
  have hfound : ∀ c, Above m.blocks.parent last c → c.blockHash = block.blockHash → b = c := by
    intro c hc hhash
    have hheight := (hr.above_rank hlasts hc).1.height_eq hblock hhash
    rw [← hheight] at hwalk
    exact walkDown_eq hr hlasts hc hwalk
  rcases hcase with ⟨hne, rfl, -⟩ | ⟨hhash, m₂, hconf, rfl⟩
  · have hlast' : BlockSet.get (KeyedList.add (·.blockHash) m₁.blocks block) last.blockHash =
        some last := by
      rw [hput, if_neg]
      · exact hm.stored
      · intro heq
        rw [hfound last (Above.refl _ _) heq.symm] at hne
        exact hne heq.symm
    refine ⟨last, ?_⟩
    rw [hman]
    refine ⟨?_, ?_, ?_, ?_, ?_, ?_⟩
    · rw [replaceBlock_blocks]
      exact hblocks'
    · rw [replaceBlock_lastBlock]
      exact hm.lastBlock
    · rw [replaceBlock_blocks]
      exact hlast'
    · rw [replaceBlock_blocks]
      exact hm.put hblock hparent hput hlast'
    · rw [replaceBlock_wallet]
      exact hm.tidy
    · rw [replaceBlock_blocks, replaceBlock_wallet]
      intro tx htx
      refine (hm.booked tx htx).put hput hm.blocks hblock hparent hkeeps hm.stored hlast' hz
        hzfloor ?_
      intro c hc heq
      rw [hfound c hc heq] at hne
      exact absurd heq hne
  · have hstore := (confirmTxs_ok hconf).1.store
    obtain ⟨htidy, hre⟩ := confirmTxs_reheighted hm.tidy hconf
    have hblocks : m₂.blocks = m.blocks := by rw [hstore]
    have hb : Above m.blocks.parent last b := (walkDown_ok hr hlasts hwalk).1
    have hbs := (hr.above_rank hlasts hb).1
    -- the present version of `last`
    obtain ⟨last', block', hlast', hblock', habove⟩ := hput.above hm.blocks hparent hm.stored hb
    rw [hput, if_pos hhash.symm] at hblock'
    cases hblock'
    have hlasteq : (if block.height = last.height then some block else some last) =
        some last' := by
      rw [← hlast', hput]
      by_cases heq : block.blockHash = last.blockHash
      · rw [if_pos heq, if_pos (hblock.height_eq hlasts heq)]
      · rw [if_neg heq, hm.stored, if_neg]
        intro hheight
        have hbl := hr.above_unique hlasts hb (Above.refl _ _)
          ((hbs.height_eq hblock hhash).trans hheight)
        exact heq (by rw [← hhash, hbl])
    refine ⟨last', ?_⟩
    rw [hman]
    have hsame : (if block.height = last.height then { m₂ with lastBlock := some block }
        else m₂).blocks = m.blocks := by
      split <;> exact hblocks
    have hwallet : (if block.height = last.height then { m₂ with lastBlock := some block }
        else m₂).wallet = m₂.wallet := by
      split <;> rfl
    refine ⟨?_, ?_, ?_, ?_, ?_, ?_⟩
    · rw [replaceBlock_blocks, hsame]
      exact hblocks'
    · rw [replaceBlock_lastBlock, ← hlasteq]
      split
      · rfl
      · rw [hstore]
        exact hm.lastBlock
    · rw [replaceBlock_blocks, hsame, BlockSet.get_hash hlast']
      exact hlast'
    · rw [replaceBlock_blocks, hsame]
      exact hm.put hblock hparent hput hlast'
    · rw [replaceBlock_wallet, hwallet]
      exact htidy
    · rw [replaceBlock_blocks, replaceBlock_wallet, hsame, hwallet]
      intro tx' htx'
      obtain ⟨tx, htx, hhash', hheight⟩ := hre tx' htx'
      dsimp only at hheight
      rw [hheight, ← hhash']
      split
      · rename_i hmem
        exact .of_member honce hblocks' (hblocks' _ _ hlast') habove hmem
      · rename_i hmem
        exact (hm.booked tx htx).put hput hm.blocks hblock hparent hkeeps hm.stored hlast' hz
          hzfloor (fun _ _ _ _ hin => absurd hin hmem)

omit hkeeps

/-- A new block leaves the chain behind `last`. -/
theorem ChainBooks.newBlock
    (hnew : m.blocks.get block.blockHash = none) :
    ChainBooks tree matched floor old
      { m with blocks := KeyedList.add (·.blockHash) m.blocks block } last := by
  have hput := putsBlock_add m.blocks block
  have hlast' : BlockSet.get (KeyedList.add (·.blockHash) m.blocks block) last.blockHash =
      some last := by
    rw [hput, if_neg]
    · exact hm.stored
    · intro heq
      rw [heq, hm.stored] at hnew
      cases hnew
  obtain ⟨z, hz, hzfloor⟩ := hm.reaches
  refine ⟨hput.sound hm.blocks hblock, hm.lastBlock, hlast',
    hm.put hblock hparent hput hlast', hm.tidy, ?_⟩
  intro tx htx
  refine (hm.booked tx htx).put hput hm.blocks hblock hparent ?_ hm.stored hlast' hz hzfloor ?_
  · intro v hv
    rw [hnew] at hv
    cases hv
  · intro c hc heq
    have hget := stored_of_above hm.stored hc
    rw [heq, hnew] at hget
    cases hget

/-- The chain is reorganised. -/
theorem ChainBooks.reorganized
    (honce : OncePerBranch tree matched)
    (hknown : ∀ h, tree.height h < blockUnknownHeight)
    (hnew : m.blocks.get block.blockHash = none)
    (hprev : m.blocks.get block.prevBlock = some prev)
    (hjoin : Shares m.blocks.parent last prev)
    (hhigh : last.height < block.height)
    (h : BRPeerManager.reorganize env
      { m with blocks := KeyedList.add (·.blockHash) m.blocks block } block last = .ok r) :
    ChainBooks tree matched floor old r.manager block := by
  have hput := putsBlock_add m.blocks block
  have hm' := hm.newBlock hblock hparent hnew
  generalize hblocks : KeyedList.add (·.blockHash) m.blocks block = blocks' at hput hm' h
  have hr := SoundBlock.ranked hm'.blocks
  have hlasts := hm'.blocks _ _ hm'.stored
  have hself : BlockSet.get blocks' block.blockHash = some block := by
    rw [hput, if_pos rfl]
  -- the two walks meet
  obtain ⟨c, hlc, hpc⟩ := hjoin
  have hprevs : m.blocks.get prev.blockHash = some prev := by
    rw [BlockSet.get_hash hprev]
    exact hprev
  have hlc' := hput.above_new hm.blocks hparent hnew hm.stored hlc
  have hpc' := hput.above_new hm.blocks hparent hnew hprevs hpc
  have hup : BlockSet.parent blocks' block = some prev := by
    rw [BlockSet.parent, ← BlockSet.get_hash hprev, hput, if_neg]
    · exact hprevs
    · intro heq
      rw [heq, hprevs] at hnew
      cases hnew
  obtain ⟨k, hk⟩ := Above.step hup hpc'
  obtain ⟨j, x, hwalk, hhash, hbj, hlx⟩ := BlockSet.joinLoop_returns hr hblock hlasts hk hlc'
    hhigh.le (n := blocks'.length + 1)
    (Nat.lt_succ_of_le (BlockSet.ranked_length hr hblock hk))
  -- at one stored block
  have hjx : j = x := by
    have hj := stored_of_above hself hbj
    rw [hhash, stored_of_above hm'.stored hlx] at hj
    exact (Option.some.inj hj).symm
  subst hjx
  have hjs := (hr.above_rank hblock hbj).1
  have hjle : UInt32.ofNat j.height ≤ txUnconfirmed := by
    have hlt := hknown j.blockHash
    rw [← hjs.holds.height, blockUnknownHeight] at hlt
    rw [UInt32.le_iff_toNat_le, UInt32.toNat_ofNat', Nat.mod_eq_of_lt (by omega)]
    exact Nat.le_of_lt hlt
  obtain ⟨j', b2, w₁, w₂, es₁, es₂, hwalk', hset, hreplay, hre, -⟩ := reorganize_ok h
  rw [hwalk] at hwalk'
  cases hwalk'
  rcases hreplay with ⟨hnone, -⟩ | ⟨x, hx, hreplay⟩
  · cases hnone
  cases hx
  obtain ⟨htidy₁, hre₁⟩ := hm.tidy.setTxUnconfirmedAfter hjle hset
  obtain ⟨htidy₂, hre₂⟩ := replayLoop_reheighted hr hblock htidy₁ hreplay
  have hbooks : ChainBooks tree matched floor old
      { m with blocks := blocks', wallet := w₂, lastBlock := some block } block := by
    refine ⟨hm'.blocks, rfl, hself, ?_, htidy₂, ?_⟩
    · obtain ⟨z, hz, hzfloor⟩ := hm'.reaches
      by_cases hle : z.height ≤ j.height
      · exact ⟨z, hbj.trans (hr.above_of_le hlasts hlx hz hle), hzfloor⟩
      · exact ⟨j, hbj, by omega⟩
    · intro tx' htx'
      obtain ⟨tx₁, htx₁, hhash₁, hcase⟩ := hre₂ tx' htx'
      obtain ⟨tx, htx, hhash₀, hheight⟩ := hre₁ tx₁ htx₁
      dsimp only at hheight
      rw [hheight] at hcase
      rw [← hhash₁]
      refine Booked.reorganize honce hm'.blocks hknown hlasts hblock hlx hbj hcase ?_
      rw [← hhash₀]
      exact hm'.booked tx htx
  exact hbooks.reloaded hre

include hkeeps

/-- Whatever is done with a valid block. -/
theorem ChainBooks.valid
    (honce : OncePerBranch tree matched)
    (hknown : ∀ h, tree.height h < blockUnknownHeight)
    (hprev : m.blocks.get block.prevBlock = some prev)
    (hjoin : Shares m.blocks.parent last prev)
    (h : Valid env m peer block prev r) :
    ∃ last', ChainBooks tree matched floor old r.manager last' := by
  have hl := hm.lastBlock
  cases h with
  | extended hlast hlink hext =>
      rw [hl] at hlast
      cases hlast
      obtain ⟨m₁, m₂, c, hconf, rfl, hre, -⟩ := extendChain_ok hext
      have hbooks : ChainBooks tree matched floor old { m₁ with connectFailureCount := c }
          block :=
        (hm.extended hblock hparent hkeeps honce hlink hconf).congr rfl rfl rfl
      exact ⟨block, hbooks.reloaded hre⟩
  | existing hlast _ _ hex =>
      rw [hl] at hlast
      cases hlast
      exact hm.existing hblock hparent hkeeps honce hex
  | postponed _ _ _ _ _ =>
      exact ⟨last, hm.congr rfl rfl rfl⟩
  | oldFork _ _ _ _ =>
      exact ⟨last, hm.congr rfl rfl rfl⟩
  | lowFork _ _ hnew _ _ =>
      exact ⟨last, hm.newBlock hblock hparent hnew⟩
  | highFork hlast _ hnew _ hhigh hre =>
      rw [hl] at hlast
      cases hlast
      exact ⟨block, hm.reorganized hblock hparent honce hknown hnew hprev hjoin hhigh hre⟩

end Step

theorem ChainBooks.stores
    (hm : ChainBooks tree matched floor old m last) :
    tree.Stores m.toBlockStore where
  blocks := fun h b hb => (hm.blocks h b hb).holds
  lastBlock := by
    intro b hb
    rw [hm.lastBlock] at hb
    cases hb
    exact (hm.blocks _ _ hm.stored).holds

/-- The books are kept by every branch. -/
theorem ChainBooks.branch
    (honce : OncePerBranch tree matched)
    (hknown : ∀ h, tree.height h < blockUnknownHeight)
    (hm : ChainBooks tree matched floor old m last)
    (hnames : tree.Names block)
    (hmatches : block.Matches matched)
    (hok : m.Orderly block)
    (h : Branch env m peer (m.placeBlock block) r) :
    ∃ last', ChainBooks tree matched floor old r.manager last' := by
  cases h with
  | header _ =>
      exact ⟨last, hm.congr rfl rfl rfl⟩
  | waiting _ _ =>
      exact ⟨last, hm.congr rfl rfl rfl⟩
  | oldOrphan _ _ _ _ =>
      exact ⟨last, hm.congr rfl rfl rfl⟩
  | orphan _ _ _ _ =>
      exact ⟨last, hm.congr rfl rfl rfl⟩
  | @invalid prev s _ _ hprev hverify =>
      rw [placeBlock_prevBlock] at hprev
      have hblocks : s.blocks = m.blocks := hok.unpruned _ _ _ hprev hverify
      exact ⟨last, hm.congr hblocks (BlockStore.verifyBlock_ok hverify).1.lastBlock rfl⟩
  | @valid prev s _ _ _ hprev hverify hvalid =>
      rw [placeBlock_prevBlock] at hprev
      have hblocks : s.blocks = m.blocks := hok.unpruned _ _ _ hprev hverify
      have hm' : ChainBooks tree matched floor old { m with toBlockStore := s } last :=
        hm.congr hblocks (BlockStore.verifyBlock_ok hverify).1.lastBlock rfl
      have hsound : SoundBlock tree matched (m.placeBlock block) := by
        refine ⟨holds_placeBlock hm.stores hnames hprev, ?_⟩
        intro t ht
        rw [placeBlock_blockHash]
        rw [placeBlock_txHashes] at ht
        exact hmatches t ht
      refine hm'.valid hsound (names_placeBlock hnames).parent ?_ honce hknown ?_ ?_ hvalid
      · rw [placeBlock_blockHash, placeBlock_txHashes]
        change ∀ v, s.blocks.get block.blockHash = some v → _
        rw [hblocks]
        exact hok.keeps
      · change s.blocks.get (m.placeBlock block).prevBlock = some prev
        rw [placeBlock_prevBlock, hblocks]
        exact hprev
      · change Shares s.blocks.parent last prev
        rw [hblocks]
        exact hok.joins _ _ hm.lastBlock hprev

/-- The books are kept, also those that the orphans are for. -/
structure KeepsBooks (tree : BlockTree) (matched : UInt256 → UInt256 → Prop) (floor : ℕ)
    (old : UInt256 → UInt32 → Prop) (m : BRPeerManager) : Prop where
  books : ∃ last, ChainBooks tree matched floor old m last
  orphans : ∀ o ∈ m.orphans, tree.Names o ∧ o.Matches matched

theorem KeepsBooks.relayStep
    (honce : OncePerBranch tree matched)
    (hknown : ∀ h, tree.height h < blockUnknownHeight)
    (hm : KeepsBooks tree matched floor old m)
    (hblock : tree.Names block ∧ block.Matches matched)
    (hok : m.Orderly block)
    (h : m.relayStep env peer block = .ok (m', es, next)) :
    KeepsBooks tree matched floor old m' ∧
      ∀ x, next = some x → tree.Names x ∧ x.Matches matched := by
  obtain ⟨last, hbooks⟩ := hm.books
  obtain ⟨r, hr, hfin⟩ := relayStep_ok h
  have hkeeps : KeepsBooks tree matched floor old r.manager := by
    refine ⟨hbooks.branch honce hknown hblock.1 hblock.2 hok hr, ?_⟩
    intro o ho
    rcases List.mem_cons.mp ((branch_orphans hr).subset ho) with rfl | ho
    · refine ⟨names_placeBlock hblock.1, ?_⟩
      intro t ht
      rw [placeBlock_blockHash]
      rw [placeBlock_txHashes] at ht
      exact hblock.2 t ht
    · exact hm.orphans o ho
  rcases finish_ok hfin with ⟨-, rfl, -, rfl⟩ | ⟨b, saved, -, hrel, -, -⟩
  · exact ⟨hkeeps, fun x hx => nomatch hx⟩
  · rcases releaseNext_ok hrel with ⟨-, rfl, rfl⟩ | ⟨-, rfl, rfl⟩
    · exact ⟨hkeeps, fun x hx => nomatch hx⟩
    · obtain ⟨last', hlast'⟩ := hkeeps.books
      refine ⟨⟨⟨last', hlast'.congr rfl rfl rfl⟩, ?_⟩, ?_⟩
      · exact fun o ho => hkeeps.orphans o (List.mem_of_mem_filter ho)
      · exact fun x hx => hkeeps.orphans x (KeyedList.mem_of_get hx)

/-! ## Runs -/

/-- Blocks are relayed one after the other, and every call meets a condition. -/
inductive RelayedAll (tree : BlockTree) (matched : UInt256 → UInt256 → Prop)
    (ok : BRPeerManager → ChainBlock → Prop) :
    BRPeerManager → List Delivery → BRPeerManager → Prop
  | nil (m : BRPeerManager) : RelayedAll tree matched ok m [] m
  | cons {m m₁ m' : BRPeerManager} {d : Delivery} {ds : List Delivery}
      {es : List ManagerEvent} :
      tree.Names d.block → d.block.Matches matched →
      RelayGuard d.env d.peer ok (m.orphans.length + 2) m d.block →
      m.relayedBlock d.env d.peer d.block = .ok (m₁, es) →
      RelayedAll tree matched ok m₁ ds m' → RelayedAll tree matched ok m (d :: ds) m'

theorem KeepsBooks.relayedAll
    {ds : List Delivery}
    (honce : OncePerBranch tree matched)
    (hknown : ∀ h, tree.height h < blockUnknownHeight)
    (hm : KeepsBooks tree matched floor old m)
    (hrun : RelayedAll tree matched Orderly m ds m') :
    KeepsBooks tree matched floor old m' := by
  induction hrun with
  | nil m =>
      exact hm
  | cons hnames hmatches hguard hrelay _ ih =>
      exact ih (relayLoop_invariant
        (Q := fun _ b => tree.Names b ∧ b.Matches matched)
        (fun _ _ _ _ _ hm hb hok hstep => hm.relayStep honce hknown hb hok hstep)
        hm ⟨hnames, hmatches⟩ hguard hrelay)

/-- The block is on the chain behind `lastBlock`. -/
def OnChain (m : BRPeerManager) (b : ChainBlock) : Prop :=
  ∃ last, m.lastBlock = some last ∧ Above m.blocks.parent last b

/-- The manager is about to go on from `start`, and no wallet transaction has a
height above it. -/
structure BookStart (tree : BlockTree) (matched : UInt256 → UInt256 → Prop)
    (m : BRPeerManager) (start : ChainBlock) : Prop where
  blocks : ∀ h b, m.blocks.get h = some b → SoundBlock tree matched b
  orphans : ∀ o ∈ m.orphans, tree.Names o ∧ o.Matches matched
  lastBlock : m.lastBlock = some start
  stored : m.blocks.get start.blockHash = some start
  wallet : Tidy m.wallet
  heights : ∀ tx ∈ m.wallet.transactions,
    tx.blockHeight = txUnconfirmed ∨ tx.blockHeight.toNat ≤ start.height

/-- Had the transaction this height at the start, up to that of `start`? -/
def ConfirmedBefore (m : BRPeerManager) (start : ChainBlock) (t : UInt256) (height : UInt32) :
    Prop :=
  ∃ tx ∈ m.wallet.transactions, tx.txHash = t ∧ tx.blockHeight = height ∧
    height.toNat ≤ start.height

theorem BookStart.keeps
    (h : BookStart tree matched m b) :
    KeepsBooks tree matched b.height (m.ConfirmedBefore b) m := by
  refine ⟨⟨b, h.blocks, h.lastBlock, h.stored, ⟨b, Above.refl _ _, le_rfl⟩, h.wallet, ?_⟩,
    h.orphans⟩
  intro tx htx
  have hr := SoundBlock.ranked h.blocks
  refine ⟨?_, ?_⟩
  · intro c hc hlow
    have := (hr.above_rank (h.blocks _ _ h.stored) hc).2
    omega
  · rcases h.heights tx htx with hun | hle
    · exact Or.inl hun
    · exact Or.inr (Or.inr ⟨⟨tx, htx, rfl, rfl, hle⟩, hle⟩)

/-- **Confirmations are those of the chain.**  After every run a wallet
transaction has a height above the start if and only if the block of this height
on the chain behind `lastBlock` matches it, and one that no block of the chain
matches is unconfirmed, or as it was confirmed before the start. -/
theorem relayedAll_heights
    {start : ChainBlock} {ds : List Delivery}
    (honce : OncePerBranch tree matched)
    (hknown : ∀ h, tree.height h < blockUnknownHeight)
    (hstart : BookStart tree matched m start)
    (hrun : RelayedAll tree matched Orderly m ds m') :
    ∀ tx ∈ m'.wallet.transactions,
      (∀ h, start.height < h → h ≠ blockUnknownHeight →
        (tx.blockHeight.toNat = h ↔
          ∃ b, m'.OnChain b ∧ b.height = h ∧ tx.txHash ∈ b.txHashes)) ∧
      ((∀ b, m'.OnChain b → tx.txHash ∉ b.txHashes) →
        tx.blockHeight = txUnconfirmed ∨
          m.ConfirmedBefore start tx.txHash tx.blockHeight) := by
  obtain ⟨last, hbooks⟩ := (hstart.keeps.relayedAll honce hknown hrun).books
  have hr := SoundBlock.ranked hbooks.blocks
  have hlasts := hbooks.blocks _ _ hbooks.stored
  have hofNat : ∀ b, Above m'.blocks.parent last b →
      (UInt32.ofNat b.height).toNat = b.height := by
    intro b hb
    have hlt := hknown b.blockHash
    rw [← (hr.above_rank hlasts hb).1.holds.height, blockUnknownHeight] at hlt
    rw [UInt32.toNat_ofNat']
    exact Nat.mod_eq_of_lt (by omega)
  intro tx htx
  have hbook := hbooks.booked tx htx
  refine ⟨?_, ?_⟩
  · intro h hlow hne
    constructor
    · rintro rfl
      rcases hbook.origin with hun | ⟨b, hb, hmem, heq⟩ | ⟨-, hle⟩
      · rw [hun] at hne
        exact absurd rfl hne
      · exact ⟨b, ⟨last, hbooks.lastBlock, hb⟩, by rw [heq, hofNat b hb], hmem⟩
      · omega
    · rintro ⟨b, ⟨l, hl, hb⟩, rfl, hmem⟩
      rw [hbooks.lastBlock] at hl
      cases hl
      rw [hbook.matched b hb hlow hmem, hofNat b hb]
  · intro hno
    rcases hbook.origin with hun | ⟨b, hb, hmem, -⟩ | ⟨hold, -⟩
    · exact Or.inl hun
    · exact absurd hmem (hno b ⟨last, hbooks.lastBlock, hb⟩)
    · exact Or.inr hold

end BRPeerManager

section Samples

open BRPeerManager

/-- Two forks behind the block 9, and a block 13 whose predecessor is missing. -/
def bookTree : BlockTree where
  parent h :=
    if h = 10 ∨ h = 11 then 9 else if h = 12 ∨ h = 15 then 11 else if h = 16 then 15 else
      if h = 13 then 14 else 0
  height h :=
    if h = 9 then 9 else if h = 10 ∨ h = 11 ∨ h = 14 then 10 else
      if h = 12 ∨ h = 15 ∨ h = 13 then 11 else if h = 16 then 12 else 0
  height_eq := by
    intro h hne
    split_ifs at hne with h₁ h₂ h₃ h₄
    · rcases h₁ with rfl | rfl <;> rfl
    · rcases h₂ with rfl | rfl <;> rfl
    · subst h₃
      rfl
    · subst h₄
      rfl
    · exact absurd rfl hne

/-- The blocks 10, 12 and 16 match the transaction 1. -/
def bookMatched (h t : UInt256) : Prop :=
  t = 1 ∧ (h = 10 ∨ h = 12 ∨ h = 16)

theorem oncePerBranch_bookMatched :
    OncePerBranch bookTree bookMatched := by
  rintro h k t hrank ⟨-, hh⟩ ⟨-, hk⟩
  have hlow : 10 ≤ bookTree.height (bookTree.parent^[k] h) := by
    rcases hk with hk | hk | hk <;> rw [hk] <;> decide
  have hhigh : bookTree.height h ≤ 12 := by
    rcases hh with rfl | rfl | rfl <;> decide
  have hle : k ≤ 2 := by omega
  rcases hh with rfl | rfl | rfl
  · change 10 = _ at hrank
    omega
  · interval_cases k
    · rfl
    · exact absurd hk (by decide)
    · exact absurd hk (by decide)
  · interval_cases k
    · rfl
    · exact absurd hk (by decide)
    · exact absurd hk (by decide)

theorem bookTree_known
    (h : UInt256) :
    bookTree.height h < blockUnknownHeight := by
  change (if _ then _ else _) < _
  split_ifs <;> decide

/-- A payment that is not confirmed. -/
def bookPayment : BRTransaction :=
  sampleTx 1 [⟨99, 0⟩] [1, 0] 50000 txUnconfirmed

def bookWallet : BRWallet :=
  { BRWallet.empty bareKey with
    allAddrs := {[1, 0]}
    transactions := [bookPayment]
    allTx := [bookPayment] }

theorem tidy_bookWallet : Tidy bookWallet where
  listed := ⟨List.nodup_singleton _, by
    intro tx htx
    rw [List.mem_singleton.mp htx]
    rfl⟩
  sorted := List.pairwise_singleton _ _
  own := by
    intro tx htx
    rw [List.mem_singleton.mp htx]
    decide

/-- A relayed block that matches the payment. -/
def payingBlock (blockHash prevBlock : UInt256) : ChainBlock :=
  { relayedSample blockHash prevBlock with txHashes := [1] }

def bookDelivery (block : ChainBlock) : Delivery :=
  ⟨quietEnv [], samplePeer, block⟩

def bookManager : BRPeerManager :=
  { ninthManager with wallet := bookWallet }

theorem bookStart_bookManager :
    BookStart bookTree bookMatched bookManager ninthBlock where
  blocks := by
    intro h b hb
    rw [List.mem_singleton.mp (BlockSet.mem_of_get hb)]
    exact ⟨⟨by decide, Or.inr rfl, rfl⟩, fun t ht => nomatch ht⟩
  orphans := fun o ho => nomatch ho
  lastBlock := rfl
  stored := rfl
  wallet := tidy_bookWallet
  heights := by
    intro tx htx
    rw [List.mem_singleton.mp htx]
    exact Or.inl rfl

/-- A payment is confirmed by the block 10 and, behind a longer fork, by 12. -/
def bookDeliveries : List Delivery :=
  [bookDelivery (payingBlock 10 9), bookDelivery (relayedSample 11 9),
    bookDelivery (payingBlock 12 11)]

theorem matches_payingBlock
    {h prevBlock : UInt256}
    (hh : h = 10 ∨ h = 12 ∨ h = 16) :
    (payingBlock h prevBlock).Matches bookMatched := by
  intro t ht
  exact ⟨List.mem_singleton.mp ht, hh⟩

/-- Away from a transition nothing is pruned. -/
theorem prunesNothing_of_not_atTransition
    {m : BRPeerManager} {block : ChainBlock}
    (h : ¬ BlockStore.atTransition (m.placeBlock block)) :
    m.PrunesNothing block := by
  intro prev s valid _ hverify
  rw [BlockStore.verifyBlock, BlockStore.passTransition, if_neg h] at hverify
  obtain ⟨p, hpass, hverify⟩ := bind_eq_ok.mp hverify
  cases hpass
  obtain ⟨⟨ok, pastCount⟩, -, hret⟩ := bind_eq_ok.mp hverify
  cases hret
  rfl

theorem relayedAll_heights_reorganized :
    ∃ m', RelayedAll bookTree bookMatched Orderly bookManager bookDeliveries m' ∧
      ∃ tx ∈ m'.wallet.transactions, tx.blockHeight.toNat = 11 ∧
        ∃ b, m'.OnChain b ∧ b.height = 11 ∧ tx.txHash ∈ b.txHashes := by
  have hrun : ∃ m', RelayedAll bookTree bookMatched Orderly bookManager bookDeliveries m' ∧
      ∃ tx ∈ m'.wallet.transactions, tx.blockHeight.toNat = 11 := by
    refine ⟨_, .cons ⟨by decide, by decide⟩ (matches_payingBlock (by decide))
        (RelayGuard.stop ⟨prunesNothing_of_not_atTransition (by decide), ?_, ?_⟩ rfl) rfl
      (.cons ⟨by decide, by decide⟩ (fun t ht => nomatch ht)
        (RelayGuard.stop ⟨prunesNothing_of_not_atTransition (by decide), ?_, ?_⟩ rfl) rfl
      (.cons ⟨by decide, by decide⟩ (matches_payingBlock (by decide))
        (RelayGuard.stop ⟨prunesNothing_of_not_atTransition (by decide), ?_, ?_⟩ rfl) rfl
      (.nil _))), _, List.mem_singleton_self _, rfl⟩
    · intro v hv
      cases hv
    · intro last prev hlast hprev
      cases hlast
      cases hprev
      exact ⟨_, ⟨0, rfl⟩, ⟨0, rfl⟩⟩
    · intro v hv
      cases hv
    · intro last prev hlast hprev
      cases hlast
      cases hprev
      exact ⟨_, ⟨1, rfl⟩, ⟨0, rfl⟩⟩
    · intro v hv
      cases hv
    · intro last prev hlast hprev
      cases hlast
      cases hprev
      exact ⟨_, ⟨1, rfl⟩, ⟨1, rfl⟩⟩
  obtain ⟨m', hrun, tx, htx, hheight⟩ := hrun
  refine ⟨m', hrun, tx, htx, hheight, ?_⟩
  exact ((relayedAll_heights oncePerBranch_bookMatched bookTree_known bookStart_bookManager hrun
    tx htx).1 11 (by decide) (by decide)).mp hheight

/-- A manager whose last block is not linked to the block 9. -/
def looseBlock : ChainBlock :=
  { relayedSample 13 14 with height := 11 }

def looseManager : BRPeerManager :=
  { bookManager with
    blocks := [ninthBlock, looseBlock]
    lastBlock := some looseBlock }

theorem bookStart_looseManager :
    BookStart bookTree bookMatched looseManager looseBlock where
  blocks := by
    intro h b hb
    rcases List.mem_cons.mp (BlockSet.mem_of_get hb) with rfl | hmem
    · exact ⟨⟨by decide, Or.inr rfl, rfl⟩, fun t ht => nomatch ht⟩
    · rw [List.mem_singleton.mp hmem]
      exact ⟨⟨by decide, Or.inl rfl, rfl⟩, fun t ht => nomatch ht⟩
  orphans := fun o ho => nomatch ho
  lastBlock := rfl
  stored := rfl
  wallet := tidy_bookWallet
  heights := by
    intro tx htx
    rw [List.mem_singleton.mp htx]
    exact Or.inl rfl

/-- A block that is relayed again without its match leaves the transaction
confirmed, and a fork that does not join the chain does not confirm any. -/
theorem not_relayedAll_heights :
    OncePerBranch bookTree bookMatched ∧
    (BookStart bookTree bookMatched bookManager ninthBlock ∧
      ∃ m', RelayedAll bookTree bookMatched PrunesNothing bookManager
          [bookDelivery (payingBlock 10 9), bookDelivery (relayedSample 10 9)] m' ∧
        ∃ tx ∈ m'.wallet.transactions, tx.blockHeight.toNat = 10 ∧
          ¬ ∃ b, m'.OnChain b ∧ b.height = 10 ∧ tx.txHash ∈ b.txHashes) ∧
    BookStart bookTree bookMatched looseManager looseBlock ∧
      ∃ m', RelayedAll bookTree bookMatched PrunesNothing looseManager
          [bookDelivery (relayedSample 11 9), bookDelivery (relayedSample 15 11),
            bookDelivery (payingBlock 16 15)] m' ∧
        ∃ tx ∈ m'.wallet.transactions, tx.blockHeight = txUnconfirmed ∧
          ∃ b, m'.OnChain b ∧ b.height = 12 ∧ tx.txHash ∈ b.txHashes := by
  refine ⟨oncePerBranch_bookMatched, ⟨bookStart_bookManager, ?_⟩, bookStart_looseManager, ?_⟩
  · have hrun : ∃ m', RelayedAll bookTree bookMatched PrunesNothing bookManager
          [bookDelivery (payingBlock 10 9), bookDelivery (relayedSample 10 9)] m' ∧
        (∃ tx ∈ m'.wallet.transactions, tx.blockHeight.toNat = 10 ∧ tx.txHash = 1) ∧
        (∀ b ∈ m'.blocks, 1 ∉ b.txHashes) ∧
        ∀ b ∈ m'.lastBlock, m'.blocks.get b.blockHash = some b := by
      refine ⟨_, .cons ⟨by decide, by decide⟩ (matches_payingBlock (by decide))
          (RelayGuard.stop (prunesNothing_of_not_atTransition (by decide)) rfl) rfl
        (.cons ⟨by decide, by decide⟩ (fun t ht => nomatch ht)
          (RelayGuard.stop (prunesNothing_of_not_atTransition (by decide)) rfl) rfl
        (.nil _)), ⟨_, List.mem_singleton_self _, rfl, rfl⟩, ?_, ?_⟩
      · decide
      · intro b hb
        cases hb
        rfl
    obtain ⟨m', hrun, ⟨tx, htx, hheight, hhash⟩, hblocks, hstored⟩ := hrun
    refine ⟨m', hrun, tx, htx, hheight, ?_⟩
    rintro ⟨b, ⟨last, hl, habove⟩, -, hmem⟩
    rw [hhash] at hmem
    exact hblocks b (BlockSet.mem_of_get (stored_of_above (hstored last hl) habove)) hmem
  · exact ⟨_, .cons ⟨by decide, by decide⟩ (fun t ht => nomatch ht)
        (RelayGuard.stop (prunesNothing_of_not_atTransition (by decide)) rfl) rfl
      (.cons ⟨by decide, by decide⟩ (fun t ht => nomatch ht)
        (RelayGuard.stop (prunesNothing_of_not_atTransition (by decide)) rfl) rfl
      (.cons ⟨by decide, by decide⟩ (matches_payingBlock (by decide))
        (RelayGuard.stop (prunesNothing_of_not_atTransition (by decide)) rfl) rfl
      (.nil _))), _, List.mem_singleton_self _, rfl, _, ⟨_, rfl, 0, rfl⟩, rfl,
      List.mem_singleton_self _⟩

end Samples

end BreadwalletCore
