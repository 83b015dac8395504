import BreadwalletCore.PeerManager.TreeOrder

/-!
# Blocks in any order

The blocks of a finite tree above `lastBlock` are relayed once each, by one
peer.  A block whose predecessor is not there yet waits in `orphans`, under the
hash of that predecessor, and is released when the predecessor has been stored.

`Collected` is the invariant of such a run.  `orphans` has room for one block
behind each predecessor: of two that wait at the same time the first one is
lost.
-/

namespace BreadwalletCore

open Machine Ancestry

namespace BRPeerManager

variable {env : Env} {m m' : BRPeerManager} {peer : BRPeer} {block prev last b : ChainBlock}
variable {es : List ManagerEvent} {r : Handled} {next : Option ChainBlock}

/-! ## The invariant of a run -/

/-- The manager after the blocks `relayed` of the tree.  The block `current` has
been relayed or released, and not been handled yet. -/
structure Collected (env : Env) (peer : BRPeer) (tree : BlockTree) (root : ChainBlock)
    (order relayed : List ChainBlock) (m : BRPeerManager) (current : Option ChainBlock) :
    Prop where
  fits : tree.Fits m.toBlockStore
  onePeer : OnePeer env peer m
  bloomFilter : m.bloomFilter ≠ none
  headers : ∀ b ∈ order, b.isRecentHeader m.earliestKeyTime = false
  sub : relayed ⊆ order
  rootStored : m.blocks.get root.blockHash = some root
  linked : ∀ b ∈ order, ∀ b', m.blocks.get b.blockHash = some b' →
    b'.prevBlock = b.prevBlock ∧ (m.blocks.get b.prevBlock).isSome
  lastBlock : ∃ last, m.lastBlock = some last ∧ m.blocks.get last.blockHash = some last ∧
    OfTree root order last.blockHash ∧ root.height ≤ last.height ∧
    ∀ b ∈ order, (m.blocks.get b.blockHash).isSome →
      tree.height b.blockHash ≤ last.height
  delivered : ∀ b ∈ relayed, (m.blocks.get b.blockHash).isSome ∨
    m.orphans.getPrev b.prevBlock = some b ∨ current = some b
  waiting : ∀ h o, m.orphans.getPrev h = some o → o ∈ relayed ∧
    m.blocks.get o.prevBlock = none ∧ m.blocks.get o.blockHash = none ∧ current ≠ some o
  fresh : ∀ b ∈ order, b ∉ relayed → m.blocks.get b.blockHash = none
  handled : ∀ c, current = some c → c ∈ relayed ∧ m.blocks.get c.blockHash = none

/-- The verification of the block, where there is one, succeeds. -/
def Verifies (m : BRPeerManager) (block : ChainBlock) : Prop :=
  ∀ prev, m.blocks.get block.prevBlock = some prev →
    ∃ s, m.toBlockStore.verifyBlock (m.placeBlock block) prev = .ok (s, true)

/-- What the run is given: the tree has no fork below the last checkpoint, nothing
of it is pruned, the peer is not ahead of `root`, and orphans are recent. -/
structure TreeRun (env : Env) (peer : BRPeer) (tree : BlockTree) (root : ChainBlock)
    (order : List ChainBlock) : Prop where
  treeOrder : TreeOrder tree root order
  rootHolds : tree.Holds root
  unpruned : Unpruned tree root order
  behind : env.lastblock peer ≤ root.height
  checkpoint : ∀ a ∈ order, ∀ b ∈ order,
    tree.height a.blockHash = tree.height b.blockHash →
    tree.height a.blockHash ≤ env.lastCheckpointHeight → a = b
  recent : ∀ b ∈ order, env.now ≤ (b.timestamp + weekTime).toNat

section Run

variable {tree : BlockTree} {root : ChainBlock} {order relayed : List ChainBlock}
variable {current : Option ChainBlock} {c : ChainBlock}

/-- Between two calls, the blocks that are joined to `root` are stored. -/
theorem Collected.stored_of_joined
    (hc : Collected env peer tree root order relayed m none)
    (h : Joined root relayed b) :
    (m.blocks.get b.blockHash).isSome := by
  have hstored : ∀ x ∈ relayed, (m.blocks.get x.prevBlock).isSome →
      (m.blocks.get x.blockHash).isSome := by
    intro x hx hprev
    rcases hc.delivered x hx with hsome | hwait | hcur
    · exact hsome
    · rw [(hc.waiting _ x hwait).2.1] at hprev
      cases hprev
    · cases hcur
  induction h with
  | root hb hlink =>
      refine hstored _ hb ?_
      rw [hlink, hc.rootStored]
      rfl
  | block hb _ hlink ih =>
      refine hstored _ hb ?_
      rw [hlink]
      exact ih

/-- A block that is relayed is the current one. -/
theorem Collected.relay
    {rest : List ChainBlock}
    (ht : TreeOrder tree root order)
    (hc : Collected env peer tree root order relayed m none)
    (horder : order = relayed ++ c :: rest) :
    Collected env peer tree root order (relayed ++ [c]) m (some c) := by
  have hmem : c ∈ order := by simp [horder]
  have hnew : c ∉ relayed := by
    intro hmem'
    have hnodup := ht.nodup
    rw [horder, List.map_append, List.map_cons, List.nodup_append] at hnodup
    exact hnodup.2.2 _ (List.mem_map_of_mem hmem') _ List.mem_cons_self rfl
  refine ⟨hc.fits, hc.onePeer, hc.bloomFilter, hc.headers, ?_, hc.rootStored, hc.linked,
    hc.lastBlock, ?_, ?_, ?_, ?_⟩
  · intro b hb
    rcases List.mem_append.mp hb with hb | hb
    · exact hc.sub hb
    · rw [List.mem_singleton.mp hb]
      exact hmem
  · intro b hb
    rcases List.mem_append.mp hb with hb | hb
    · rcases hc.delivered b hb with hsome | hwait | hcur
      · exact Or.inl hsome
      · exact Or.inr (Or.inl hwait)
      · cases hcur
    · rw [List.mem_singleton.mp hb]
      exact Or.inr (Or.inr rfl)
  · intro h o ho
    obtain ⟨hmem', hprev, hnone, -⟩ := hc.waiting h o ho
    refine ⟨List.mem_append_left _ hmem', hprev, hnone, ?_⟩
    intro heq
    cases heq
    exact hnew hmem'
  · intro b hb hnot
    exact hc.fresh b hb (fun hb' => hnot (List.mem_append_left _ hb'))
  · intro d hd
    cases hd
    exact ⟨by simp, hc.fresh c hmem hnew⟩

/-- After the last block everything is stored, and nothing waits. -/
theorem Collected.complete
    (ht : TreeOrder tree root order)
    (hc : Collected env peer tree root order order m none) :
    (∀ b ∈ order, (m.blocks.get b.blockHash).isSome) ∧ m.orphans = [] := by
  have hstored : ∀ b ∈ order, (m.blocks.get b.blockHash).isSome :=
    fun b hb => hc.stored_of_joined (ht.joined hb)
  refine ⟨hstored, List.eq_nil_iff_forall_not_mem.mpr ?_⟩
  intro o ho
  cases hget : m.orphans.getPrev o.prevBlock with
  | none =>
      rw [BlockSet.getPrev, KeyedList.get, List.find?_eq_none] at hget
      exact hget o ho (by simp)
  | some x =>
      obtain ⟨hmem, -, hnone, -⟩ := hc.waiting _ x hget
      have hsome := hstored x hmem
      rw [hnone] at hsome
      cases hsome

theorem placeBlock_isRecentHeader
    (m : BRPeerManager) (block : ChainBlock) (time : UInt32) :
    (m.placeBlock block).isRecentHeader time = block.isRecentHeader time := by
  rw [placeBlock]
  split <;> rfl

theorem placeBlock_timestamp
    (m : BRPeerManager) (block : ChainBlock) :
    (m.placeBlock block).timestamp = block.timestamp := by
  rw [placeBlock]
  split <;> rfl

/-- A block without a predecessor waits. -/
theorem Collected.wait
    (hc : Collected env peer tree root order relayed m (some c))
    (hprev : m.blocks.get c.prevBlock = none)
    (hfree : m.orphans.getPrev c.prevBlock = none)
    (hfits : tree.Fits (m.addOrphan c).manager.toBlockStore) :
    Collected env peer tree root order relayed (m.addOrphan c).manager none := by
  obtain ⟨hmem, hnew⟩ := hc.handled c rfl
  have horphans : ∀ h, (m.addOrphan c).manager.orphans.getPrev h =
      if c.prevBlock = h then some c else m.orphans.getPrev h :=
    fun h => BlockSet.getPrev_add _ _ _
  refine ⟨hfits, ⟨hc.onePeer.connected, hc.onePeer.download, hc.onePeer.rate⟩, hc.bloomFilter,
    hc.headers, hc.sub, hc.rootStored, hc.linked, hc.lastBlock, ?_, ?_, hc.fresh, ?_⟩
  · intro b hb
    rcases hc.delivered b hb with hsome | hwait | hcur
    · exact Or.inl hsome
    · refine Or.inr (Or.inl ?_)
      rw [horphans, if_neg]
      · exact hwait
      · intro heq
        rw [← heq, hfree] at hwait
        cases hwait
    · cases hcur
      refine Or.inr (Or.inl ?_)
      rw [horphans, if_pos rfl]
  · intro h o ho
    rw [horphans] at ho
    split at ho
    · cases ho
      exact ⟨hmem, hprev, hnew, fun h => by cases h⟩
    · obtain ⟨ho₁, ho₂, ho₃, -⟩ := hc.waiting h o ho
      exact ⟨ho₁, ho₂, ho₃, fun h => by cases h⟩
  · intro d hd
    cases hd

/-- The stored blocks after one has been added behind its predecessor. -/
structure Added (root : ChainBlock) (order : List ChainBlock) (m : BRPeerManager)
    (c : ChainBlock) (blocks : BlockSet) : Prop where
  self : blocks.get c.blockHash = some (m.placeBlock c)
  kept : ∀ h b, OfTree root order h → m.blocks.get h = some b → blocks.get h = some b
  only : ∀ h b, blocks.get h = some b → c.blockHash = h ∧ b = m.placeBlock c ∨
    c.blockHash ≠ h ∧ m.blocks.get h = some b

theorem Collected.added
    {s : BlockStore}
    (hrun : TreeRun env peer tree root order)
    (hc : Collected env peer tree root order relayed m (some c))
    (hprev : m.blocks.get c.prevBlock = some prev)
    (hfreed : BlockStore.Freed (m.Doomed (m.placeBlock c)) m.toBlockStore s) :
    Added root order m c (KeyedList.add (·.blockHash) s.blocks (m.placeBlock c)) := by
  obtain ⟨hmem, hnew⟩ := hc.handled c rfl
  have hcorder := hc.sub hmem
  have hholds := holds_placeBlock hc.fits.stores (hrun.treeOrder.names c hcorder) hprev
  refine ⟨?_, ?_, ?_⟩
  · rw [BlockSet.get_add, placeBlock_blockHash, if_pos rfl]
  · intro h b hh hget
    rw [BlockSet.get_add, placeBlock_blockHash, if_neg]
    · exact hfreed.keeps hc.fits.stores hholds ⟨c, hcorder, by simp⟩ hrun.unpruned hh hget
    · rintro rfl
      rw [hnew] at hget
      cases hget
  · intro h b hget
    rw [BlockSet.get_add, placeBlock_blockHash] at hget
    split at hget
    · rename_i heq
      cases hget
      exact Or.inl ⟨heq, rfl⟩
    · rename_i hne
      exact Or.inr ⟨hne, hfreed.get_of_some hget⟩

theorem Added.get_none
    {blocks : BlockSet} {h : UInt256}
    (ha : Added root order m c blocks)
    (hne : h ≠ c.blockHash)
    (hnone : m.blocks.get h = none) :
    blocks.get h = none := by
  cases hget : blocks.get h with
  | none =>
      rfl
  | some b =>
      rcases ha.only h b hget with ⟨heq, -⟩ | ⟨-, hold⟩
      · exact absurd heq.symm hne
      · rw [hnone] at hold
        cases hold

theorem Added.isSome
    {blocks : BlockSet} {h : UInt256}
    (ha : Added root order m c blocks)
    (hh : OfTree root order h)
    (hsome : (m.blocks.get h).isSome) :
    (blocks.get h).isSome := by
  obtain ⟨b, hb⟩ := Option.isSome_iff_exists.mp hsome
  rw [ha.kept h b hh hb]
  rfl

/-- The blocks of the tree stay linked. -/
theorem Collected.added_linked
    {blocks : BlockSet}
    (hrun : TreeRun env peer tree root order)
    (hc : Collected env peer tree root order relayed m (some c))
    (hprev : m.blocks.get c.prevBlock = some prev)
    (ha : Added root order m c blocks) :
    ∀ b ∈ order, ∀ b', blocks.get b.blockHash = some b' →
      b'.prevBlock = b.prevBlock ∧ (blocks.get b.prevBlock).isSome := by
  intro b hb b' hget
  have hin := ha.isSome (hrun.treeOrder.linked b hb)
  rcases ha.only _ b' hget with ⟨heq, rfl⟩ | ⟨-, hold⟩
  · obtain rfl := hrun.treeOrder.eq_of_hash hb (hc.sub (hc.handled c rfl).1) heq.symm
    refine ⟨placeBlock_prevBlock m b, hin ?_⟩
    rw [hprev]
    rfl
  · obtain ⟨hlink, hsome⟩ := hc.linked b hb b' hold
    exact ⟨hlink, hin hsome⟩

/-- What waits has another hash than the current block. -/
theorem Collected.waiting_ne
    {h : UInt256} {o : ChainBlock}
    (hrun : TreeRun env peer tree root order)
    (hc : Collected env peer tree root order relayed m (some c))
    (ho : m.orphans.getPrev h = some o) :
    o.blockHash ≠ c.blockHash := by
  intro heq
  obtain ⟨homem, -, -, hne⟩ := hc.waiting h o ho
  exact hne (by rw [hrun.treeOrder.eq_of_hash (hc.sub homem) (hc.sub (hc.handled c rfl).1) heq])

/-- `lastBlock` stays one of the highest stored blocks. -/
theorem Collected.added_lastBlock
    {blocks : BlockSet} {l : ChainBlock}
    (hrun : TreeRun env peer tree root order)
    (hc : Collected env peer tree root order relayed m (some c))
    (hprev : m.blocks.get c.prevBlock = some prev)
    (ha : Added root order m c blocks)
    (hlast : m.lastBlock = some last)
    (hl : last.height < (m.placeBlock c).height ∧ l = m.placeBlock c ∨
      (m.placeBlock c).height ≤ last.height ∧ l = last) :
    blocks.get l.blockHash = some l ∧ OfTree root order l.blockHash ∧ root.height ≤ l.height ∧
      ∀ b ∈ order, (blocks.get b.blockHash).isSome → tree.height b.blockHash ≤ l.height := by
  have hcorder := hc.sub (hc.handled c rfl).1
  have hheight : (m.placeBlock c).height = tree.height c.blockHash := by
    rw [(holds_placeBlock hc.fits.stores (hrun.treeOrder.names c hcorder) hprev).height,
      placeBlock_blockHash]
  obtain ⟨last', hlast', hstored, htree, hroot, hmax⟩ := hc.lastBlock
  rw [hlast] at hlast'
  cases hlast'
  have hbound : ∀ n, (m.placeBlock c).height ≤ n → last.height ≤ n → ∀ b ∈ order,
      (blocks.get b.blockHash).isSome → tree.height b.blockHash ≤ n := by
    intro n hn hn' b hb hsome
    obtain ⟨b', hb'⟩ := Option.isSome_iff_exists.mp hsome
    rcases ha.only _ b' hb' with ⟨heq, -⟩ | ⟨-, hold⟩
    · rw [← heq, ← hheight]
      exact hn
    · refine (hmax b hb ?_).trans hn'
      rw [hold]
      rfl
  rcases hl with ⟨hhigh, rfl⟩ | ⟨hle, rfl⟩
  · refine ⟨?_, Or.inr ⟨c, hcorder, placeBlock_blockHash m c⟩, by omega,
      hbound _ le_rfl (le_of_lt hhigh)⟩
    rw [placeBlock_blockHash]
    exact ha.self
  · exact ⟨ha.kept _ _ htree hstored, htree, hroot, hbound _ hle le_rfl⟩

/-- A block with a predecessor is stored, and the block behind it is released. -/
theorem Collected.store
    {blocks : BlockSet}
    (hrun : TreeRun env peer tree root order)
    (hc : Collected env peer tree root order relayed m (some c))
    (hprev : m.blocks.get c.prevBlock = some prev)
    (ha : Added root order m c blocks)
    (hlast : m.lastBlock = some last)
    (hblocks : m'.blocks = blocks)
    (hl : last.height < (m.placeBlock c).height ∧ m'.lastBlock = some (m.placeBlock c) ∨
      (m.placeBlock c).height ≤ last.height ∧ m'.lastBlock = some last)
    (horphans : m'.orphans = KeyedList.remove (·.prevBlock) m.orphans c.blockHash)
    (hfits : tree.Fits m'.toBlockStore)
    (hone : OnePeer env peer m')
    (hfilter : m'.bloomFilter = m.bloomFilter)
    (htime : m'.earliestKeyTime = m.earliestKeyTime) :
    Collected env peer tree root order relayed m' (m.orphans.getPrev c.blockHash) := by
  subst hblocks
  obtain ⟨hmem, hnew⟩ := hc.handled c rfl
  have hcorder := hc.sub hmem
  have hget : ∀ h, m'.orphans.getPrev h =
      if h = c.blockHash then none else m.orphans.getPrev h := by
    intro h
    rw [horphans, BlockSet.getPrev_remove]
  refine ⟨hfits, hone, by rw [hfilter]; exact hc.bloomFilter, by rw [htime]; exact hc.headers,
    hc.sub, ha.kept _ _ (Or.inl rfl) hc.rootStored, hc.added_linked hrun hprev ha, ?_, ?_, ?_,
    ?_, ?_⟩
  · rcases hl with ⟨hhigh, heq⟩ | ⟨hle, heq⟩
    · exact ⟨_, heq, hc.added_lastBlock hrun hprev ha hlast (Or.inl ⟨hhigh, rfl⟩)⟩
    · exact ⟨_, heq, hc.added_lastBlock hrun hprev ha hlast (Or.inr ⟨hle, rfl⟩)⟩
  · intro b hb
    rcases hc.delivered b hb with hsome | hwait | hcur
    · exact Or.inl (ha.isSome (Or.inr ⟨b, hc.sub hb, rfl⟩) hsome)
    · by_cases heq : b.prevBlock = c.blockHash
      · refine Or.inr (Or.inr ?_)
        rw [← heq]
        exact hwait
      · refine Or.inr (Or.inl ?_)
        rw [hget, if_neg heq]
        exact hwait
    · cases hcur
      refine Or.inl ?_
      rw [ha.self]
      rfl
  · intro h o ho
    rw [hget] at ho
    split at ho
    · cases ho
    rename_i hne
    obtain ⟨homem, hoprev, honew, -⟩ := hc.waiting h o ho
    have hh := BlockSet.getPrev_prevBlock ho
    refine ⟨homem, ha.get_none (by rw [hh]; exact hne) hoprev,
      ha.get_none (hc.waiting_ne hrun ho) honew, ?_⟩
    intro heq
    exact hne (hh.symm.trans (BlockSet.getPrev_prevBlock heq))
  · intro b hb hnot
    refine ha.get_none ?_ (hc.fresh b hb hnot)
    intro heq
    rw [hrun.treeOrder.eq_of_hash hb hcorder heq] at hnot
    exact hnot hmem
  · intro d hd
    obtain ⟨hdmem, -, hdnew, -⟩ := hc.waiting _ d hd
    exact ⟨hdmem, ha.get_none (hc.waiting_ne hrun hd) hdnew⟩

/-- Below a stored block of the tree there is a stored one at every height above
that of `root`. -/
theorem Collected.stored_below
    {x : ChainBlock} {height : ℕ}
    (hrun : TreeRun env peer tree root order)
    (hc : Collected env peer tree root order relayed m current)
    (hx : x ∈ order)
    (hsome : (m.blocks.get x.blockHash).isSome)
    (hroot : root.height < height)
    (hle : height ≤ tree.height x.blockHash) :
    ∃ y ∈ order, (m.blocks.get y.blockHash).isSome ∧ tree.height y.blockHash = height := by
  generalize hn : tree.height x.blockHash = n at hle
  induction n using Nat.strong_induction_on generalizing x with
  | _ n ih =>
      by_cases heq : n = height
      · exact ⟨x, hx, hsome, hn.trans heq⟩
      · obtain ⟨b', hb'⟩ := Option.isSome_iff_exists.mp hsome
        obtain ⟨-, hprev⟩ := hc.linked x hx b' hb'
        rcases hrun.treeOrder.linked x hx with hlink | ⟨p, hp, hlink⟩
        · have hheight := (hrun.treeOrder.names x hx).height_eq hlink hrun.rootHolds.hash
          rw [← hrun.rootHolds.height] at hheight
          omega
        · have hheight :=
            (hrun.treeOrder.names x hx).height_eq hlink (hrun.treeOrder.names p hp).hash
          rw [hlink] at hprev
          exact ih _ (by omega) hp hprev rfl (by omega)

/-- Below the last checkpoint, where there is no fork, a block with a predecessor
extends the main chain. -/
theorem Collected.extends_low
    (hrun : TreeRun env peer tree root order)
    (hc : Collected env peer tree root order relayed m (some c))
    (hprev : m.blocks.get c.prevBlock = some prev)
    (hlast : m.lastBlock = some last)
    (hlow : tree.height c.blockHash ≤ env.lastCheckpointHeight) :
    c.prevBlock = last.blockHash := by
  obtain ⟨hmem, hnew⟩ := hc.handled c rfl
  have hcorder := hc.sub hmem
  have hroot := hrun.treeOrder.height_lt hrun.rootHolds hcorder
  obtain ⟨last', hlast', hstored, htree, hrootlast, hmax⟩ := hc.lastBlock
  rw [hlast] at hlast'
  cases hlast'
  have hlastheight := (hc.fits.lastBlock last hlast).height
  have hheight : tree.height c.blockHash = tree.height c.prevBlock + 1 := by
    refine (hrun.treeOrder.names c hcorder).height_eq rfl ?_
    rw [← BlockSet.get_hash hprev]
    exact (hc.fits.blocks _ _ hprev).hash
  -- `lastBlock` is below the block, which is the only one of its height
  have hbelow : last.height < tree.height c.blockHash := by
    by_contra hnot
    rcases htree with heq | ⟨x, hx, heq⟩
    · rw [heq, ← hrun.rootHolds.height] at hlastheight
      omega
    · obtain ⟨y, hy, hsome, hyheight⟩ := hc.stored_below hrun hx
        (by rw [← heq, hstored]; rfl) hroot (by rw [← heq, ← hlastheight]; omega)
      rw [hrun.checkpoint y hy c hcorder hyheight (by omega), hnew] at hsome
      cases hsome
  rcases hrun.treeOrder.linked c hcorder with hlink | ⟨p, hp, hlink⟩
  · rw [hlink, ← hrun.rootHolds.height] at hheight
    rcases htree with heq | ⟨x, hx, heq⟩
    · rw [hlink, heq]
    · have := hrun.treeOrder.height_lt hrun.rootHolds hx
      rw [heq] at hlastheight
      omega
  · have hple := hmax p hp (by rw [← hlink, hprev]; rfl)
    have hplow := hrun.treeOrder.height_lt hrun.rootHolds hp
    rw [hlink] at hheight
    rcases htree with heq | ⟨x, hx, heq⟩
    · rw [heq, ← hrun.rootHolds.height] at hlastheight
      omega
    · rw [heq] at hlastheight
      rw [hlink, heq, hrun.checkpoint p hp x hx (by omega) (by omega)]

/-- The branch for a valid block does this. -/
theorem Collected.valid
    {s : BlockStore}
    (hrun : TreeRun env peer tree root order)
    (hc : Collected env peer tree root order relayed m (some c))
    (hprev : m.blocks.get c.prevBlock = some prev)
    (hfreed : BlockStore.Freed (m.Doomed (m.placeBlock c)) m.toBlockStore s)
    (hvalid : Valid env { m with toBlockStore := s } peer (m.placeBlock c) prev r)
    (hfin : r.finish = .ok (m', es, next))
    (hfits : tree.Fits m'.toBlockStore) :
    Collected env peer tree root order relayed m' next ∧
      ∀ n, next = some n → (m'.blocks.get n.prevBlock).isSome := by
  obtain ⟨hmem, hnew⟩ := hc.handled c rfl
  have hcorder := hc.sub hmem
  have ha := hc.added hrun hprev hfreed
  have hheight : (m.placeBlock c).height = tree.height c.blockHash := by
    rw [(holds_placeBlock hc.fits.stores (hrun.treeOrder.names c hcorder) hprev).height,
      placeBlock_blockHash]
  have hroot := hrun.treeOrder.height_lt hrun.rootHolds hcorder
  obtain ⟨last, hlast, hlaststored, -, hlastroot, -⟩ := hc.lastBlock
  have hstored : StoredBlock { m with toBlockStore := s } last (m.placeBlock c) r := by
    refine valid_stored ⟨hc.onePeer.connected, hc.onePeer.download, hc.onePeer.rate⟩
      (hfreed.lastBlock.trans hlast) ?_ (hrun.behind.trans hlastroot) ?_ ?_ hvalid
    · cases hs : s.blocks.get (m.placeBlock c).blockHash with
      | none =>
          rfl
      | some b =>
          have hold := hfreed.get_of_some hs
          rw [placeBlock_blockHash, hnew] at hold
          cases hold
    · rw [hheight, placeBlock_prevBlock]
      exact hc.extends_low hrun hprev hlast
    · intro hlink
      rw [placeBlock_prevBlock] at hlink
      rw [hlink, hlaststored] at hprev
      cases hprev
      rw [placeBlock_height (by rw [hlink]; exact hlaststored)]
      omega
  rcases finish_ok hfin with ⟨hno, -⟩ | ⟨b, saved, hb, hrel, -, -⟩
  · rw [hstored.handed] at hno
    cases hno
  rw [hstored.handed] at hb
  cases hb
  rcases releaseNext_ok hrel with ⟨hunknown, -⟩ | ⟨-, rfl, rfl⟩
  · have := hrun.treeOrder.known c hcorder
    omega
  -- verification leaves the orphans as they are
  have horphans : r.manager.orphans = m.orphans := hstored.orphans.trans hfreed.orphans
  rw [horphans, placeBlock_blockHash] at hfits ⊢
  refine ⟨hc.store hrun hprev ha hlast hstored.blocks hstored.lastBlock ?_ hfits
    ⟨?_, ?_, hc.onePeer.rate⟩ hstored.bloomFilter hstored.earliestKeyTime, ?_⟩
  · rfl
  · change ∀ p ∈ r.manager.connectedPeers, p = peer
    rw [hstored.connectedPeers]
    exact hc.onePeer.connected
  · exact hstored.downloadPeer.trans hc.onePeer.download
  · intro n hn
    change (BlockSet.get r.manager.blocks _).isSome
    rw [hstored.blocks, BlockSet.getPrev_prevBlock hn, ha.self]
    rfl

/-- **Step**: one call keeps the invariant, if its block does not have to take
the place of one that waits. -/
theorem Collected.step
    (hrun : TreeRun env peer tree root order)
    (hc : Collected env peer tree root order relayed m (some c))
    (hver : m.Verifies c)
    (hfree : m.blocks.get c.prevBlock = none → m.orphans.getPrev c.prevBlock = none)
    (h : m.relayStep env peer c = .ok (m', es, next)) :
    Collected env peer tree root order relayed m' next ∧
      ∀ n, next = some n → (m'.blocks.get n.prevBlock).isSome := by
  have hcorder := hc.sub (hc.handled c rfl).1
  have hfits := (fits_relayStep hc.fits (hrun.treeOrder.names c hcorder) h).1
  obtain ⟨r, hr, hfin⟩ := relayStep_ok h
  cases hr with
  | header hheader =>
      rw [placeBlock_isRecentHeader, hc.headers c hcorder] at hheader
      cases hheader
  | waiting _ hnone =>
      exact absurd hnone hc.bloomFilter
  | oldOrphan _ _ _ hold =>
      have hrecent := hrun.recent c hcorder
      rw [placeBlock_timestamp] at hold
      omega
  | orphan _ _ hprev _ =>
      rw [placeBlock_prevBlock] at hprev
      have hplace : m.placeBlock c = c := by rw [placeBlock, hprev]
      rw [hplace] at hfin
      rcases finish_ok hfin with ⟨hno, -⟩ | ⟨b, saved, hb, hrel, -, -⟩
      · cases hno
      · cases hb
        rcases releaseNext_ok hrel with ⟨-, rfl, rfl⟩ | ⟨hknown, -⟩
        · refine ⟨hc.wait hprev (hfree hprev) hfits, ?_⟩
          intro n hn
          cases hn
        · exact absurd (hrun.treeOrder.unknown c hcorder) hknown
  | invalid _ _ hprev hverify =>
      rw [placeBlock_prevBlock] at hprev
      obtain ⟨s, hs⟩ := hver _ hprev
      rw [hs] at hverify
      cases hverify
  | valid _ _ hprev hverify hvalid =>
      rw [placeBlock_prevBlock] at hprev
      exact hc.valid hrun hprev (BlockStore.verifyBlock_ok hverify).1 hvalid hfin hfits

/-- A block that has been released does not wait again. -/
theorem Collected.loop
    {n : ℕ}
    (hrun : TreeRun env peer tree root order)
    (hc : Collected env peer tree root order relayed m (some c))
    (hfree : m.blocks.get c.prevBlock = none → m.orphans.getPrev c.prevBlock = none)
    (hguard : RelayGuard env peer Verifies n m c)
    (h : relayLoop env peer n m c = .ok (m', es)) :
    Collected env peer tree root order relayed m' none := by
  induction n generalizing m c es with
  | zero =>
      cases h
  | succ n ih =>
      obtain ⟨⟨m₁, es₁, next⟩, hs, h⟩ := bind_eq_ok.mp h
      obtain ⟨hc₁, hnext⟩ := hc.step hrun hguard.1 hfree hs
      cases next with
      | none =>
          cases h
          exact hc₁
      | some x =>
          obtain ⟨⟨m₂, es₂⟩, hloop, hret⟩ := bind_eq_ok.mp h
          cases hret
          refine ih hc₁ ?_ (hguard.2 m₁ es₁ x hs) hloop
          intro hnone
          have hsome := hnext x rfl
          rw [hnone] at hsome
          cases hsome

/-- A block that is relayed finds its place among the orphans free. -/
theorem Collected.place_free
    {rest : List ChainBlock}
    (htwins : NoTwinsWait root order)
    (hc : Collected env peer tree root order relayed m none)
    (horder : order = relayed ++ c :: rest)
    (hprev : m.blocks.get c.prevBlock = none) :
    m.orphans.getPrev c.prevBlock = none := by
  cases hget : m.orphans.getPrev c.prevBlock with
  | none =>
      rfl
  | some x =>
      have hx := (hc.waiting _ x hget).1
      rcases htwins relayed c rest horder x hx (BlockSet.getPrev_prevBlock hget) with
        hroot | ⟨p, hp, hlink⟩
      · rw [hroot, hc.rootStored] at hprev
        cases hprev
      · have hsome := hc.stored_of_joined hp
        rw [← hlink, hprev] at hsome
        cases hsome

/-- `_peerRelayedBlock` for a list of blocks. -/
def relayBlocks (env : Env) (peer : BRPeer) :
    BRPeerManager → List ChainBlock → Except ManagerFault BRPeerManager
  | m, [] => pure m
  | m, block :: rest => do
      let (m, _) ← m.relayedBlock env peer block
      relayBlocks env peer m rest

/-- Every block of the run passes verification, wherever it is verified. -/
def RunVerifies (env : Env) (peer : BRPeer) : BRPeerManager → List ChainBlock → Prop
  | _, [] => True
  | m, block :: rest =>
      RelayGuard env peer Verifies (m.orphans.length + 2) m block ∧
        ∀ m' es, m.relayedBlock env peer block = .ok (m', es) → RunVerifies env peer m' rest

theorem Verifies.orphan
    (h : m.blocks.get block.prevBlock = none) :
    m.Verifies block := by
  intro prev hprev
  rw [h] at hprev
  cases hprev

theorem Verifies.linked
    {s : BlockStore}
    (h : m.blocks.get block.prevBlock = some prev)
    (hs : m.toBlockStore.verifyBlock (m.placeBlock block) prev = .ok (s, true)) :
    m.Verifies block := by
  intro p hp
  rw [h] at hp
  cases hp
  exact ⟨s, hs⟩

theorem RelayGuard.stop
    {ok : BRPeerManager → ChainBlock → Prop} {n : ℕ}
    (hok : ok m block)
    (hs : m.relayStep env peer block = .ok (m', es, none)) :
    RelayGuard env peer ok (n + 1) m block := by
  refine ⟨hok, ?_⟩
  intro m₁ es₁ next h
  rw [hs] at h
  cases h

theorem RelayGuard.release
    {ok : BRPeerManager → ChainBlock → Prop} {n : ℕ}
    (hok : ok m block)
    (hs : m.relayStep env peer block = .ok (m', es, some b))
    (hb : RelayGuard env peer ok n m' b) :
    RelayGuard env peer ok (n + 1) m block := by
  refine ⟨hok, ?_⟩
  intro m₁ es₁ next h
  rw [hs] at h
  cases h
  exact hb

theorem RunVerifies.cons
    {rest : List ChainBlock}
    (hguard : RelayGuard env peer Verifies (m.orphans.length + 2) m block)
    (hrelay : m.relayedBlock env peer block = .ok (m', es))
    (hrest : RunVerifies env peer m' rest) :
    RunVerifies env peer m (block :: rest) := by
  refine ⟨hguard, ?_⟩
  intro m₁ es₁ h
  rw [hrelay] at h
  cases h
  exact hrest

theorem Collected.run
    {rest : List ChainBlock}
    (hrun : TreeRun env peer tree root order)
    (htwins : NoTwinsWait root order)
    (hc : Collected env peer tree root order relayed m none)
    (horder : order = relayed ++ rest)
    (hver : RunVerifies env peer m rest)
    (h : relayBlocks env peer m rest = .ok m') :
    Collected env peer tree root order order m' none := by
  induction rest generalizing relayed m with
  | nil =>
      cases h
      rw [List.append_nil] at horder
      rw [horder] at hc ⊢
      exact hc
  | cons c rest ih =>
      obtain ⟨⟨m₁, es⟩, hrelay, h⟩ := bind_eq_ok.mp h
      have hc₁ := (hc.relay hrun.treeOrder horder).loop hrun
        (hc.place_free htwins horder) hver.1 hrelay
      exact ih hc₁ (by simp [horder]) (hver.2 m₁ es hrelay) h

/-! ## No call fails but in the wallet -/

/-- In any set that holds the tree's stored blocks and `root`, `root` is above
each of them. -/
theorem TreeRun.above_root
    {blocks : BlockSet}
    (hrun : TreeRun env peer tree root order)
    (hroot : blocks.get root.blockHash = some root)
    (hlinked : ∀ b ∈ order, ∀ b', blocks.get b.blockHash = some b' →
      b'.prevBlock = b.prevBlock ∧ (blocks.get b.prevBlock).isSome)
    {b b' : ChainBlock}
    (hb : OfTree root order b.blockHash)
    (hget : blocks.get b.blockHash = some b') :
    Above blocks.parent b' root := by
  generalize hn : tree.height b.blockHash = n
  induction n using Nat.strong_induction_on generalizing b b' with
  | _ n ih =>
      rcases hb with hb | ⟨x, hx, hhash⟩
      · rw [hb, hroot] at hget
        cases hget
        exact Above.refl _ _
      · rw [hhash] at hget hn
        obtain ⟨hlink, hsome⟩ := hlinked x hx b' hget
        obtain ⟨p, hp⟩ := Option.isSome_iff_exists.mp hsome
        have hphash := BlockSet.get_hash hp
        have hpmem := hrun.treeOrder.linked x hx
        have hheight : tree.height x.blockHash = tree.height p.blockHash + 1 := by
          refine (hrun.treeOrder.names x hx).height_eq hphash.symm ?_
          rcases hpmem with heq | ⟨q, hq, heq⟩
          · rw [hphash, heq]
            exact hrun.rootHolds.hash
          · rw [hphash, heq]
            exact (hrun.treeOrder.names q hq).hash
        refine Above.step (b := p) ?_ (ih _ (by omega) (b := p) ?_ ?_ rfl)
        · rw [BlockSet.parent, hlink]
          exact hp
        · rw [hphash]
          exact hpmem
        · rw [hphash]
          exact hp

/-- The walks of a reorganisation meet. -/
theorem Collected.reorganize_wallet
    {s : BlockStore} {e : ManagerFault}
    (hrun : TreeRun env peer tree root order)
    (hc : Collected env peer tree root order relayed m (some c))
    (hprev : m.blocks.get c.prevBlock = some prev)
    (hlast : m.lastBlock = some last)
    (hhigh : last.height < (m.placeBlock c).height)
    (hfreed : BlockStore.Freed (m.Doomed (m.placeBlock c)) m.toBlockStore s)
    (h : BRPeerManager.reorganize env
      { m with
        toBlockStore := { s with
          blocks := KeyedList.add (·.blockHash) s.blocks (m.placeBlock c) } }
      (m.placeBlock c) last = .error e) :
    ∃ f, e = .wallet f := by
  obtain ⟨hmem, hnew⟩ := hc.handled c rfl
  have hcorder := hc.sub hmem
  have hholds := holds_placeBlock hc.fits.stores (hrun.treeOrder.names c hcorder) hprev
  have ha := hc.added hrun hprev hfreed
  have hranked : Ranked
      (BlockSet.parent (KeyedList.add (·.blockHash) s.blocks (m.placeBlock c)))
      ChainBlock.height tree.Holds :=
    BlockTree.ranked (BlockTree.holds_add (hc.fits.stores.freed hfreed).blocks hholds)
  generalize KeyedList.add (·.blockHash) s.blocks (m.placeBlock c) = blocks at h ha hranked
  have hroot := ha.kept _ _ (Or.inl rfl) hc.rootStored
  have hlinked := hc.added_linked hrun hprev ha
  obtain ⟨last', hlast', hlaststored, hlasttree, -, -⟩ := hc.lastBlock
  rw [hlast] at hlast'
  cases hlast'
  have hlastget := ha.kept _ _ hlasttree hlaststored
  have habove₁ : Above (BlockSet.parent blocks) (m.placeBlock c) root :=
    hrun.above_root hroot hlinked (b := c) (Or.inr ⟨c, hcorder, rfl⟩) ha.self
  have habove₂ : Above (BlockSet.parent blocks) last root :=
    hrun.above_root hroot hlinked hlasttree hlastget
  have hPlast : tree.Holds last := hc.fits.lastBlock last hlast
  obtain ⟨k, hk⟩ := habove₁
  obtain ⟨j, j2, hjoin, hsame, hj, hj2⟩ := BlockSet.joinLoop_returns hranked hholds hPlast hk
    habove₂ (le_of_lt hhigh)
    (Nat.lt_succ_of_le (BlockSet.ranked_length hranked hholds hk))
  rcases reorganize_error h with hw | hw | ⟨⟨x, hw⟩, -⟩ | ⟨j', x, w, hw, hreplay⟩
  · exact hw
  · rw [hjoin] at hw
    cases hw
  · rw [hjoin] at hw
    cases hw
  · rw [hjoin] at hw
    cases hw
    -- the block where the walks meet has the height of `j2`
    obtain ⟨n, hn⟩ := hj
    have hjheight : j.height ≤ j2.height := by
      rw [(hranked.above_rank hholds ⟨n, hn⟩).1.height, (hranked.above_rank hPlast hj2).1.height,
        hsame]
    exact BRWallet.replayLoop_wallet hn hjheight
      (Nat.lt_succ_of_le (BlockSet.ranked_length hranked hholds hn)) hreplay

theorem Collected.step_error
    {e : ManagerFault}
    (hrun : TreeRun env peer tree root order)
    (hc : Collected env peer tree root order relayed m (some c))
    (hver : m.Verifies c)
    (h : m.relayStep env peer c = .error e) :
    ∃ f, e = .wallet f := by
  have hcorder := hc.sub (hc.handled c rfl).1
  have hnew := (hc.handled c rfl).2
  obtain ⟨last, hlast, -⟩ := hc.lastBlock
  have hnolast : ∀ {e}, m.last ≠ .error e := by
    intro e hl
    have hnone := (last_error hl).1
    rw [hlast] at hnone
    cases hnone
  rcases bind_eq_error.mp h with h | ⟨_, -, h⟩
  · rw [trackRate] at h
    split at h
    · rcases bind_eq_error.mp h with h | ⟨_, -, h⟩
      · exact absurd h hnolast
      · cases h
    · cases h
  rcases bind_eq_error.mp h with h | ⟨r, hr, hfin⟩
  · rw [handleBlock] at h
    split at h
    · cases h
    split at h
    · rename_i hnone
      exact absurd hnone hc.bloomFilter
    split at h
    · rcases bind_eq_error.mp h with h | ⟨_, -, h⟩
      · exact absurd h hnolast
      · split at h <;> cases h
    · rename_i prev hprev
      rw [placeBlock_prevBlock] at hprev
      obtain ⟨s, hs⟩ := hver prev hprev
      have hfreed := (BlockStore.verifyBlock_ok hs).1
      have hslast : s.lastBlock = some last := hfreed.lastBlock.trans hlast
      rw [relayLinked, hs, ok_bind] at h
      dsimp only at h
      rw [if_pos rfl] at h
      rcases bind_eq_error.mp h with h | ⟨l, hl, h⟩
      · have hnone := (last_error h).1
        change s.lastBlock = none at hnone
        rw [hslast] at hnone
        cases hnone
      · have hl := last_ok hl
        change s.lastBlock = some l at hl
        rw [hslast] at hl
        cases hl
        split at h
        · exact extendChain_error h
        split at h
        · rename_i hstored
          obtain ⟨b, hb⟩ := Option.isSome_iff_exists.mp hstored
          have hold := hfreed.get_of_some hb
          rw [placeBlock_blockHash, hnew] at hold
          cases hold
        split at h
        · cases h
        split at h
        · cases h
        rw [relayFork] at h
        split at h
        · rename_i hhigh
          exact hc.reorganize_wallet hrun hprev hlast hhigh hfreed h
        · cases h
  · exact absurd hfin (finish_returns hc.fits (hrun.treeOrder.names c hcorder)
      (handleBlock_cases hr))

/-- The whole call fails nowhere else, and does not run out of the bound on its
recursion. -/
theorem Collected.relayedBlock_error
    {e : ManagerFault}
    (hrun : TreeRun env peer tree root order)
    (hc : Collected env peer tree root order relayed m (some c))
    (hfree : m.blocks.get c.prevBlock = none → m.orphans.getPrev c.prevBlock = none)
    (hguard : RelayGuard env peer Verifies (m.orphans.length + 2) m c)
    (h : m.relayedBlock env peer c = .error e) :
    ∃ f, e = .wallet f := by
  obtain ⟨m₁, b, -, ⟨hc₁, -⟩, hver, hstep⟩ := relayLoop_error
    (I := fun m => tree.Fits m.toBlockStore)
    (Q := fun m c => Collected env peer tree root order relayed m (some c) ∧
      (m.blocks.get c.prevBlock = none → m.orphans.getPrev c.prevBlock = none))
    (fun _ hm => hm)
    (fun _ b hb => hrun.treeOrder.names b (hb.1.sub (hb.1.handled b rfl).1))
    (by
      intro m b m' es next _ hb hver hstep
      obtain ⟨hc', hnext⟩ := hb.1.step hrun hver hb.2 hstep
      refine ⟨hc'.fits, ?_⟩
      rintro x rfl
      refine ⟨hc', ?_⟩
      intro hnone
      have hsome := hnext x rfl
      rw [hnone] at hsome
      cases hsome)
    hc.fits ⟨hc, hfree⟩ hguard (pendingAbove_fuel tree m c) h
  exact hc₁.step_error hrun hver hstep

theorem Collected.run_error
    {rest : List ChainBlock} {e : ManagerFault}
    (hrun : TreeRun env peer tree root order)
    (htwins : NoTwinsWait root order)
    (hc : Collected env peer tree root order relayed m none)
    (horder : order = relayed ++ rest)
    (hver : RunVerifies env peer m rest)
    (h : relayBlocks env peer m rest = .error e) :
    ∃ f, e = .wallet f := by
  induction rest generalizing relayed m with
  | nil =>
      cases h
  | cons c rest ih =>
      have hc₁ := hc.relay hrun.treeOrder horder
      have hfree := hc.place_free htwins horder
      rcases bind_eq_error.mp h with h | ⟨⟨m₁, es⟩, hrelay, h⟩
      · exact hc₁.relayedBlock_error hrun hfree hver.1 h
      · exact ih (hc₁.loop hrun hfree hver.1 hrelay) (by simp [horder]) (hver.2 m₁ es hrelay) h

/-! ## Whole runs -/

/-- The manager before the first block of the tree: `root` is its `lastBlock`,
and it knows nothing of the tree. -/
structure Ready (env : Env) (peer : BRPeer) (tree : BlockTree) (root : ChainBlock)
    (order : List ChainBlock) (m : BRPeerManager) : Prop where
  stores : tree.Stores m.toBlockStore
  onePeer : OnePeer env peer m
  bloomFilter : m.bloomFilter ≠ none
  headers : ∀ b ∈ order, b.isRecentHeader m.earliestKeyTime = false
  lastBlock : m.lastBlock = some root
  rootStored : m.blocks.get root.blockHash = some root
  new : ∀ b ∈ order, m.blocks.get b.blockHash = none
  orphans : m.orphans = []

/-- Every block of the tree is stored, nothing waits, and `lastBlock` is one of
the highest blocks. -/
structure Arrived (tree : BlockTree) (root : ChainBlock) (order : List ChainBlock)
    (m : BRPeerManager) : Prop where
  stored : ∀ b ∈ order, (m.blocks.get b.blockHash).isSome
  orphans : m.orphans = []
  lastBlock : ∃ last, m.lastBlock = some last ∧ m.blocks.get last.blockHash = some last ∧
    OfTree root order last.blockHash ∧ root.height ≤ last.height ∧
    ∀ b ∈ order, tree.height b.blockHash ≤ last.height

theorem Ready.collected
    (h : Ready env peer tree root order m) :
    Collected env peer tree root order [] m none where
  fits := ⟨h.stores.blocks, by simp [h.orphans], h.stores.lastBlock⟩
  onePeer := h.onePeer
  bloomFilter := h.bloomFilter
  headers := h.headers
  sub := List.nil_subset _
  rootStored := h.rootStored
  linked := by
    intro b hb b' hget
    rw [h.new b hb] at hget
    cases hget
  lastBlock := by
    refine ⟨root, h.lastBlock, h.rootStored, Or.inl rfl, le_rfl, ?_⟩
    intro b hb hsome
    rw [h.new b hb] at hsome
    cases hsome
  delivered := by simp
  waiting := by
    intro h' o ho
    rw [h.orphans] at ho
    cases ho
  fresh := fun b hb _ => h.new b hb
  handled := by
    intro c hc
    cases hc

/--
**Delivery in any order.**  The blocks of a tree without a fork below the last
checkpoint, of which nothing is pruned, are all stored, whatever the order in which
one peer relays them, if no two blocks wait for one predecessor; nothing waits then,
and `lastBlock` is one of the highest blocks.  The run fails nowhere but inside the
wallet.
-/
theorem relayBlocks_arrived
    (hrun : TreeRun env peer tree root order)
    (hready : Ready env peer tree root order m)
    (htwins : NoTwinsWait root order)
    (hver : RunVerifies env peer m order) :
    (∃ m', relayBlocks env peer m order = .ok m' ∧ Arrived tree root order m') ∨
      ∃ f, relayBlocks env peer m order = .error (.wallet f) := by
  have hc := hready.collected
  cases h : relayBlocks env peer m order with
  | error e =>
      obtain ⟨f, rfl⟩ := hc.run_error hrun htwins rfl hver h
      exact Or.inr ⟨f, rfl⟩
  | ok m' =>
      have hend := hc.run hrun htwins rfl hver h
      obtain ⟨hstored, horphans⟩ := hend.complete hrun.treeOrder
      obtain ⟨last, hlast, hget, htree, hroot, hmax⟩ := hend.lastBlock
      exact Or.inl ⟨m', rfl, hstored, horphans, last, hlast, hget, htree, hroot,
        fun b hb => hmax b hb (hstored b hb)⟩

end Run

end BRPeerManager

section Samples

/-- A block at height 9. -/
def ninthBlock : ChainBlock where
  addr := 9
  blockHash := 9
  prevBlock := 0
  timestamp := 1600000000
  target := 0
  height := 9

/-- A block with two blocks behind it. -/
def forkTree : BlockTree where
  parent h := if h = 10 then 9 else if h = 11 ∨ h = 12 then 10 else 0
  height h := if h = 9 then 9 else if h = 10 then 10 else if h = 11 ∨ h = 12 then 11 else 0
  height_eq := by
    intro h hne
    split_ifs at hne with h₁ h₂
    · subst h₁
      rfl
    · rcases h₂ with rfl | rfl <;> rfl
    · exact absurd rfl hne

/-- A manager that has been synced up to this height. -/
def ninthManager : BRPeerManager where
  blocks := [ninthBlock]
  orphans := []
  checkpoints := []
  lastBlock := some ninthBlock
  connectedPeers := [samplePeer]
  downloadPeer := some samplePeer
  estimatedHeight := 9
  wallet := .empty bareKey
  earliestKeyTime := 1500000000
  bloomFilter := some (.new 1 1 0 0)

/-- The first of the two blocks waits for its predecessor. -/
def forkOrder : List ChainBlock :=
  [relayedSample 11 10, relayedSample 10 9, relayedSample 12 10]

theorem treeOrder_forkOrder :
    TreeOrder forkTree ninthBlock forkOrder where
  names := by
    simp only [forkOrder, List.mem_cons, List.not_mem_nil, or_false, forall_eq_or_imp, forall_eq]
    exact ⟨⟨by decide, rfl⟩, ⟨by decide, rfl⟩, ⟨by decide, rfl⟩⟩
  nodup := by decide
  linked := by decide
  unknown := by decide
  known := by decide

theorem treeRun_forkOrder :
    BRPeerManager.TreeRun (quietEnv []) samplePeer forkTree ninthBlock forkOrder where
  treeOrder := treeOrder_forkOrder
  rootHolds := ⟨by decide, Or.inr rfl, rfl⟩
  unpruned := by
    intro x hx htrans
    simp only [forkOrder, List.mem_cons, List.not_mem_nil, or_false] at hx
    rcases hx with rfl | rfl | rfl <;> cases htrans
  behind := Nat.zero_le _
  checkpoint := by decide
  recent := by decide

theorem ready_ninthManager
    (checkpointArray : List Checkpoint) :
    BRPeerManager.Ready (quietEnv checkpointArray) samplePeer forkTree ninthBlock forkOrder
      ninthManager where
  stores := by
    have hholds : forkTree.Holds ninthBlock := ⟨by decide, Or.inr rfl, rfl⟩
    refine ⟨?_, ?_⟩
    · intro h b hget
      have hmem := BlockSet.mem_of_get hget
      rw [List.mem_singleton.mp hmem]
      exact hholds
    · intro b hb
      cases hb
      exact hholds
  onePeer := ⟨by decide, rfl, rfl⟩
  bloomFilter := by decide
  headers := by decide
  lastBlock := rfl
  rootStored := rfl
  new := by decide
  orphans := rfl

/-- The second of the blocks behind one predecessor comes when that is stored. -/
theorem noTwinsWait_forkOrder :
    NoTwinsWait ninthBlock forkOrder := by
  intro relayed y rest horder x hx hsame
  have hjoined : Joined ninthBlock [relayedSample 11 10, relayedSample 10 9]
      (relayedSample 10 9) :=
    .root (by simp) rfl
  rcases relayed with _ | ⟨a, _ | ⟨b, _ | ⟨c, _ | ⟨d, relayed⟩⟩⟩⟩
  · cases hx
  · cases horder
    cases List.mem_singleton.mp hx
    exact absurd hsame (by decide)
  · cases horder
    exact Or.inr ⟨_, hjoined, rfl⟩
  · cases horder
  · cases horder

theorem runVerifies_forkOrder
    {checkpointArray : List Checkpoint}
    (h : checkpointArray = [] ∨ checkpointArray = [⟨100, 1, 0, 0⟩]) :
    BRPeerManager.RunVerifies (quietEnv checkpointArray) samplePeer ninthManager forkOrder := by
  rcases h with rfl | rfl
  all_goals
    exact .cons (.stop (.orphan rfl) rfl) rfl
      (.cons (.release (.linked rfl rfl) rfl (.stop (.linked rfl rfl) rfl)) rfl
        (.cons (.stop (.linked rfl rfl) rfl) rfl trivial))

theorem relayBlocks_arrived_forkOrder :
    (∃ m', BRPeerManager.relayBlocks (quietEnv []) samplePeer ninthManager forkOrder = .ok m' ∧
        BRPeerManager.Arrived forkTree ninthBlock forkOrder m') ∨
      ∃ f, BRPeerManager.relayBlocks (quietEnv []) samplePeer ninthManager forkOrder =
        .error (.wallet f) :=
  BRPeerManager.relayBlocks_arrived treeRun_forkOrder (ready_ninthManager [])
    noTwinsWait_forkOrder (runVerifies_forkOrder (Or.inl rfl))

/-- Below the last checkpoint the fork is ignored. -/
theorem forkOrder_ignored :
    TreeOrder forkTree ninthBlock forkOrder ∧
      (quietEnv [⟨100, 1, 0, 0⟩]).lastblock samplePeer ≤ ninthBlock.height ∧
      (∀ b ∈ forkOrder,
        (quietEnv [⟨100, 1, 0, 0⟩]).now ≤ (b.timestamp + weekTime).toNat) ∧
      BRPeerManager.Ready (quietEnv [⟨100, 1, 0, 0⟩]) samplePeer forkTree ninthBlock forkOrder
        ninthManager ∧
      NoTwinsWait ninthBlock forkOrder ∧
      BRPeerManager.RunVerifies (quietEnv [⟨100, 1, 0, 0⟩]) samplePeer ninthManager forkOrder ∧
      ∃ m', BRPeerManager.relayBlocks (quietEnv [⟨100, 1, 0, 0⟩]) samplePeer ninthManager
          forkOrder = .ok m' ∧
        ¬ BRPeerManager.Arrived forkTree ninthBlock forkOrder m' := by
  refine ⟨treeOrder_forkOrder, by decide, by decide, ready_ninthManager _, noTwinsWait_forkOrder,
    runVerifies_forkOrder (Or.inr rfl), _, rfl, ?_⟩
  intro h
  have hstored := h.stored (relayedSample 12 10) (by simp [forkOrder])
  cases hstored

end Samples

end BreadwalletCore
