import BreadwalletCore.PeerManager.BlockTree

/-!
# Syncing the main chain

`BRPeerManagerNew` and `BRPeerManagerRescan` choose the block that the chain
download starts from; the blocks behind it are then relayed in order.

`_BRPeerManagerVerifyBlock` looks back `BLOCK_DIFFICULTY_INTERVAL` blocks from
every block at a multiple of that interval.  The first such block of a download
is the one that decides: later ones find the block that was relayed an interval
before them.
-/

namespace BreadwalletCore

open Machine Ancestry

/-! ## Rules for new managers -/

namespace BlockStore

variable {I : BlockStore → Prop} {s s' : BlockStore} {saved : List ChainBlock}

/-- What putting in a row keeps, holds of the checkpoints. -/
theorem ofCheckpoints_invariant
    {checkpointArray : List Checkpoint} {earliestKeyTime : UInt32}
    (hstep : ∀ s, ∀ row ∈ checkpointArray.zipIdx, I s → I (s.addCheckpoint earliestKeyTime row))
    (hI : I .empty) :
    I (ofCheckpoints checkpointArray earliestKeyTime) := by
  rw [ofCheckpoints]
  exact List.foldlRecOn _ _ hI (fun s hs row hrow => hstep s row hrow hs)

/-- What adding a saved block to `orphans` keeps, the fold keeps, and the
transition block that it finds has been saved. -/
theorem restoreFold_invariant
    {block : Option ChainBlock}
    (hstep : ∀ s, ∀ b ∈ saved, I s →
      I { s with orphans := KeyedList.add (·.prevBlock) s.orphans b })
    (hI : I s)
    (h : saved.foldlM restoreBlock (s, none) = .ok (s', block)) :
    I s' ∧ ∀ b, block = some b → b ∈ saved := by
  refine foldlM_invariant
    (I := fun p : BlockStore × Option ChainBlock => I p.1 ∧ ∀ b, p.2 = some b → b ∈ saved)
    ?_ ⟨hI, by simp⟩ h
  rintro ⟨s₁, t⟩ b hb ⟨s₂, t'⟩ ⟨hs₁, ht⟩ hrestore
  rw [restoreBlock] at hrestore
  split at hrestore
  · cases hrestore
  · cases hrestore
    refine ⟨hstep s₁ b hb hs₁, ?_⟩
    intro x hx
    dsimp only at hx
    split at hx
    · cases hx
      exact hb
    · exact ht x hx

/-- The set after a block of the chain has been restored. -/
def withRestored (s : BlockStore) (x : ChainBlock) : BlockStore :=
  { s with
    blocks := KeyedList.add (·.blockHash) s.blocks x
    lastBlock := some x
    orphans := KeyedList.remove (·.prevBlock) s.orphans x.prevBlock }

/-- What restoring one block keeps, the loop keeps. -/
theorem restoreLoop_invariant
    {n : ℕ} {block : Option ChainBlock} {P : ChainBlock → Prop}
    (hstep : ∀ s x, I s → P x → I (s.withRestored x))
    (horphans : ∀ s, I s → ∀ o ∈ s.orphans, P o)
    (hI : I s)
    (hblock : ∀ b, block = some b → P b)
    (h : restoreLoop n block s = .ok s') :
    I s' := by
  induction n generalizing s block with
  | zero =>
      cases h
  | succ n ih =>
      cases block with
      | none =>
          cases h
          exact hI
      | some x =>
          have hI' := hstep s x hI (hblock x rfl)
          refine ih hI' ?_ h
          intro b hb
          exact horphans _ hI' b (KeyedList.mem_of_get hb)

end BlockStore

/-! ## New managers fit into the tree -/

namespace BlockTree

/-- The rows of the table are different blocks of the tree. -/
structure Tabled (tree : BlockTree) (checkpointArray : List Checkpoint) : Prop where
  hash : ∀ c ∈ checkpointArray, c.hash ≠ 0
  height : ∀ c ∈ checkpointArray, tree.height c.hash = c.height
  nodup : (checkpointArray.map Checkpoint.hash).Nodup

/-- A saved block is stored with its height. -/
def Saved (tree : BlockTree) (b : ChainBlock) : Prop :=
  tree.Names b ∧ b.height = tree.height b.blockHash

variable {tree : BlockTree} {s s' : BlockStore} {b : ChainBlock}

theorem Saved.holds
    (hb : tree.Saved b) :
    tree.Holds b :=
  ⟨hb.1.hash, Or.inl hb.1.parent, hb.2⟩

theorem fits_ofCheckpoints
    {checkpointArray : List Checkpoint}
    (ht : tree.Tabled checkpointArray)
    (earliestKeyTime : UInt32) :
    tree.Fits (BlockStore.ofCheckpoints checkpointArray earliestKeyTime) := by
  refine BlockStore.ofCheckpoints_invariant (I := tree.Fits) ?_ ⟨?_, ?_, ?_⟩
  · intro s row hrow hs
    have hmem := List.fst_mem_of_mem_zipIdx hrow
    have hholds : tree.Holds (row.1.block row.2) :=
      ⟨ht.hash _ hmem, Or.inr rfl, (ht.height _ hmem).symm⟩
    refine ⟨holds_add hs.blocks hholds, hs.orphans, ?_⟩
    intro b hb
    rw [BlockStore.addCheckpoint] at hb
    dsimp only at hb
    split at hb
    · cases hb
      exact hholds
    · exact hs.lastBlock b hb
  · intro h b hb
    cases hb
  · intro b hb
    cases hb
  · intro b hb
    cases hb

theorem fits_withRestored
    (hs : tree.Fits s)
    (hb : tree.Holds b) :
    tree.Fits (s.withRestored b) where
  blocks := holds_add hs.blocks hb
  orphans := fun o ho => hs.orphans o (List.mem_of_mem_filter ho)
  lastBlock := by
    intro l hl
    cases hl
    exact hb

theorem fits_restore
    {blocks : List ChainBlock}
    (hs : tree.Fits s)
    (hnil : s.orphans = [])
    (hsaved : ∀ b ∈ blocks, tree.Saved b)
    (h : s.restore blocks = .ok s') :
    tree.Fits s' := by
  obtain ⟨⟨s₁, block⟩, hfold, hloop⟩ := bind_eq_ok.mp h
  have hinv : (tree.Fits s₁ ∧ ∀ b ∈ s₁.orphans, tree.Saved b) ∧
      ∀ b, block = some b → b ∈ blocks := by
    refine BlockStore.restoreFold_invariant
      (I := fun s => tree.Fits s ∧ ∀ b ∈ s.orphans, tree.Saved b) ?_
      ⟨hs, by simp [hnil]⟩ hfold
    rintro s₂ b hb ⟨hfits, horphans⟩
    have hsub : ∀ o ∈ KeyedList.add (·.prevBlock) s₂.orphans b, tree.Saved o := by
      intro o ho
      rcases List.mem_cons.mp ho with rfl | ho
      · exact hsaved o hb
      · exact horphans o (List.mem_of_mem_filter ho)
    exact ⟨⟨hfits.blocks, fun o ho => (hsub o ho).1, hfits.lastBlock⟩, hsub⟩
  refine (BlockStore.restoreLoop_invariant
    (I := fun s => tree.Fits s ∧ ∀ b ∈ s.orphans, tree.Saved b) (P := tree.Saved)
    ?_ (fun s hs => hs.2) hinv.1 (fun b hb => hsaved b (hinv.2 b hb)) hloop).1
  rintro s₂ x ⟨hfits, horphans⟩ hx
  exact ⟨fits_withRestored hfits hx.holds,
    fun o ho => horphans o (List.mem_of_mem_filter ho)⟩

end BlockTree

namespace BRPeerManager

variable {env : Env} {m : BRPeerManager} {tree : BlockTree}
variable {wallet : BRWallet} {earliestKeyTime : UInt32} {blocks : List ChainBlock}

theorem new_ok
    (h : new env wallet earliestKeyTime blocks = .ok m) :
    ∃ s, (BlockStore.ofCheckpoints env.checkpointArray earliestKeyTime).restore blocks = .ok s ∧
      m = { toPublishLists := {}, toRelayLists := {}, toBlockStore := s, toConnections := {},
            wallet := wallet, earliestKeyTime := earliestKeyTime } := by
  obtain ⟨s, hs, hret⟩ := bind_eq_ok.mp h
  cases hret
  exact ⟨s, hs, rfl⟩

theorem ofCheckpoints_orphans
    (checkpointArray : List Checkpoint) (earliestKeyTime : UInt32) :
    (BlockStore.ofCheckpoints checkpointArray earliestKeyTime).orphans = [] :=
  BlockStore.ofCheckpoints_invariant (I := fun s => s.orphans = []) (fun _ _ _ hs => hs) rfl

theorem fits_new
    (ht : tree.Tabled env.checkpointArray)
    (hsaved : ∀ b ∈ blocks, tree.Saved b)
    (h : new env wallet earliestKeyTime blocks = .ok m) :
    tree.Fits m.toBlockStore := by
  obtain ⟨s, hs, rfl⟩ := new_ok h
  exact BlockTree.fits_restore (BlockTree.fits_ofCheckpoints ht earliestKeyTime)
    (ofCheckpoints_orphans _ _) hsaved hs

end BRPeerManager

/-! ## Where a download starts -/

/-- A delivered block, with what its handler sees. -/
structure Delivery where
  env : Env
  peer : BRPeer
  block : ChainBlock

/-- The manager is about to go on from the block `c`, and has no orphans. -/
structure SyncStart (tree : BlockTree) (m : BRPeerManager) (c : ChainBlock) : Prop where
  fits : tree.Fits m.toBlockStore
  lastBlock : m.lastBlock = some c
  stored : m.blocks.get c.blockHash = some c
  orphans : m.orphans = []

/-- `c` has been taken as `lastBlock` by `BRPeerManagerNew`, where no transition
block was restored, or by `BRPeerManagerRescan`, and the filter that lets blocks
in has been loaded. -/
inductive Started (env : Env) (tree : BlockTree) (m' : BRPeerManager) (c : ChainBlock) : Prop
  | new {wallet : BRWallet} {earliestKeyTime : UInt32} {blocks : List ChainBlock}
      {m : BRPeerManager} {peer : BRPeer} :
      (∀ b ∈ blocks, tree.Saved b ∧ b.height % blockDifficultyInterval ≠ 0) →
      BRPeerManager.new env wallet earliestKeyTime blocks = .ok m →
      m.loadBloomFilter env peer = .ok m' → m.lastBlock = some c →
      Started env tree m' c
  | rescan {m₀ m : BRPeerManager} {peers : List BRPeer} {peer : BRPeer} {row : Checkpoint} :
      tree.Fits m₀.toBlockStore → m₀.isConnected = true →
      BRPeerManager.rescanCheckpoint env.checkpointArray m₀.earliestKeyTime = some row →
      m₀.rescan env peers = .ok m → m.loadBloomFilter env peer = .ok m' →
      m.lastBlock = some c →
      Started env tree m' c

namespace BRPeerManager

variable {env : Env} {m m' : BRPeerManager} {tree : BlockTree} {c : ChainBlock}
variable {earliestKeyTime : UInt32} {blocks : List ChainBlock}

theorem ofCheckpoints_stored
    {checkpointArray : List Checkpoint}
    (ht : tree.Tabled checkpointArray)
    (h : (BlockStore.ofCheckpoints checkpointArray earliestKeyTime).lastBlock = some c) :
    (BlockStore.ofCheckpoints checkpointArray earliestKeyTime).blocks.get c.blockHash =
      some c := by
  have hfold : ∀ (rows : List (Checkpoint × ℕ)) (s : BlockStore),
      (rows.map (fun row => row.1.hash)).Nodup →
      (∀ b, s.lastBlock = some b → s.blocks.get b.blockHash = some b ∧
        b.blockHash ∉ rows.map (fun row => row.1.hash)) →
      ∀ b, (rows.foldl (BlockStore.addCheckpoint earliestKeyTime) s).lastBlock = some b →
        (rows.foldl (BlockStore.addCheckpoint earliestKeyTime) s).blocks.get b.blockHash =
          some b := by
    intro rows
    induction rows with
    | nil =>
        intro s _ hs b hb
        exact (hs b hb).1
    | cons row rows ih =>
        intro s hnodup hs b hb
        rw [List.map_cons, List.nodup_cons] at hnodup
        refine ih _ hnodup.2 ?_ b hb
        intro b hb
        rw [BlockStore.addCheckpoint] at hb
        dsimp only at hb
        change BlockSet.get (KeyedList.add (·.blockHash) s.blocks (row.1.block row.2))
          b.blockHash = some b ∧ _
        rw [BlockSet.get_add]
        split at hb
        · cases hb
          exact ⟨if_pos rfl, hnodup.1⟩
        · obtain ⟨hget, hnot⟩ := hs b hb
          rw [List.map_cons, List.mem_cons, not_or] at hnot
          rw [if_neg (fun heq => hnot.1 heq.symm)]
          exact ⟨hget, hnot.2⟩
  refine hfold _ _ ?_ ?_ c h
  · have hrows : checkpointArray.zipIdx.map (fun row => row.1.hash) =
        checkpointArray.map Checkpoint.hash := by
      change checkpointArray.zipIdx.map (Checkpoint.hash ∘ Prod.fst) = _
      rw [← List.map_map, List.zipIdx_map_fst]
    rw [hrows]
    exact ht.nodup
  · intro b hb
    cases hb

/-- Without a transition block nothing but the orphans is restored. -/
theorem restore_of_no_transition
    {s s' : BlockStore}
    (hnone : ∀ b ∈ blocks, b.height % blockDifficultyInterval ≠ 0)
    (h : s.restore blocks = .ok s') :
    s'.blocks = s.blocks ∧ s'.lastBlock = s.lastBlock := by
  obtain ⟨⟨s₁, block⟩, hfold, hloop⟩ := bind_eq_ok.mp h
  have hinv : s₁.blocks = s.blocks ∧ s₁.lastBlock = s.lastBlock ∧ block = none := by
    refine foldlM_invariant
      (I := fun p : BlockStore × Option ChainBlock => p.1.blocks = s.blocks ∧
        p.1.lastBlock = s.lastBlock ∧ p.2 = none) ?_ ⟨rfl, rfl, rfl⟩ hfold
    rintro ⟨s₂, t⟩ b hb ⟨s₃, t'⟩ ⟨hblocks, hlast, ht⟩ hstep
    rw [BlockStore.restoreBlock] at hstep
    split at hstep
    · cases hstep
    · cases hstep
      refine ⟨hblocks, hlast, ?_⟩
      have hno : BlockStore.isLaterTransition t b = false := by
        simp [BlockStore.isLaterTransition, hnone b hb]
      simp only [hno]
      exact ht
  obtain ⟨hblocks, hlast, rfl⟩ := hinv
  cases hloop
  exact ⟨hblocks, hlast⟩

theorem connect_store
    {peers : List BRPeer}
    (h : m.connect peers = .ok m') :
    m'.toBlockStore = m.toBlockStore := by
  obtain ⟨m₁, h₁, hret⟩ := bind_eq_ok.mp h
  obtain ⟨height, rfl⟩ := startSync_ok h₁
  cases hret
  split <;> split <;> rfl

theorem rescan_store
    {peers : List BRPeer} {row : Checkpoint}
    (hconn : m.isConnected = true)
    (hrow : rescanCheckpoint env.checkpointArray m.earliestKeyTime = some row)
    (h : m.rescan env peers = .ok m') :
    m'.toBlockStore =
      { m.toBlockStore with lastBlock := m.blocks.get row.hash } := by
  rw [rescan, if_pos hconn, hrow] at h
  exact connect_store h

end BRPeerManager

theorem SyncStart.reloaded
    {tree : BlockTree} {m m' : BRPeerManager} {c : ChainBlock}
    (hfits : tree.Fits m.toBlockStore)
    (hlast : m.lastBlock = some c)
    (hstored : m.blocks.get c.blockHash = some c)
    {env : Env} {peer : BRPeer}
    (h : m.loadBloomFilter env peer = .ok m') :
    SyncStart tree m' c := by
  obtain ⟨hre, hnil, -⟩ := BRPeerManager.loadBloomFilter_ok h
  refine ⟨hfits.cleared hre.store, ?_, ?_, hnil⟩
  · rw [hre.store.lastBlock]
    exact hlast
  · rw [hre.store.blocks]
    exact hstored

theorem Started.syncStart
    {env : Env} {tree : BlockTree} {m : BRPeerManager} {c : ChainBlock}
    (ht : tree.Tabled env.checkpointArray)
    (h : Started env tree m c) :
    SyncStart tree m c := by
  cases h with
  | new hblocks hnew hload hlast =>
      have hfits := BRPeerManager.fits_new ht (fun b hb => (hblocks b hb).1) hnew
      obtain ⟨s, hs, rfl⟩ := BRPeerManager.new_ok hnew
      obtain ⟨hsb, hsl⟩ :=
        BRPeerManager.restore_of_no_transition (fun b hb => (hblocks b hb).2) hs
      refine SyncStart.reloaded hfits hlast ?_ hload
      have hlast' : s.lastBlock = some c := hlast
      rw [hsl] at hlast'
      change s.blocks.get c.blockHash = some c
      rw [hsb]
      exact BRPeerManager.ofCheckpoints_stored ht hlast'
  | @rescan m₀ m₁ peers peer row hfits hconn hrow hrescan hload hlast =>
      have hstore := BRPeerManager.rescan_store hconn hrow hrescan
      have hget : m₀.blocks.get row.hash = some c := by
        have hlast' : m₁.toBlockStore.lastBlock = some c := hlast
        rw [hstore] at hlast'
        exact hlast'
      have hfits₁ : tree.Fits m₁.toBlockStore := by
        rw [hstore]
        refine ⟨hfits.blocks, hfits.orphans, ?_⟩
        intro b hb
        exact hfits.blocks _ _ hb
      refine SyncStart.reloaded hfits₁ hlast ?_ hload
      rw [hstore, BlockSet.get_hash hget]
      exact hget

/-! ## Blocks in order -/

namespace BRPeerManager

variable {env : Env} {m m' : BRPeerManager} {peer : BRPeer} {tree : BlockTree}
variable {block last b : ChainBlock} {es : List ManagerEvent} {next : Option ChainBlock}

/-- Verification rejects the block for a missing previous difficulty transition. -/
def MissesTransition (m : BRPeerManager) (block : ChainBlock) : Prop :=
  ∃ s, m.toBlockStore.passTransition (m.placeBlock block) = .ok (s, false)

/-- This is so exactly where a look back finds no block. -/
theorem missesTransition_iff :
    m.MissesTransition block ↔
      BlockStore.atTransition (m.placeBlock block) ∧
        m.toBlockStore.previousTransition (m.placeBlock block) = none := by
  rw [MissesTransition, BlockStore.passTransition]
  by_cases htrans : BlockStore.atTransition (m.placeBlock block)
  · rw [if_pos htrans]
    cases hp : m.toBlockStore.previousTransition (m.placeBlock block) with
    | none =>
        exact ⟨fun _ => ⟨htrans, rfl⟩, fun _ => ⟨_, rfl⟩⟩
    | some t =>
        constructor
        · rintro ⟨s, h⟩
          obtain ⟨s₁, -, hret⟩ := bind_eq_ok.mp h
          cases hret
        · rintro ⟨-, h⟩
          cases h
  · rw [if_neg htrans]
    constructor
    · rintro ⟨s, h⟩
      cases h
    · rintro ⟨h, -⟩
      exact absurd h htrans

/-- A block behind `lastBlock` has been verified and is the new `lastBlock`. -/
structure Extended (m m' : BRPeerManager) (last b : ChainBlock) : Prop where
  lastBlock : m'.lastBlock = some b
  orphans : m'.orphans = []
  verified : ∃ s, m.toBlockStore.verifyBlock b last = .ok (s, true) ∧
    m'.blocks = KeyedList.add (·.blockHash) s.blocks b

/-- Without orphans, a block behind `lastBlock` extends the chain or leaves
`lastBlock` as it is. -/
theorem relayStep_behind_last
    (hm : SyncStart tree m last)
    (hlink : block.prevBlock = last.blockHash)
    (h : m.relayStep env peer block = .ok (m', es, next)) :
    next = none ∧ (m'.lastBlock = some last ∨ m.Extended m' last (m.placeBlock block)) := by
  obtain ⟨r, hr, hfin⟩ := relayStep_ok h
  have hprev : m.blocks.get (m.placeBlock block).prevBlock = some last := by
    rw [placeBlock_prevBlock, hlink]
    exact hm.stored
  -- the branches that free the block
  have hfreed : r.block = none → r.manager.lastBlock = some last →
      next = none ∧ (m'.lastBlock = some last ∨
        m.Extended m' last (m.placeBlock block)) := by
    intro hnone hlast
    rcases finish_ok hfin with ⟨-, rfl, -, rfl⟩ | ⟨b, saved, hb, -⟩
    · exact ⟨rfl, Or.inl hlast⟩
    · rw [hnone] at hb
      cases hb
  cases hr with
  | header _ =>
      exact hfreed rfl hm.lastBlock
  | waiting _ _ =>
      exact hfreed rfl hm.lastBlock
  | oldOrphan _ _ hnone _ =>
      rw [hprev] at hnone
      cases hnone
  | orphan _ _ hnone _ =>
      rw [hprev] at hnone
      cases hnone
  | invalid _ _ _ hverify =>
      refine hfreed rfl ?_
      exact (BlockStore.verifyBlock_ok hverify).1.lastBlock.trans hm.lastBlock
  | @valid prev s r _ _ hp hverify hvalid =>
      rw [hprev] at hp
      cases hp
      have hf := (BlockStore.verifyBlock_ok hverify).1
      have hslast : s.lastBlock = some last := hf.lastBlock.trans hm.lastBlock
      have hcontra : ∀ {x : ChainBlock}, s.lastBlock = some x →
          ¬ (m.placeBlock block).prevBlock ≠ x.blockHash := by
        intro x hx hne
        rw [hslast] at hx
        cases hx
        rw [placeBlock_prevBlock] at hne
        exact hne hlink
      cases hvalid with
      | extended _ _ hext =>
          obtain ⟨m₁, m₂, c, hconf, rfl, hre, hblock, -⟩ := extendChain_ok hext
          have hstore := (confirmTxs_ok hconf).1.store
          have horphans : r.manager.orphans = [] := by
            rcases hre.store.orphans with ⟨ho, -⟩ | ⟨hnil, -⟩
            · rw [ho]
              change m₁.toBlockStore.orphans = []
              rw [hstore]
              exact hf.orphans.trans hm.orphans
            · exact hnil
          have hlast : r.manager.lastBlock = some (m.placeBlock block) := by
            rw [hre.store.lastBlock]
            change m₁.toBlockStore.lastBlock = _
            rw [hstore]
          have hblocks : r.manager.blocks =
              KeyedList.add (·.blockHash) s.blocks (m.placeBlock block) := by
            rw [hre.store.blocks]
            change m₁.toBlockStore.blocks = _
            rw [hstore]
          rcases finish_ok hfin with ⟨hnone, -⟩ | ⟨b, saved, hb, hrel, -, -⟩
          · rw [hblock] at hnone
            cases hnone
          · rcases releaseNext_ok hrel with ⟨-, rfl, rfl⟩ | ⟨-, rfl, rfl⟩
            · exact ⟨rfl, Or.inr ⟨hlast, horphans, s, hverify, hblocks⟩⟩
            · rw [horphans]
              exact ⟨rfl, Or.inr ⟨hlast, rfl, s, hverify, hblocks⟩⟩
      | existing hl hne _ _ =>
          exact absurd hne (hcontra hl)
      | postponed hl hne _ _ _ =>
          exact absurd hne (hcontra hl)
      | oldFork hl hne _ _ =>
          exact absurd hne (hcontra hl)
      | lowFork hl hne _ _ _ =>
          exact absurd hne (hcontra hl)
      | highFork hl hne _ _ _ _ =>
          exact absurd hne (hcontra hl)

/-- The same for the whole call, where the block has become `lastBlock`. -/
theorem relayedBlock_behind_last
    (hm : SyncStart tree m last)
    (hnames : tree.Names block)
    (hlink : block.prevBlock = last.blockHash)
    (h : m.relayedBlock env peer block = .ok (m', es))
    (hlast : m'.lastBlock = some b)
    (hb : b.blockHash = block.blockHash) :
    b = m.placeBlock block ∧ m.Extended m' last b ∧ SyncStart tree m' b := by
  have hprev : m.blocks.get block.prevBlock = some last := by
    rw [hlink]
    exact hm.stored
  have hholds := holds_placeBlock hm.fits.stores hnames hprev
  obtain ⟨⟨m₁, es₁, next⟩, hs, h⟩ := bind_eq_ok.mp h
  obtain ⟨rfl, hcase⟩ := relayStep_behind_last hm hlink hs
  cases h
  rcases hcase with hold | hext
  · -- the old `lastBlock` has another hash
    rw [hold] at hlast
    cases hlast
    have hheight := placeBlock_height hprev
    rw [hholds.height, placeBlock_blockHash, ← hb,
      (hm.fits.lastBlock last hm.lastBlock).height] at hheight
    omega
  · obtain rfl : m.placeBlock block = b := by
      rw [hext.lastBlock] at hlast
      exact Option.some.inj hlast
    refine ⟨rfl, hext, (fits_relayStep hm.fits hnames hs).1, hext.lastBlock, ?_, hext.orphans⟩
    obtain ⟨s, -, hblocks⟩ := hext.verified
    rw [hblocks, BlockSet.get_add, if_pos rfl]

/-- A block that has been added does not change the walks from lower ones. -/
theorem ancestor_add_above
    {blocks : BlockSet} {a : ChainBlock}
    (hblocks : ∀ h b, blocks.get h = some b → tree.Holds b)
    (hb : tree.Holds b)
    (ha : tree.Holds a)
    (hlt : a.height < b.height) (n : ℕ) :
    ancestor (BlockSet.parent (KeyedList.add (·.blockHash) blocks b)) n a =
      ancestor blocks.parent n a := by
  refine ancestor_congr (Q := fun a => tree.Holds a ∧ a.height < b.height) ?_ ?_ ⟨ha, hlt⟩ n
  · rintro x ⟨hx, hlow⟩
    rw [BlockSet.parent, BlockSet.get_add, if_neg]
    · rfl
    · intro heq
      have := hx.height_prev hb heq.symm
      omega
  · rintro x y ⟨hx, hlow⟩ hup
    have := (BlockTree.ranked hblocks).rank_up hx hup
    exact ⟨hblocks _ _ hup, by omega⟩

/-- The walk from a block that has been added. -/
theorem back_add
    {blocks : BlockSet}
    (hblocks : ∀ h b, blocks.get h = some b → tree.Holds b)
    (hb : tree.Holds b)
    (hlast : blocks.get b.prevBlock = some last) (n : ℕ) :
    BlockSet.back (KeyedList.add (·.blockHash) blocks b) (n + 1) b = blocks.back n last := by
  have hl := hblocks _ _ hlast
  have hlink := (BlockSet.get_hash hlast).symm
  have hheight := hb.height_prev hl hlink
  have hne : b.blockHash ≠ b.prevBlock := by
    intro heq
    have := hb.height_prev hb heq.symm
    omega
  rw [BlockSet.back_eq_ancestor, BlockSet.back_eq_ancestor, ancestor_succ, BlockSet.parent,
    BlockSet.get_add, if_neg hne, hlast]
  exact ancestor_add_above hblocks hb hl (by omega) n

end BRPeerManager

/-- The blocks of a list are relayed in order, and each is accepted: it is
linked to `lastBlock` and becomes `lastBlock`. -/
inductive Synced (tree : BlockTree) : BRPeerManager → List Delivery → BRPeerManager → Prop
  | nil (m : BRPeerManager) : Synced tree m [] m
  | cons {m m₁ m' : BRPeerManager} {d : Delivery} {ds : List Delivery}
      {last b : ChainBlock} {es : List ManagerEvent} :
      m.lastBlock = some last → d.block.prevBlock = last.blockHash → tree.Names d.block →
      m.relayedBlock d.env d.peer d.block = .ok (m₁, es) →
      m₁.lastBlock = some b → b.blockHash = d.block.blockHash →
      Synced tree m₁ ds m' → Synced tree m (d :: ds) m'

/-! ## The look back -/

/-- What is behind the last block after `k` blocks, below `DGW_START_BLOCK`: the
way back to the last multiple of the interval, if one has been passed, and
otherwise what was behind the block the download started from. -/
structure LookBack (tree : BlockTree) (m₀ : BRPeerManager) (c : ChainBlock) (k : ℕ)
    (m : BRPeerManager) (last : ChainBlock) : Prop where
  start : SyncStart tree m last
  height : last.height = c.height + k
  passed : last.height < dgwStartBlock → last.height % blockDifficultyInterval ≤ k →
    (m.blocks.back (last.height % blockDifficultyInterval) last).isSome
  ahead : last.height < dgwStartBlock → k < last.height % blockDifficultyInterval →
    ∀ i, m.blocks.back (k + i) last = m₀.blocks.back i c

section LookBack

variable {tree : BlockTree} {m₀ m m' : BRPeerManager} {c last b : ChainBlock} {k : ℕ}

theorem LookBack.start'
    (h : SyncStart tree m c) :
    LookBack tree m c 0 m c where
  start := h
  height := rfl
  passed := by
    intro _ hle
    rw [Nat.le_zero.mp hle]
    rfl
  ahead := by
    intro _ _ i
    rw [Nat.zero_add]

/-- One more block. -/
theorem LookBack.extend
    (hk : LookBack tree m₀ c k m last)
    (hlink : b.prevBlock = last.blockHash)
    (hb : tree.Holds b)
    (hext : m.Extended m' last b)
    (hstart : SyncStart tree m' b) :
    LookBack tree m₀ c (k + 1) m' b := by
  obtain ⟨s, hverify, hblocks⟩ := hext.verified
  have hf := (BlockStore.verifyBlock_ok hverify).1
  have hl := hk.start.fits.lastBlock last hk.start.lastBlock
  have hheight : b.height = last.height + 1 := hb.height_prev hl hlink
  have hk' := hk.height
  -- below the start of the other rule a block between two multiples frees nothing
  have hback : b.height < dgwStartBlock → b.height % blockDifficultyInterval ≠ 0 →
      ∀ n, m'.blocks.back (n + 1) b = m.blocks.back n last := by
    intro hlow hno n
    have hsame : ∀ h, s.blocks.get h = m.blocks.get h := by
      intro h
      rcases hf.get h with heq | ⟨-, d, -, htrans, -⟩
      · exact heq
      · rw [BlockStore.atTransition, transitionInterval, if_pos hlow] at htrans
        exact absurd htrans hno
    have hsblocks : ∀ h d, s.blocks.get h = some d → tree.Holds d := by
      intro h d hd
      exact hk.start.fits.blocks h d (hf.get_of_some hd)
    have hget : s.blocks.get b.prevBlock = some last := by
      rw [hsame, hlink]
      exact hk.start.stored
    have hparent : s.blocks.parent = m.blocks.parent := by
      funext d
      exact hsame d.prevBlock
    rw [hblocks, BRPeerManager.back_add hsblocks hb hget, BlockSet.back_eq_ancestor,
      BlockSet.back_eq_ancestor, hparent]
  rw [blockDifficultyInterval] at hback
  have hpassed := hk.passed
  have hahead := hk.ahead
  rw [blockDifficultyInterval] at hpassed hahead
  refine ⟨hstart, by omega, ?_, ?_⟩
  · intro hlow hle
    rw [blockDifficultyInterval] at hle ⊢
    by_cases hzero : b.height % 2016 = 0
    · rw [hzero]
      rfl
    · have hmod : b.height % 2016 = last.height % 2016 + 1 := by omega
      rw [hmod, hback hlow hzero]
      exact hpassed (by omega) (by omega)
  · intro hlow hlt i
    rw [blockDifficultyInterval] at hlt
    have hadd : k + 1 + i = k + i + 1 := by omega
    rw [hadd, hback hlow (by omega)]
    exact hahead (by omega) (by omega) i

/-- What the look back of the next block finds. -/
theorem LookBack.misses_iff
    {block : ChainBlock}
    (hk : LookBack tree m₀ c k m last)
    (hlink : block.prevBlock = last.blockHash) :
    ¬ m.MissesTransition block ↔
      (c.height + k + 1) % blockDifficultyInterval ≠ 0 ∨ dgwStartBlock ≤ c.height + k + 1 ∨
        blockDifficultyInterval ≤ k + 1 ∨
        (m₀.blocks.back (blockDifficultyInterval - (k + 1)) c).isSome := by
  have hprev : m.blocks.get block.prevBlock = some last := by
    rw [hlink]
    exact hk.start.stored
  have hheight := BRPeerManager.placeBlock_height hprev
  have hk' := hk.height
  have hback : ∀ n, m.blocks.back (n + 1) (m.placeBlock block) = m.blocks.back n last := by
    intro n
    rw [BlockSet.back, BRPeerManager.placeBlock_prevBlock, hprev]
    rfl
  rw [BRPeerManager.missesTransition_iff, BlockStore.atTransition,
    BlockStore.previousTransition, hheight, transitionInterval]
  by_cases hlow : last.height + 1 < dgwStartBlock
  · rw [if_pos hlow, blockDifficultyInterval, hback 2015]
    have hpassed := hk.passed
    have hahead := hk.ahead
    rw [blockDifficultyInterval] at hpassed hahead
    by_cases hmod : (last.height + 1) % 2016 = 0
    · have h15 : last.height % 2016 = 2015 := by omega
      rw [h15] at hpassed hahead
      by_cases hfar : 2015 ≤ k
      · -- the block an interval before has been relayed
        have hsome := hpassed (by omega) hfar
        constructor
        · intro _
          exact Or.inr (Or.inr (Or.inl (by omega)))
        · rintro _ ⟨-, hnone⟩
          rw [hnone] at hsome
          cases hsome
      · have hsame := hahead (by omega) (by omega) (2016 - (k + 1))
        have hsum : k + (2016 - (k + 1)) = 2015 := by omega
        rw [hsum] at hsame
        rw [hsame]
        constructor
        · intro h
          refine Or.inr (Or.inr (Or.inr ?_))
          rw [Option.isSome_iff_ne_none]
          exact fun hnone => h ⟨hmod, hnone⟩
        · rintro (h | h | h | h) ⟨-, hnone⟩
          · omega
          · omega
          · omega
          · rw [hnone] at h
            cases h
    · constructor
      · intro _
        exact Or.inl (by omega)
      · rintro _ ⟨h, -⟩
        exact hmod h
  · rw [if_neg hlow]
    constructor
    · intro _
      exact Or.inr (Or.inl (by omega))
    · rintro _ ⟨-, hnone⟩
      have hone : m.blocks.back (0 + 1) (m.placeBlock block) = none := hnone
      rw [hback 0] at hone
      cases hone

theorem LookBack.synced
    {chain : List Delivery}
    (hk : LookBack tree m₀ c k m last)
    (h : Synced tree m chain m') :
    ∃ b, LookBack tree m₀ c (k + chain.length) m' b := by
  induction h generalizing k last with
  | nil m =>
      exact ⟨last, hk⟩
  | @cons m m₁ m' d ds l b es hlast hlink hnames hrelay hb hhash _ ih =>
      obtain rfl : last = l := by
        rw [hk.start.lastBlock] at hlast
        exact Option.some.inj hlast
      obtain ⟨hplace, hext, hstart⟩ :=
        BRPeerManager.relayedBlock_behind_last hk.start hnames hlink hrelay hb hhash
      have hholds : tree.Holds b := hstart.fits.lastBlock b hb
      have hlink' : b.prevBlock = last.blockHash := by
        rw [hplace, BRPeerManager.placeBlock_prevBlock, hlink]
      obtain ⟨b', hb'⟩ := ih (hk.extend hlink' hholds hext hstart)
      refine ⟨b', ?_⟩
      rw [List.length_cons]
      have hadd : k + (ds.length + 1) = k + 1 + ds.length := by omega
      rw [hadd]
      exact hb'

end LookBack

/--
**Which blocks of a download find the previous transition.**  Behind a checkpoint
taken as `lastBlock` by `BRPeerManagerNew` or `BRPeerManagerRescan` and any
blocks relayed in order, the next block is not rejected for a missing previous
difficulty transition if and only if it is not at a multiple of the interval, is
at `DGW_START_BLOCK` or above, is at least an interval away from the checkpoint,
or the checkpoint has a stored ancestor an interval before it.
-/
theorem synced_misses_iff
    {env : Env} {tree : BlockTree} {m₀ m : BRPeerManager} {c last block : ChainBlock}
    {chain : List Delivery}
    (ht : tree.Tabled env.checkpointArray)
    (hstart : Started env tree m₀ c)
    (hsync : Synced tree m₀ chain m)
    (hlast : m.lastBlock = some last)
    (hlink : block.prevBlock = last.blockHash) :
    ¬ m.MissesTransition block ↔
      (c.height + chain.length + 1) % blockDifficultyInterval ≠ 0 ∨
        dgwStartBlock ≤ c.height + chain.length + 1 ∨
        blockDifficultyInterval ≤ chain.length + 1 ∨
        (m₀.blocks.back (blockDifficultyInterval - (chain.length + 1)) c).isSome := by
  obtain ⟨b, hb⟩ := (LookBack.start' (hstart.syncStart ht)).synced hsync
  rw [Nat.zero_add] at hb
  obtain rfl : b = last := by
    rw [hb.start.lastBlock] at hlast
    exact Option.some.inj hlast
  exact hb.misses_iff hlink

/-! ## A download from the checkpoint at height 50000 -/

namespace BRPeerManager

variable {env : Env} {m : BRPeerManager} {peer : BRPeer} {block last : ChainBlock}

/-- A block without wallet transactions between two multiples of the interval,
behind `lastBlock` and far from the estimated height. -/
structure Plain (m : BRPeerManager) (block last : ChainBlock) : Prop where
  lastBlock : m.lastBlock = some last
  stored : m.blocks.get block.prevBlock = some last
  link : block.prevBlock = last.blockHash
  orphans : m.orphans = []
  bloomFilter : m.bloomFilter ≠ none
  full : block.totalTx ≠ 0
  txHashes : block.txHashes = []
  between : (last.height + 1) % blockDifficultyInterval ≠ 0
  low : last.height + 1 < dgwStartBlock
  checkpoint : m.checkpoints.getHeight (last.height + 1) = none
  estimated : last.height + 1 ≠ m.estimatedHeight

/-- The manager after such a block. -/
def extendedBy (m : BRPeerManager) (peer : BRPeer) (block : ChainBlock) : BRPeerManager :=
  { m with
    blocks := KeyedList.add (·.blockHash) m.blocks (m.placeBlock block)
    lastBlock := some (m.placeBlock block)
    connectFailureCount :=
      if (m.placeBlock block).height < m.estimatedHeight ∧ some peer = m.downloadPeer then 0
      else m.connectFailureCount
    estimatedHeight := max m.estimatedHeight (m.placeBlock block).height
    orphans := [] }

theorem Plain.relayedBlock
    (h : m.Plain block last) :
    m.relayedBlock env peer block = .ok (m.extendedBy peer block, []) := by
  have hheight := placeBlock_height h.stored
  have hfull : (m.placeBlock block).totalTx ≠ 0 := by
    rw [placeBlock, h.stored]
    exact h.full
  have hlow := h.low
  rw [dgwStartBlock] at hlow
  have hverify : m.toBlockStore.verifyBlock (m.placeBlock block) last =
      .ok (m.toBlockStore, true) := by
    have htrans : ¬ BlockStore.atTransition (m.placeBlock block) := by
      rw [BlockStore.atTransition, transitionInterval, hheight, if_pos h.low]
      exact h.between
    have hlinked : DifficultyCall.Linked ⟨m.placeBlock block, last, m.blocks⟩ :=
      ⟨by simpa using h.link, hheight⟩
    have hcheck : m.toBlockStore.checkpointOk (m.placeBlock block) = true := by
      rw [BlockStore.checkpointOk, hheight, h.checkpoint]
      rfl
    have hdiff : DifficultyCall.verify ⟨m.placeBlock block, last, m.blocks⟩ m.pastCount =
        .ok (true, m.pastCount) := by
      rw [DifficultyCall.verify, if_neg (by
        change ¬ dgwStartBlock ≤ (m.placeBlock block).height
        rw [hheight, dgwStartBlock]
        omega), decide_eq_true hlinked]
      rfl
    rw [BlockStore.verifyBlock, BlockStore.passTransition, if_neg htrans, pure_bind]
    dsimp only
    rw [if_pos rfl, hdiff]
    change Except.ok (m.toBlockStore, true && m.toBlockStore.checkpointOk (m.placeBlock block)) = _
    rw [hcheck]
    rfl
  have htrack : m.trackRate env peer (m.placeBlock block) = .ok () := by
    rw [trackRate, BRPeerManager.last, h.lastBlock]
    split <;> rfl
  have hheader : (m.placeBlock block).isRecentHeader m.earliestKeyTime = false := by
    simp [ChainBlock.isRecentHeader, hfull]
  have hne : (m.placeBlock block).height ≠ m.estimatedHeight := by
    rw [hheight]
    exact h.estimated
  have hmod : ¬ (m.placeBlock block).height % blockDifficultyInterval = 0 := by
    rw [hheight]
    exact h.between
  have hknown : (m.placeBlock block).height ≠ blockUnknownHeight := by
    rw [hheight, blockUnknownHeight]
    omega
  have hlinked : (m.placeBlock block).prevBlock = last.blockHash := by
    rw [placeBlock_prevBlock]
    exact h.link
  have hget : m.blocks.get (m.placeBlock block).prevBlock = some last := by
    rw [placeBlock_prevBlock]
    exact h.stored
  have hvalid : m.relayLinked env peer (m.placeBlock block) last =
      m.extendChain env peer (m.placeBlock block) last := by
    rw [relayLinked, hverify, ok_bind]
    change m.relayValid env peer (m.placeBlock block) last = _
    rw [relayValid, BRPeerManager.last, h.lastBlock]
    exact if_pos hlinked
  have hconf : BRPeerManager.confirmTxs env
      { m with
        blocks := KeyedList.add (·.blockHash) m.blocks (m.placeBlock block)
        lastBlock := some (m.placeBlock block) } (m.placeBlock block) last =
      .ok ({ m with
        blocks := KeyedList.add (·.blockHash) m.blocks (m.placeBlock block)
        lastBlock := some (m.placeBlock block) }, []) := by
    rw [confirmTxs, placeBlock_txHashes, if_pos h.txHashes]
    rfl
  have hhandle : m.handleBlock env peer (m.placeBlock block) =
      m.extendChain env peer (m.placeBlock block) last := by
    rw [handleBlock, hheader, if_neg (by simp), if_neg h.bloomFilter, hget]
    exact hvalid
  have hstep : m.relayStep env peer block = .ok (m.extendedBy peer block, [], none) := by
    rw [relayStep, htrack, ok_bind, hhandle, extendChain_eq hconf hne, if_neg hmod, ok_bind,
      finish_eq rfl rfl, releaseNext, if_neg hknown]
    split
    · rename_i hsync
      rw [extendedBy, if_pos hsync, h.orphans]
      rfl
    · rename_i hsync
      rw [extendedBy, if_neg hsync, h.orphans]
      rfl
  rw [BRPeerManager.relayedBlock, relayLoop, hstep]
  rfl

end BRPeerManager

section Counterexample

/-- The hash of the checkpoint at height 50000. -/
def midHash : UInt256 :=
  0xd3cdc4bd5bdafa908fae273f5cca9fda527b49e3fe727c6fe9122f28f2afbf6d

/-- The hash of the block that is a number of blocks behind this checkpoint. -/
def midBlockHash (i : ℕ) : UInt256 :=
  if i = 0 then midHash else BitVec.ofNat 256 i

/-- A block behind this checkpoint, as a peer sends it. -/
def midBlock (i : ℕ) : ChainBlock where
  addr := 10 + i
  blockHash := midBlockHash (i + 1)
  prevBlock := midBlockHash i
  timestamp := 1505605851
  target := 0x1b0f6cc9
  totalTx := 1
  height := blockUnknownHeight

def midDelivery (i : ℕ) : Delivery :=
  ⟨quietEnv mainCheckpoints, samplePeer, midBlock i⟩

/-- The tree of the checkpoints and of 400 blocks behind the last of them. -/
def midTree : BlockTree where
  parent h := if 0 < h.toNat ∧ h.toNat ≤ 400 then midBlockHash (h.toNat - 1) else 0
  height h :=
    if h.toNat ≤ 400 then 50000 + h.toNat
    else ((mainCheckpoints.find? (fun c => c.hash = h)).map Checkpoint.height).getD 0
  height_eq := by
    intro h hne
    by_cases hlow : 0 < h.toNat ∧ h.toNat ≤ 400
    · rw [if_pos hlow, if_pos hlow.2, midBlockHash]
      by_cases hone : h.toNat - 1 = 0
      · have hmid : (if midHash.toNat ≤ 400 then 50000 + midHash.toNat
            else ((mainCheckpoints.find? (fun c => c.hash = midHash)).map
              Checkpoint.height).getD 0) = 50000 := by rfl
        rw [if_pos hone, hmid]
        omega
      · rw [if_neg hone, BitVec.toNat_ofNat, Nat.mod_eq_of_lt (by omega), if_pos (by omega)]
        omega
    · rw [if_neg hlow] at hne
      exact absurd rfl hne

theorem tabled_midTree :
    midTree.Tabled (quietEnv mainCheckpoints).checkpointArray where
  hash := by decide
  height := by decide
  nodup := by decide

theorem midBlockHash_toNat
    {i : ℕ}
    (hi : i < 400) :
    (midBlockHash (i + 1)).toNat = i + 1 := by
  rw [midBlockHash, if_neg (by omega), BitVec.toNat_ofNat, Nat.mod_eq_of_lt (by omega)]

theorem names_midBlock
    {i : ℕ}
    (hi : i < 400) :
    midTree.Names (midBlock i) where
  hash := by
    intro h
    have htoNat := midBlockHash_toNat hi
    change midBlockHash (i + 1) = 0 at h
    rw [h] at htoNat
    cases htoNat
  parent := by
    change midBlockHash i = if _ then _ else _
    rw [show (midBlock i).blockHash = midBlockHash (i + 1) from rfl, midBlockHash_toNat hi,
      if_pos (by omega)]
    rfl

/-- The download after a number of blocks. -/
structure MidState (k : ℕ) (m : BRPeerManager) (last : ChainBlock) : Prop where
  start : SyncStart midTree m last
  hash : last.blockHash = midBlockHash k
  height : last.height = 50000 + k
  bloomFilter : m.bloomFilter ≠ none
  checkpoints : ∀ h, 50000 < h → m.checkpoints.getHeight h = none
  estimated : m.estimatedHeight ≤ 50000 + k

theorem MidState.step
    {k : ℕ} {m : BRPeerManager} {last : ChainBlock}
    (h : MidState k m last)
    (hk : k < 399) :
    ∃ m' b, m.relayedBlock (midDelivery k).env (midDelivery k).peer (midBlock k) =
        .ok (m', []) ∧
      b.blockHash = (midBlock k).blockHash ∧ MidState (k + 1) m' b := by
  have hlink : (midBlock k).prevBlock = last.blockHash := h.hash.symm
  have hheight := h.height
  have hest := h.estimated
  have hplain : m.Plain (midBlock k) last := by
    refine ⟨h.start.lastBlock, ?_, hlink, h.start.orphans, h.bloomFilter, ?_, rfl, ?_, ?_, ?_, ?_⟩
    · rw [hlink]
      exact h.start.stored
    · intro hzero
      cases hzero
    · rw [blockDifficultyInterval]
      omega
    · rw [dgwStartBlock]
      omega
    · exact h.checkpoints _ (by omega)
    · omega
  have hrelay : m.relayedBlock (midDelivery k).env (midDelivery k).peer (midBlock k) =
      .ok (m.extendedBy (midDelivery k).peer (midBlock k), []) :=
    hplain.relayedBlock
  obtain ⟨-, -, hstart⟩ := BRPeerManager.relayedBlock_behind_last h.start
    (names_midBlock (by omega)) hlink hrelay rfl (BRPeerManager.placeBlock_blockHash _ _)
  have hplace := BRPeerManager.placeBlock_height hplain.stored
  refine ⟨_, _, hrelay, BRPeerManager.placeBlock_blockHash _ _, hstart,
    BRPeerManager.placeBlock_blockHash _ _, by omega, h.bloomFilter, h.checkpoints, ?_⟩
  change max m.estimatedHeight (m.placeBlock (midBlock k)).height ≤ _
  omega

theorem MidState.run
    {j k : ℕ} {m : BRPeerManager} {last : ChainBlock}
    (h : MidState k m last)
    (hjk : k + j = 399) :
    ∃ m' b, Synced midTree m ((List.range' k j).map midDelivery) m' ∧ MidState 399 m' b := by
  induction j generalizing k m last with
  | zero =>
      obtain rfl : k = 399 := by omega
      exact ⟨m, last, .nil m, h⟩
  | succ j ih =>
      obtain ⟨m₁, b, hrelay, hhash, hb⟩ := h.step (by omega)
      obtain ⟨m', b', hsync, hend⟩ := ih hb (by omega)
      refine ⟨m', b', ?_, hend⟩
      rw [List.range'_succ, List.map_cons]
      exact .cons h.start.lastBlock h.hash.symm (names_midBlock (by omega)) hrelay
        hb.start.lastBlock hhash hsync

/-- A manager that starts from the checkpoint at height 50000. -/
theorem exists_midStart :
    ∃ m c, Started (quietEnv mainCheckpoints) midTree m c ∧ MidState 0 m c ∧
      c.prevBlock = 0 := by
  have hnew : ∃ m, BRPeerManager.new (quietEnv mainCheckpoints) (.empty bareKey) 1600000000 [] =
      .ok m ∧ m.lastBlock = some ((mainCheckpoints.getD 3 ⟨0, 0, 0, 0⟩).block 3) ∧
      (∀ b ∈ m.checkpoints, b.height ≤ 50000) ∧ m.estimatedHeight = 0 ∧
      ∃ m', m.loadBloomFilter (quietEnv mainCheckpoints) samplePeer = .ok m' :=
    ⟨_, rfl, rfl, by decide, rfl, _, rfl⟩
  obtain ⟨m, hnew, hlast, hcheck, hest, m', hload⟩ := hnew
  have hstarted : Started (quietEnv mainCheckpoints) midTree m'
      ((mainCheckpoints.getD 3 ⟨0, 0, 0, 0⟩).block 3) :=
    .new (by simp) hnew hload hlast
  obtain ⟨hre, -, hfilter⟩ := BRPeerManager.loadBloomFilter_ok hload
  refine ⟨m', _, hstarted, ⟨hstarted.syncStart tabled_midTree, rfl, rfl, hfilter, ?_, ?_⟩, rfl⟩
  · intro h hh
    rw [hre.store.checkpoints]
    cases hget : m.checkpoints.getHeight h with
    | none =>
        rfl
    | some b =>
        have hle := hcheck b (KeyedList.mem_of_get hget)
        have heq : b.height = h :=
          @KeyedList.key_of_get _ _ _ (fun b : ChainBlock => b.height) _ _ _ hget
        omega
  · rw [hre.connections, hest]
    omega

/-- The first block behind the checkpoint at height 50000 is not rejected. -/
theorem synced_misses_first :
    ∃ m c, Started (quietEnv mainCheckpoints) midTree m c ∧
      ¬ m.MissesTransition (midBlock 0) := by
  obtain ⟨m, c, hstart, hmid, -⟩ := exists_midStart
  refine ⟨m, c, hstart, ?_⟩
  refine (@synced_misses_iff (quietEnv mainCheckpoints) midTree m m c c (midBlock 0) [] tabled_midTree hstart (.nil m)
    hmid.start.lastBlock hmid.hash.symm).mpr (Or.inl ?_)
  rw [hmid.height]
  decide

/-- Behind the checkpoint at height 50000 the block at height 50400 is rejected. -/
theorem midBlock_rejected :
    ∃ m₀ m c last, Started (quietEnv mainCheckpoints) midTree m₀ c ∧
      Synced midTree m₀ ((List.range' 0 399).map midDelivery) m ∧
      m.lastBlock = some last ∧ (midBlock 399).prevBlock = last.blockHash ∧
      midTree.Names (midBlock 399) ∧ m.MissesTransition (midBlock 399) := by
  obtain ⟨m₀, c, hstart, hmid, hprev⟩ := exists_midStart
  obtain ⟨m, last, hsync, hend⟩ := hmid.run (j := 399) rfl
  refine ⟨m₀, m, c, last, hstart, hsync, hend.start.lastBlock, hend.hash.symm,
    names_midBlock (by omega), ?_⟩
  obtain ⟨b, hb⟩ := (LookBack.start' hmid.start).synced hsync
  obtain rfl : b = last := by
    have heq := hb.start.lastBlock
    rw [hend.start.lastBlock] at heq
    exact (Option.some.inj heq).symm
  have hlink : (midBlock 399).prevBlock = b.blockHash := hend.hash.symm
  have hiff := hb.misses_iff hlink
  have hheight := hmid.height
  rw [List.length_map, List.length_range', blockDifficultyInterval, dgwStartBlock] at hiff
  by_contra hnot
  have hnone : m₀.blocks.back (2016 - (0 + 399 + 1)) c = none := by
    rw [show 2016 - (0 + 399 + 1) = 1615 + 1 from rfl, BlockSet.back, hprev]
    cases hget : m₀.blocks.get 0 with
    | none =>
        rfl
    | some d =>
        exact absurd (BlockSet.get_hash hget) (hmid.start.fits.blocks _ _ hget).hash
  rcases hiff.mp hnot with h | h | h | h
  · omega
  · omega
  · omega
  · rw [hnone] at h
    cases h

end Counterexample

end BreadwalletCore
