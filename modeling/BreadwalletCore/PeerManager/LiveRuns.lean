import BreadwalletCore.PeerManager.LivePointers

/-!
# Runs with live pointers

`BRPeerManagerNew` starts with live pointers, `BRPeerManagerRescan` goes back to
a block that is stored, and blocks are relayed in between.
-/

namespace BreadwalletCore

open Machine Ancestry

/-! ## New managers -/

/-- The stored blocks are checkpoints and saved blocks, and the saved blocks that
wait are not stored. -/
structure Opening (checkpointArray : List Checkpoint) (saved : List ChainBlock)
    (s : BlockStore) : Prop where
  last : ∃ b, s.lastBlock = some b ∧ s.blocks.get b.blockHash = some b
  rows : ∀ row ∈ checkpointArray, (s.blocks.get row.hash).isSome
  checkpoints : ∀ c ∈ s.checkpoints, ∃ row ∈ checkpointArray.zipIdx, c = row.1.block row.2
  stored : ∀ h b, s.blocks.get h = some b →
    (∃ row ∈ checkpointArray.zipIdx, b = row.1.block row.2) ∨ b ∈ saved ∧ b ∉ s.orphans
  orphans : ∀ o ∈ s.orphans, o ∈ saved
  keys : (s.orphans.map (·.prevBlock)).Nodup

/-- The saved blocks are objects of their own. -/
structure OwnObjects (checkpointArray : List Checkpoint) (saved : List ChainBlock) : Prop where
  nodup : (saved.map (·.addr)).Nodup
  above : ∀ b ∈ saved, checkpointArray.length ≤ b.addr

section Opening

variable {checkpointArray : List Checkpoint} {saved : List ChainBlock} {s s' : BlockStore}
variable {tree : BlockTree} {earliestKeyTime : UInt32}

/-- Every row is stored under its hash. -/
theorem ofCheckpoints_rows :
    ∀ row ∈ checkpointArray,
      ((BlockStore.ofCheckpoints checkpointArray earliestKeyTime).blocks.get row.hash).isSome := by
  have hfold : ∀ (rows : List (Checkpoint × ℕ)) (s : BlockStore) (h : UInt256),
      (s.blocks.get h).isSome ∨ h ∈ rows.map (fun row => row.1.hash) →
      ((rows.foldl (BlockStore.addCheckpoint earliestKeyTime) s).blocks.get h).isSome := by
    intro rows
    induction rows with
    | nil =>
        intro s h hs
        exact hs.resolve_right (List.not_mem_nil)
    | cons row rows ih =>
        intro s h hs
        refine ih _ h ?_
        rw [List.map_cons, List.mem_cons] at hs
        have hget : (s.addCheckpoint earliestKeyTime row).blocks.get h =
            if row.1.hash = h then some (row.1.block row.2) else s.blocks.get h :=
          BlockSet.get_add _ _ _
        rw [hget]
        rcases hs with hs | rfl | hs
        · split
          · exact Or.inl rfl
          · exact Or.inl hs
        · exact Or.inl (by rw [if_pos rfl]; rfl)
        · exact Or.inr hs
  intro row hrow
  refine hfold _ _ _ (Or.inr ?_)
  obtain ⟨i, hi⟩ := List.mem_iff_getElem?.mp hrow
  exact List.mem_map.mpr ⟨(row, i), List.mem_zipIdx_iff_getElem?.mpr hi, rfl⟩

theorem ofCheckpoints_last
    (hne : checkpointArray ≠ []) :
    (BlockStore.ofCheckpoints checkpointArray earliestKeyTime).lastBlock ≠ none := by
  have hfold : ∀ (rows : List (Checkpoint × ℕ)) (s : BlockStore), s.lastBlock ≠ none →
      (rows.foldl (BlockStore.addCheckpoint earliestKeyTime) s).lastBlock ≠ none := by
    intro rows s hs
    refine List.foldlRecOn (motive := fun s : BlockStore => s.lastBlock ≠ none) _ _ hs ?_
    intro s hs row _
    rw [BlockStore.addCheckpoint]
    dsimp only
    split
    · exact Option.some_ne_none _
    · exact hs
  cases checkpointArray with
  | nil =>
      exact absurd rfl hne
  | cons row rows =>
      rw [BlockStore.ofCheckpoints, List.zipIdx_cons, List.foldl_cons]
      refine hfold _ _ ?_
      exact Option.some_ne_none _

theorem ofCheckpoints_stored_row :
    ∀ h b, (BlockStore.ofCheckpoints checkpointArray earliestKeyTime).blocks.get h = some b →
      ∃ row ∈ checkpointArray.zipIdx, b = row.1.block row.2 := by
  refine BlockStore.ofCheckpoints_invariant (I := fun s => ∀ h b, s.blocks.get h = some b →
    ∃ row ∈ checkpointArray.zipIdx, b = row.1.block row.2) ?_ (fun h b hb => nomatch hb)
  intro s row hrow hs h b hb
  have hget := (BlockSet.get_add s.blocks (row.1.block row.2) h).symm.trans hb
  split at hget
  · cases hget
    exact ⟨row, hrow, rfl⟩
  · exact hs h b hget

theorem opening_ofCheckpoints
    (ht : tree.Tabled checkpointArray)
    (hne : checkpointArray ≠ []) :
    Opening checkpointArray saved
      (BlockStore.ofCheckpoints checkpointArray earliestKeyTime) where
  last := by
    obtain ⟨b, hb⟩ := Option.ne_none_iff_exists'.mp (ofCheckpoints_last hne)
    exact ⟨b, hb, BRPeerManager.ofCheckpoints_stored ht hb⟩
  rows := ofCheckpoints_rows
  checkpoints := by
    refine BlockStore.ofCheckpoints_invariant
      (I := fun s => ∀ c ∈ s.checkpoints, ∃ row ∈ checkpointArray.zipIdx, c = row.1.block row.2)
      ?_ (fun c hc => nomatch hc)
    intro s row hrow hs c hc
    rcases List.mem_cons.mp hc with rfl | hc
    · exact ⟨row, hrow, rfl⟩
    · exact hs c (List.mem_of_mem_filter hc)
  stored := fun h b hb => Or.inl (ofCheckpoints_stored_row h b hb)
  orphans := by
    rw [BRPeerManager.ofCheckpoints_orphans]
    exact fun o ho => nomatch ho
  keys := by
    rw [BRPeerManager.ofCheckpoints_orphans]
    exact List.nodup_nil

theorem Opening.withRestored
    {x : ChainBlock}
    (hs : Opening checkpointArray saved s)
    (hx : x ∈ saved) :
    Opening checkpointArray saved (s.withRestored x) := by
  have hget : ∀ k, (s.withRestored x).blocks.get k =
      if x.blockHash = k then some x else s.blocks.get k :=
    BlockSet.get_add s.blocks x
  refine ⟨⟨x, rfl, ?_⟩, ?_, hs.checkpoints, ?_, ?_, ?_⟩
  · rw [hget, if_pos rfl]
  · intro row hrow
    rw [hget]
    split
    · rfl
    · exact hs.rows row hrow
  · intro k b hb
    rw [hget] at hb
    split at hb
    · cases hb
      refine Or.inr ⟨hx, ?_⟩
      -- nothing with its predecessor is left in `orphans`
      intro hmem
      exact of_decide_eq_true (List.mem_filter.mp hmem).2 rfl
    · exact (hs.stored k b hb).imp_right
        (fun h => ⟨h.1, fun hmem => h.2 (List.mem_of_mem_filter hmem)⟩)
  · exact fun o ho => hs.orphans o (List.mem_of_mem_filter ho)
  · exact (List.filter_sublist.map _).nodup hs.keys

/-- The fold only adds to `orphans`, and only checkpoints are stored so far. -/
theorem Opening.restore
    (hs : Opening checkpointArray saved s)
    (hrows : ∀ h b, s.blocks.get h = some b →
      ∃ row ∈ checkpointArray.zipIdx, b = row.1.block row.2)
    (h : s.restore saved = .ok s') :
    Opening checkpointArray saved s' := by
  obtain ⟨⟨s₁, block⟩, hfold, hloop⟩ := bind_eq_ok.mp h
  have hinv : (s₁.blocks = s.blocks ∧ Opening checkpointArray saved s₁) ∧
      ∀ b, block = some b → b ∈ saved := by
    refine BlockStore.restoreFold_invariant
      (I := fun s₁ => s₁.blocks = s.blocks ∧ Opening checkpointArray saved s₁) ?_
      ⟨rfl, hs⟩ hfold
    rintro s₂ b hb ⟨hblocks, hopen⟩
    refine ⟨hblocks, hopen.last, hopen.rows, hopen.checkpoints, ?_, ?_, ?_⟩
    · intro h x hx
      refine Or.inl (hrows h x ?_)
      rw [← hblocks]
      exact hx
    · intro o ho
      rcases List.mem_cons.mp ho with rfl | ho
      · exact hb
      · exact hopen.orphans o (List.mem_of_mem_filter ho)
    · change ((b :: s₂.orphans.filter _).map (·.prevBlock)).Nodup
      rw [List.map_cons, List.nodup_cons]
      refine ⟨?_, (List.filter_sublist.map _).nodup hopen.keys⟩
      intro hmem
      obtain ⟨o, ho, hkey⟩ := List.mem_map.mp hmem
      exact of_decide_eq_true (List.mem_filter.mp ho).2 hkey
  exact BlockStore.restoreLoop_invariant (P := (· ∈ saved))
    (fun _ _ hs hx => hs.withRestored hx) (fun _ hs => hs.orphans) hinv.1.2 hinv.2 hloop

/-- The objects of two rows with one address are the same. -/
theorem Checkpoint.block_inj
    {row row' : Checkpoint × ℕ}
    (hrow : row ∈ checkpointArray.zipIdx)
    (hrow' : row' ∈ checkpointArray.zipIdx)
    (haddr : (row.1.block row.2).addr = (row'.1.block row'.2).addr) :
    row = row' := by
  have heq : row.2 = row'.2 := haddr
  have h := List.mem_zipIdx_iff_getElem?.mp hrow
  have h' := List.mem_zipIdx_iff_getElem?.mp hrow'
  rw [heq, h'] at h
  exact Prod.ext (Option.some.inj h).symm heq

/-- New managers have live pointers. -/
theorem Opening.live
    (hs : Opening checkpointArray saved s)
    (hown : OwnObjects checkpointArray saved) :
    Live checkpointArray (fun _ => False) s := by
  have hlow : ∀ {row : Checkpoint × ℕ} {b : ChainBlock}, row ∈ checkpointArray.zipIdx →
      b ∈ saved → (row.1.block row.2).addr ≠ b.addr := by
    intro row b hrow hb
    have hlt : row.2 < checkpointArray.length := (List.mem_zipIdx' hrow).1
    have hle := hown.above b hb
    change row.2 ≠ b.addr
    omega
  refine ⟨hs.last, hs.rows, ?_, ?_, ?_, ?_, ?_, ?_, fun _ _ h => h, fun _ _ _ h => h,
    fun _ _ h => h⟩
  · intro c hc
    obtain ⟨row, hrow, rfl⟩ := hs.checkpoints c hc
    exact ⟨row.1, List.fst_mem_of_mem_zipIdx hrow, rfl⟩
  · intro c hc h b hb haddr
    obtain ⟨row, hrow, rfl⟩ := hs.checkpoints c hc
    rcases hs.stored h b hb with ⟨row', hrow', rfl⟩ | ⟨hmem, -⟩
    · rw [Checkpoint.block_inj hrow' hrow haddr]
    · exact absurd haddr.symm (hlow hrow hmem)
  · intro h h' b b' hb hb' haddr
    rcases hs.stored h b hb with ⟨row, hrow, rfl⟩ | ⟨hmem, -⟩
    · rcases hs.stored h' b' hb' with ⟨row', hrow', rfl⟩ | ⟨hmem', -⟩
      · rw [Checkpoint.block_inj hrow hrow' haddr]
      · exact absurd haddr (hlow hrow hmem')
    · rcases hs.stored h' b' hb' with ⟨row', hrow', rfl⟩ | ⟨hmem', -⟩
      · exact absurd haddr.symm (hlow hrow' hmem)
      · exact List.inj_on_of_nodup_map hown.nodup hmem hmem' haddr
  · intro o ho h b hb haddr
    rcases hs.stored h b hb with ⟨row, hrow, rfl⟩ | ⟨hmem, hnot⟩
    · exact hlow hrow (hs.orphans o ho) haddr
    · obtain rfl := List.inj_on_of_nodup_map hown.nodup hmem (hs.orphans o ho) haddr
      exact hnot ho
  · intro o ho c hc
    obtain ⟨row, hrow, rfl⟩ := hs.checkpoints c hc
    exact hlow hrow (hs.orphans o ho)
  · refine List.Nodup.map_on ?_ (List.Nodup.of_map _ hs.keys)
    intro o ho o' ho' haddr
    exact List.inj_on_of_nodup_map hown.nodup (hs.orphans o ho) (hs.orphans o' ho') haddr

theorem live_new
    {env : Env} {wallet : BRWallet} {m : BRPeerManager}
    (ht : tree.Tabled env.checkpointArray)
    (hne : env.checkpointArray ≠ [])
    (hown : OwnObjects env.checkpointArray saved)
    (h : BRPeerManager.new env wallet earliestKeyTime saved = .ok m) :
    Live env.checkpointArray (fun _ => False) m.toBlockStore := by
  obtain ⟨s, hs, rfl⟩ := BRPeerManager.new_ok h
  exact ((opening_ofCheckpoints ht hne).restore ofCheckpoints_stored_row hs).live hown

end Opening

/-! ## Rescans and filters -/

section Calls

variable {checkpointArray : List Checkpoint} {pruned : ℕ → Prop} {tree : BlockTree}
variable {env : Env} {m m' : BRPeerManager} {peer : BRPeer} {peers : List BRPeer}

theorem rescanCheckpoint_mem
    {earliestKeyTime : UInt32} {row : Checkpoint}
    (h : BRPeerManager.rescanCheckpoint checkpointArray earliestKeyTime = some row) :
    row ∈ checkpointArray := by
  obtain ⟨p, hp, rfl⟩ := Option.map_eq_some_iff.mp h
  have hmem := List.mem_reverse.mp (List.mem_of_find?_eq_some hp)
  exact List.fst_mem_of_mem_zipIdx hmem

/-- A rescan goes back to the block of a checkpoint, which is stored. -/
theorem rescan_live
    (hm : tree.Fits m.toBlockStore)
    (hlive : Live env.checkpointArray pruned m.toBlockStore)
    (h : m.rescan env peers = .ok m') :
    tree.Fits m'.toBlockStore ∧ Live env.checkpointArray pruned m'.toBlockStore := by
  have hsame : m'.toBlockStore = m.toBlockStore →
      tree.Fits m'.toBlockStore ∧ Live env.checkpointArray pruned m'.toBlockStore := by
    intro heq
    rw [heq]
    exact ⟨hm, hlive⟩
  by_cases hconn : m.isConnected = true
  · cases hrow : BRPeerManager.rescanCheckpoint env.checkpointArray m.earliestKeyTime with
    | none =>
        rw [BRPeerManager.rescan, if_pos hconn, hrow] at h
        exact hsame (BRPeerManager.connect_store (m := { m with syncStartHeight := 0 }) h)
    | some row =>
        have hstore := BRPeerManager.rescan_store hconn hrow h
        obtain ⟨b, hb⟩ := Option.isSome_iff_exists.mp
          (hlive.rows row (rescanCheckpoint_mem hrow))
        rw [hb] at hstore
        rw [hstore]
        refine ⟨⟨hm.blocks, hm.orphans, ?_⟩, hlive.fewer rfl rfl (List.Sublist.refl _) ?_⟩
        · intro l hl
          cases hl
          exact hm.blocks _ _ hb
        · exact ⟨b, rfl, (BlockSet.get_hash hb).symm ▸ hb⟩
  · rw [BRPeerManager.rescan, if_neg hconn] at h
    cases h
    exact ⟨hm, hlive⟩

end Calls

/-! ## Runs -/

/-- A run from `BRPeerManagerNew`, with the addresses of the objects that it has
pruned.  The calls of `_peerRelayedBlock` are safe, for objects that are new or
have been taken out of `orphans`; the filter that lets blocks in is loaded, and
what else the manager does leaves the block sets as they are. -/
inductive Reached (checkpointArray : List Checkpoint) (tree : BlockTree) :
    (ℕ → Prop) → BRPeerManager → Prop
  | new {env : Env} {wallet : BRWallet} {earliestKeyTime : UInt32} {saved : List ChainBlock}
      {m : BRPeerManager} :
      env.checkpointArray = checkpointArray → (∀ b ∈ saved, tree.Saved b) →
      OwnObjects checkpointArray saved →
      BRPeerManager.new env wallet earliestKeyTime saved = .ok m →
      Reached checkpointArray tree (fun _ => False) m
  | relayed {pruned : ℕ → Prop} {env : Env} {peer : BRPeer} {m m' : BRPeerManager}
      {block : ChainBlock} {es : List ManagerEvent} {next : Option ChainBlock} :
      Reached checkpointArray tree pruned m → tree.Names block →
      FreshObject pruned m.toBlockStore block →
      BRPeerManager.SafeCall checkpointArray env peer m block →
      m.relayStep env peer block = .ok (m', es, next) →
      Reached checkpointArray tree (fun a => pruned a ∨ m.Prunes (m.placeBlock block) a) m'
  | rescanned {pruned : ℕ → Prop} {env : Env} {peers : List BRPeer} {m m' : BRPeerManager} :
      Reached checkpointArray tree pruned m → env.checkpointArray = checkpointArray →
      m.rescan env peers = .ok m' → Reached checkpointArray tree pruned m'
  | loaded {pruned : ℕ → Prop} {env : Env} {peer : BRPeer} {m m' : BRPeerManager} :
      Reached checkpointArray tree pruned m → m.loadBloomFilter env peer = .ok m' →
      Reached checkpointArray tree pruned m'
  | other {pruned : ℕ → Prop} {m m' : BRPeerManager} :
      Reached checkpointArray tree pruned m → m'.toBlockStore = m.toBlockStore →
      Reached checkpointArray tree pruned m'

section Runs

variable {checkpointArray : List Checkpoint} {pruned : ℕ → Prop} {tree : BlockTree}
variable {env : Env} {m m' : BRPeerManager} {peer : BRPeer} {block : ChainBlock}
variable {es : List ManagerEvent} {n : ℕ}

theorem Reached.live
    (ht : tree.Tabled checkpointArray)
    (hne : checkpointArray ≠ [])
    (h : Reached checkpointArray tree pruned m) :
    tree.Fits m.toBlockStore ∧ Live checkpointArray pruned m.toBlockStore := by
  induction h with
  | new henv hsaved hown hnew =>
      subst henv
      exact ⟨BRPeerManager.fits_new ht hsaved hnew, live_new ht hne hown hnew⟩
  | relayed _ hnames hfresh hsafe hstep ih =>
      exact ⟨(BRPeerManager.fits_relayStep ih.1 hnames hstep).1,
        (BRPeerManager.live_relayStep ih.1 ih.2 hnames hfresh hsafe hstep).1⟩
  | rescanned _ henv hrescan ih =>
      subst henv
      exact rescan_live ih.1 ih.2 hrescan
  | loaded _ hload ih =>
      have hstore := (BRPeerManager.loadBloomFilter_ok hload).1.store
      exact ⟨ih.1.cleared hstore, ih.2.cleared hstore⟩
  | other _ hsame ih =>
      rw [hsame]
      exact ih

end Runs


section Samples

end Samples

end BreadwalletCore
