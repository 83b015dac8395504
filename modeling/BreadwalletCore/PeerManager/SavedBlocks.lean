import BreadwalletCore.PeerManager.MainChain
import BreadwalletCore.PeerManager.TreeOrder

/-!
# Saved blocks

`saveBlocks` is called with a transition block as soon as it extends the chain,
and with the blocks down to the transition before the last one when the download
is complete.  `BRPeerManagerNew` puts the saved blocks into `orphans` and builds
the chain from the highest transition block on.

* `SavedRun` is the shape of what is saved; `relayStep_saved` proves it of every
  call.
* `restore_tip` is about the loader: whatever the order of the blocks, and
  whatever other blocks of the chain are among them, it gets up to the saved tip.
-/

namespace BreadwalletCore

open Machine Ancestry

/-- The blocks from a tip down to a difficulty transition, as they are saved. -/
structure SavedRun (tree : BlockTree) (tip : ChainBlock) (saved : List ChainBlock) : Prop where
  head : saved.head? = some tip
  holds : ∀ b ∈ saved, tree.Holds b
  height : ∀ (i : ℕ) b, saved[i]? = some b → b.height + i = tip.height
  linked : ∀ (i : ℕ) a b, saved[i]? = some a → saved[i + 1]? = some b →
    a.prevBlock = b.blockHash
  last : ∀ b, saved.getLast? = some b → b.height % blockDifficultyInterval = 0

/-- What is restored with a saved run: blocks of the same chain, none of them
higher, in any order. -/
structure Restorable (tree : BlockTree) (tip : ChainBlock) (saved restored : List ChainBlock) :
    Prop where
  sub : saved ⊆ restored
  holds : ∀ b ∈ restored, tree.Holds b
  known : ∀ b ∈ restored, b.height ≠ blockUnknownHeight
  below : ∀ b ∈ restored, b.height ≤ tip.height
  chain : ∀ b ∈ restored, ∀ a ∈ saved, b.height = a.height → b.blockHash = a.blockHash

/-- A saved run has a block at every height down to its last one. -/
theorem SavedRun.exists_at
    {tree : BlockTree} {tip : ChainBlock} {saved : List ChainBlock}
    {n : ℕ} {l : ChainBlock}
    (hs : SavedRun tree tip saved)
    (hl : saved.getLast? = some l)
    (hlow : l.height ≤ n)
    (hhigh : n ≤ tip.height) :
    ∃ a, saved[tip.height - n]? = some a ∧ a.height = n := by
  rw [List.getLast?_eq_getElem?] at hl
  have hlast := hs.height _ _ hl
  have hlt : tip.height - n < saved.length := by
    have := (List.getElem?_eq_some_iff.mp hl).1
    omega
  refine ⟨saved[tip.height - n], List.getElem?_eq_getElem hlt, ?_⟩
  have := hs.height _ _ (List.getElem?_eq_getElem hlt)
  omega

theorem SavedRun.nodup
    {tree : BlockTree} {tip : ChainBlock} {saved : List ChainBlock}
    (hs : SavedRun tree tip saved) :
    saved.Nodup := by
  rw [List.nodup_iff_getElem?_ne_getElem?]
  intro i j hij hj heq
  have hb := List.getElem?_eq_getElem hj
  have hjheight := hs.height j _ hb
  have hiheight := hs.height i _ (heq.trans hb)
  omega

namespace BlockStore

variable {tree : BlockTree} {s s' : BlockStore} {tip b : ChainBlock}
variable {saved restored : List ChainBlock}

/-- What the loop over the restored blocks leaves: all of them are orphans, and
the last transition block is known. -/
theorem restoreBlock_foldlM
    {t : Option ChainBlock}
    (hknown : ∀ b ∈ restored, b.height ≠ blockUnknownHeight) :
    ∃ s₁ t₁, restored.foldlM restoreBlock (s, t) = .ok (s₁, t₁) ∧
      (∀ p b, s₁.orphans.getPrev p = some b → b ∈ restored ∨ s.orphans.getPrev p = some b) ∧
      (∀ p, (∃ b ∈ restored, b.prevBlock = p) ∨ (s.orphans.getPrev p).isSome →
        (s₁.orphans.getPrev p).isSome) ∧
      (∀ x, t₁ = some x → x ∈ restored ∨ t = some x) ∧
      (∀ b, b ∈ restored ∧ b.height % blockDifficultyInterval = 0 ∨ t = some b →
        ∃ x, t₁ = some x ∧ b.height ≤ x.height) := by
  induction restored generalizing s t with
  | nil =>
      refine ⟨s, t, rfl, fun _ _ h => Or.inr h, ?_, fun _ h => Or.inr h, ?_⟩
      · rintro p (⟨b, hb, -⟩ | h)
        · cases hb
        · exact h
      · rintro b (⟨hb, -⟩ | h)
        · cases hb
        · exact ⟨b, h, le_rfl⟩
  | cons c restored ih =>
      have hstep : restoreBlock (s, t) c =
          .ok ({ s with orphans := KeyedList.add (·.prevBlock) s.orphans c },
            if isLaterTransition t c then some c else t) :=
        if_neg (hknown c List.mem_cons_self)
      obtain ⟨s₁, t₁, hfold, hfrom, hall, ht, hmax⟩ :=
        @ih { s with orphans := KeyedList.add (·.prevBlock) s.orphans c }
          (if isLaterTransition t c then some c else t)
          (fun b hb => hknown b (List.mem_cons_of_mem _ hb))
      have hadd : ∀ p, BlockSet.getPrev (KeyedList.add (·.prevBlock) s.orphans c) p =
          if c.prevBlock = p then some c else s.orphans.getPrev p :=
        fun p => BlockSet.getPrev_add _ _ _
      refine ⟨s₁, t₁, ?_, ?_, ?_, ?_, ?_⟩
      · rw [List.foldlM_cons, hstep, ok_bind]
        exact hfold
      · intro p b hb
        rcases hfrom p b hb with hmem | hget
        · exact Or.inl (List.mem_cons_of_mem _ hmem)
        · rw [hadd] at hget
          split at hget
          · cases hget
            exact Or.inl List.mem_cons_self
          · exact Or.inr hget
      · intro p hp
        apply hall
        rw [hadd]
        rcases hp with ⟨b, hb, hprev⟩ | hsome
        · rcases List.mem_cons.mp hb with rfl | hb
          · rw [if_pos hprev]
            exact Or.inr rfl
          · exact Or.inl ⟨b, hb, hprev⟩
        · right
          split
          · rfl
          · exact hsome
      · intro x hx
        rcases ht x hx with hmem | hsome
        · exact Or.inl (List.mem_cons_of_mem _ hmem)
        · split at hsome
          · cases hsome
            exact Or.inl List.mem_cons_self
          · exact Or.inr hsome
      · rintro b hb
        by_cases hlater : isLaterTransition t c = true
        · rw [if_pos hlater] at hmax
          rcases hb with ⟨hb, hzero⟩ | rfl
          · rcases List.mem_cons.mp hb with rfl | hb
            · exact hmax b (Or.inr rfl)
            · exact hmax b (Or.inl ⟨hb, hzero⟩)
          · obtain ⟨x, hx, hle⟩ := hmax c (Or.inr rfl)
            simp only [isLaterTransition, Option.all_some, decide_eq_true_eq] at hlater
            exact ⟨x, hx, by omega⟩
        · rw [if_neg hlater] at hmax
          rcases hb with ⟨hb, hzero⟩ | rfl
          · rcases List.mem_cons.mp hb with rfl | hb
            · cases t with
              | none =>
                  simp [isLaterTransition, hzero] at hlater
              | some y =>
                  simp only [isLaterTransition, Option.all_some, decide_eq_true_eq, hzero,
                    true_and, not_lt] at hlater
                  obtain ⟨x, hx, hle⟩ := hmax y (Or.inr rfl)
                  exact ⟨x, hx, by omega⟩
            · exact hmax b (Or.inl ⟨hb, hzero⟩)
          · exact hmax b (Or.inr rfl)

theorem withRestored_getPrev
    (s : BlockStore) (x : ChainBlock) (p : UInt256) :
    (s.withRestored x).orphans.getPrev p =
      if p = x.prevBlock then none else s.orphans.getPrev p :=
  BlockSet.getPrev_remove _ _ _

theorem restoreLoop_some
    {n : ℕ} {x : ChainBlock}
    (hx : tree.Holds x) :
    restoreLoop (n + 1) (some x) s =
      restoreLoop n (s.orphans.getPrev x.blockHash) (s.withRestored x) := by
  have hself : x.blockHash ≠ x.prevBlock := by
    intro heq
    have := hx.height_prev hx heq.symm
    omega
  have hget := withRestored_getPrev s x x.blockHash
  rw [if_neg hself] at hget
  rw [← hget]
  rfl

/-- The chain is built up to the tip. -/
theorem restoreLoop_tip
    {n k : ℕ} {x l : ChainBlock}
    (hs : SavedRun tree tip saved)
    (hr : Restorable tree tip saved restored)
    (hl : saved.getLast? = some l)
    (hx : x ∈ restored)
    (hlow : l.height ≤ x.height)
    (hk : tip.height = x.height + k)
    (hfrom : ∀ p b, s.orphans.getPrev p = some b → b ∈ restored ∧ b.prevBlock = p)
    (hall : ∀ b ∈ saved, x.height < b.height → (s.orphans.getPrev b.prevBlock).isSome)
    (hn : k + 1 < n) :
    ∃ s' b, restoreLoop n (some x) s = .ok s' ∧ s'.lastBlock = some b ∧
      b.blockHash = tip.blockHash := by
  induction k generalizing x s n with
  | zero =>
      have hhx := hr.holds x hx
      -- nothing restored is higher than the tip
      have hnone : s.orphans.getPrev x.blockHash = none := by
        cases hy : s.orphans.getPrev x.blockHash with
        | none =>
            rfl
        | some y =>
            obtain ⟨hymem, hyprev⟩ := hfrom _ y hy
            have := (hr.holds y hymem).height_prev hhx hyprev
            have := hr.below y hymem
            omega
      have htip : x.blockHash = tip.blockHash :=
        hr.chain x hx tip (List.mem_of_head? hs.head) hk.symm
      obtain ⟨n, rfl⟩ : ∃ m, n = m + 2 := ⟨n - 2, by omega⟩
      refine ⟨s.withRestored x, x, ?_, rfl, htip⟩
      rw [restoreLoop_some hhx, hnone]
      rfl
  | succ k ih =>
      have hhx := hr.holds x hx
      obtain ⟨a, ha, haheight⟩ := hs.exists_at hl hlow (by omega)
      have hahash : x.blockHash = a.blockHash :=
        hr.chain x hx a (List.mem_of_getElem? ha) haheight.symm
      -- the next block of the run, and what is found in its place
      obtain ⟨z, hz, hzheight⟩ := hs.exists_at (n := x.height + 1) hl (by omega) (by omega)
      have hzmem := List.mem_of_getElem? hz
      have hzprev : z.prevBlock = x.blockHash := by
        rw [hahash]
        refine hs.linked (tip.height - (x.height + 1)) z a hz ?_
        rw [show tip.height - (x.height + 1) + 1 = tip.height - x.height by omega]
        exact ha
      obtain ⟨y, hy⟩ := Option.isSome_iff_exists.mp (hall z hzmem (by omega))
      rw [hzprev] at hy
      obtain ⟨hymem, hyprev⟩ := hfrom _ y hy
      have hyheight := (hr.holds y hymem).height_prev hhx hyprev
      obtain ⟨n, rfl⟩ : ∃ m, n = m + 1 := ⟨n - 1, by omega⟩
      rw [restoreLoop_some hhx, hy]
      refine ih hymem (by omega) (by omega) ?_ ?_ (by omega)
      · intro p b hb
        rw [withRestored_getPrev] at hb
        split at hb
        · cases hb
        · exact hfrom p b hb
      · intro b hb hlt
        rw [withRestored_getPrev, if_neg]
        · exact hall b hb (by omega)
        · -- the block before `b` is at least as high as `x`
          intro heq
          obtain ⟨j, hj⟩ := List.mem_iff_getElem?.mp hb
          have hjheight := hs.height j b hj
          obtain ⟨c, hc, hcheight⟩ := hs.exists_at (n := b.height - 1) hl (by omega)
            (by omega)
          have hlink := hs.linked j b c hj (by
            rw [show j + 1 = tip.height - (b.height - 1) by omega]
            exact hc)
          have := hhx.height_prev (hs.holds c (List.mem_of_getElem? hc)) (heq ▸ hlink)
          omega

/-- **Restore**: from the blocks of a saved run, the chain is built up to its tip. -/
theorem restore_tip
    (hs : SavedRun tree tip saved)
    (hr : Restorable tree tip saved restored)
    (hnil : s.orphans = []) :
    ∃ s' b, s.restore restored = .ok s' ∧ s'.lastBlock = some b ∧
      b.blockHash = tip.blockHash := by
  obtain ⟨s₁, t, hfold, hfrom, hall, ht, hmax⟩ := @restoreBlock_foldlM s restored none hr.known
  obtain ⟨l, hl⟩ : ∃ l, saved.getLast? = some l := by
    cases hl : saved.getLast? with
    | none =>
        rw [List.getLast?_eq_none_iff.mp hl] at hs
        cases hs.head
    | some l =>
        exact ⟨l, rfl⟩
  have hlmem := List.mem_of_getLast? hl
  obtain ⟨x, rfl, hlow⟩ := hmax l (Or.inl ⟨hr.sub hlmem, hs.last l hl⟩)
  have hx : x ∈ restored := by
    rcases ht x rfl with hmem | hnone
    · exact hmem
    · cases hnone
  rw [restore, hfold, ok_bind]
  have hlen : tip.height - x.height + 1 < restored.length + 2 := by
    rw [List.getLast?_eq_getElem?] at hl
    have hlast := hs.height _ _ hl
    have := (List.getElem?_eq_some_iff.mp hl).1
    have := (List.subperm_of_subset hs.nodup hr.sub).length_le
    omega
  refine restoreLoop_tip hs hr hl hx hlow (k := tip.height - x.height)
    (by have := hr.below x hx; omega) ?_ ?_ hlen
  · intro p b hb
    refine ⟨?_, BlockSet.getPrev_prevBlock hb⟩
    rcases hfrom p b hb with hmem | hold
    · exact hmem
    · rw [hnil] at hold
      cases hold
  · intro b hb _
    exact hall _ (Or.inl ⟨b, hr.sub hb, rfl⟩)

end BlockStore

/-! ## What is saved -/

namespace BlockSet

variable {blocks : BlockSet} {b : ChainBlock} {n : ℕ}

/-- A set of blocks without a start has no run. -/
theorem runBack_none
    (blocks : BlockSet) (n : ℕ) :
    blocks.runBack n none = [] := by
  cases n <;> rfl

theorem runBack_linked
    (i : ℕ) (a c : ChainBlock)
    (ha : (blocks.runBack n (some b))[i]? = some a)
    (hc : (blocks.runBack n (some b))[i + 1]? = some c) :
    a.prevBlock = c.blockHash := by
  induction n generalizing b i with
  | zero =>
      cases ha
  | succ n ih =>
      rw [runBack, List.getElem?_cons_succ] at hc
      cases hup : blocks.get b.prevBlock with
      | none =>
          rw [hup, runBack_none] at hc
          cases hc
      | some p =>
          rw [hup] at hc
          cases i with
          | zero =>
              cases ha
              cases n with
              | zero =>
                  cases hc
              | succ n =>
                  cases hc
                  exact (get_hash hup).symm
          | succ i =>
              rw [runBack, List.getElem?_cons_succ, hup] at ha
              exact ih i ha hc

theorem runBack_holds
    {tree : BlockTree}
    (hblocks : ∀ h b, blocks.get h = some b → tree.Holds b)
    (hb : tree.Holds b) :
    ∀ c ∈ blocks.runBack n (some b), tree.Holds c := by
  induction n generalizing b with
  | zero =>
      intro c hc
      cases hc
  | succ n ih =>
      intro c hc
      rcases List.mem_cons.mp hc with rfl | hc
      · exact hb
      · cases hup : blocks.get b.prevBlock with
        | none =>
            rw [hup, runBack_none] at hc
            cases hc
        | some p =>
            rw [hup] at hc
            exact ih (hblocks _ _ hup) c hc

end BlockSet

namespace BRPeerManager

variable {env : Env} {m m' : BRPeerManager} {peer : BRPeer} {block b : ChainBlock}
variable {es : List ManagerEvent} {r : Handled} {next : Option ChainBlock} {tree : BlockTree}

/-- The blocks to be saved are a run down to a difficulty transition. -/
theorem savedBlocks_run
    {blocks : BlockSet} {count : ℕ} {saved : List ChainBlock}
    (hblocks : ∀ h b, blocks.get h = some b → tree.Holds b)
    (hb : tree.Holds b)
    (h : savedBlocks blocks (some b) count = .ok saved)
    (hne : saved ≠ []) :
    SavedRun tree b saved := by
  rw [savedBlocks] at h
  split at h
  · rename_i hlast
    cases h
    have hget : ∀ (i : ℕ) c, (List.take (saveLength (blocks.runBack count (some b)))
        (blocks.runBack count (some b)))[i]? = some c →
        (blocks.runBack count (some b))[i]? = some c := by
      intro i c hc
      rw [List.getElem?_take] at hc
      split at hc
      · exact hc
      · cases hc
    refine ⟨?_, ?_, ?_, ?_, ?_⟩
    · cases count with
      | zero =>
          exact absurd (List.take_nil ..) hne
      | succ n =>
          rw [BlockSet.runBack] at hne ⊢
          generalize saveLength (b :: blocks.runBack n (blocks.get b.prevBlock)) = k at hne ⊢
          cases k with
          | zero =>
              exact absurd rfl hne
          | succ k =>
              rfl
    · exact fun c hc => BlockSet.runBack_holds hblocks hb c (List.mem_of_mem_take hc)
    · exact fun i c hc =>
        BlockSet.runBack_height (BlockTree.ranked hblocks) hb i c (hget i c hc)
    · exact fun i a c ha hc => BlockSet.runBack_linked i a c (hget i a ha) (hget (i + 1) c hc)
    · intro c hc
      rw [hc] at hlast
      simpa using hlast
  · cases h

theorem updateTx_events
    {txHashes : List UInt256} {blockHeight timestamp : UInt32}
    (h : m.updateTx env txHashes blockHeight timestamp = .ok (m', es)) :
    ∀ e ∈ es, ∃ w, e = .wallet w := by
  obtain ⟨_, _, events, -, -, -, -, rfl⟩ := updateTx_ok h
  intro e he
  obtain ⟨w, -, rfl⟩ := List.mem_map.mp he
  exact ⟨w, rfl⟩

theorem confirmTxs_events
    {prev : ChainBlock}
    (h : m.confirmTxs env block prev = .ok (m', es)) :
    ∀ e ∈ es, ∃ w, e = .wallet w := by
  rcases (confirmTxs_ok h).2 with ⟨-, -, rfl⟩ | h
  · intro e he
    cases he
  · exact updateTx_events h

/-- The branches tell the application about its transactions only. -/
theorem branch_events
    (h : Branch env m peer block r) :
    ∀ e ∈ r.events, ∃ w, e = .wallet w := by
  have hnil : ∀ e ∈ ([] : List ManagerEvent), ∃ w, e = .wallet w := by
    intro e he
    cases he
  cases h with
  | valid _ _ _ _ hvalid =>
      cases hvalid with
      | extended _ _ hext =>
          obtain ⟨_, _, _, hconf, -⟩ := extendChain_ok hext
          exact confirmTxs_events hconf
      | existing _ _ _ hex =>
          obtain ⟨_, _, -, -, -, -, hcase⟩ := relayExisting_ok hex
          rcases hcase with ⟨-, -, hevents⟩ | ⟨-, _, hconf, -⟩
          · rw [hevents]
            exact hnil
          · exact confirmTxs_events hconf
      | highFork _ _ _ _ _ hre =>
          obtain ⟨_, _, _, _, _, _, -, -, -, -, hevents, -⟩ := reorganize_ok hre
          rw [hevents]
          intro e he
          obtain ⟨w, -, rfl⟩ := List.mem_map.mp he
          exact ⟨w, rfl⟩
      | _ => exact hnil
  | _ => exact hnil

/-- What a call saves is a run from its block. -/
theorem relayStep_saved
    {replace : Bool} {saved : List ChainBlock}
    (hm : tree.Fits m.toBlockStore)
    (hb : tree.Names block)
    (h : m.relayStep env peer block = .ok (m', es, next))
    (hsave : ManagerEvent.saveBlocks replace saved ∈ es) :
    SavedRun tree (m.placeBlock block) saved ∧ replace = decide (1 < saved.length) := by
  have hfits := (fits_relayStep hm hb h).1
  obtain ⟨r, hr, hfin⟩ := relayStep_ok h
  have hnot : ManagerEvent.saveBlocks replace saved ∉ r.events := by
    intro hmem
    obtain ⟨w, hw⟩ := branch_events hr _ hmem
    cases hw
  rcases finish_ok hfin with ⟨-, -, rfl, -⟩ | ⟨b, saved', hblock, -, hsaved, rfl⟩
  · exact absurd hsave hnot
  · obtain rfl := branch_block hr hblock
    rcases List.mem_append.mp hsave with hmem | hmem
    · exact absurd hmem hnot
    · rw [saveEvents] at hmem
      split at hmem
      · cases hmem
      · rename_i hne
        cases List.mem_singleton.mp hmem
        refine ⟨?_, rfl⟩
        cases hr with
        | orphan _ _ _ _ =>
            cases hsaved
            exact absurd rfl hne
        | valid _ _ hprev _ _ =>
            rw [placeBlock_prevBlock] at hprev
            exact savedBlocks_run hfits.blocks (holds_placeBlock hm.stores hb hprev) hsaved hne
        | _ => cases hblock

/-- The assertion before that holds. -/
theorem relayStep_assertion
    (hm : tree.Fits m.toBlockStore)
    (hb : tree.Names block) :
    m.relayStep env peer block ≠ .error .assertion := by
  intro h
  rcases bind_eq_error.mp h with h | ⟨_, -, h⟩
  · rw [trackRate] at h
    split at h
    · rcases bind_eq_error.mp h with h | ⟨_, -, h⟩
      · cases (last_error h).2
      · cases h
    · cases h
  rcases bind_eq_error.mp h with h | ⟨r, hr, hfin⟩
  · generalize he : ManagerFault.assertion = e at h
    cases handleBlock_error h with
    | walk _ _ _ _ hwalk =>
        rcases hwalk with hwalk | ⟨-, rfl⟩
        · cases he.trans (BlockSet.walkDown_error hwalk)
        · cases he
    | join _ _ _ _ _ hjoin =>
        rcases hjoin with hjoin | ⟨-, rfl⟩ | ⟨_, _, _, -, hreplay⟩
        · cases he.trans (BlockSet.joinLoop_error hjoin)
        · cases he
        · rcases BRWallet.replayLoop_error hreplay with hfuel | ⟨f, hf⟩
          · cases he.trans hfuel
          · cases he.trans hf
    | _ => cases he
  · exact finish_returns hm hb (handleBlock_cases hr) hfin

/-- What a call has saved is restored with the saved tip as `lastBlock`. -/
structure SavesChain (tree : BlockTree) (env : Env) (peer : BRPeer) (m : BRPeerManager)
    (block : ChainBlock) : Prop where
  asserts : m.relayedBlock env peer block ≠ .error .assertion
  run : ∀ m' es, m.relayedBlock env peer block = .ok (m', es) →
    ∀ replace saved, ManagerEvent.saveBlocks replace saved ∈ es →
      SavedRun tree (m.placeBlock block) saved ∧ replace = decide (1 < saved.length)
  restores : ∀ m' es, m.relayedBlock env peer block = .ok (m', es) →
    ∀ replace saved, ManagerEvent.saveBlocks replace saved ∈ es →
      ∀ restored, Restorable tree (m.placeBlock block) saved restored →
        ∀ env' wallet earliestKeyTime, ∃ m₂ b,
          new env' wallet earliestKeyTime restored = .ok m₂ ∧ m₂.lastBlock = some b ∧
            b.blockHash = block.blockHash

/--
**Block store round trip.**  In a run of linked blocks of the main chain, whatever
`saveBlocks` is called with is a run from the new block down to a difficulty
transition, and `BRPeerManagerNew` with these blocks, in any order and together
with others of the chain that are not higher, has the new block as `lastBlock`.
-/
theorem synced_savesChain
    {m₀ : BRPeerManager} {c last : ChainBlock} {chain : List Delivery}
    (hstart : SyncStart tree m₀ c)
    (hsync : Synced tree m₀ chain m)
    (hlast : m.lastBlock = some last)
    (hlink : block.prevBlock = last.blockHash)
    (hnames : tree.Names block) :
    SavesChain tree env peer m block := by
  obtain ⟨l, hl⟩ := (LookBack.start' hstart).synced hsync
  obtain rfl : l = last := by
    have heq := hl.start.lastBlock
    rw [hlast] at heq
    exact (Option.some.inj heq).symm
  have hm := hl.start.fits
  -- without orphans the call does not call itself
  have hcall : ∀ m' es, m.relayedBlock env peer block = .ok (m', es) →
      m.relayStep env peer block = .ok (m', es, none) := by
    intro m' es h
    obtain ⟨⟨m₁, es₁, next⟩, hs, h⟩ := bind_eq_ok.mp h
    obtain ⟨rfl, -⟩ := relayStep_behind_last hl.start hlink hs
    cases h
    exact hs
  have hrun : ∀ m' es, m.relayedBlock env peer block = .ok (m', es) →
      ∀ replace saved, ManagerEvent.saveBlocks replace saved ∈ es →
        SavedRun tree (m.placeBlock block) saved ∧ replace = decide (1 < saved.length) :=
    fun m' es h _ _ hsave => relayStep_saved hm hnames (hcall m' es h) hsave
  refine ⟨?_, hrun, ?_⟩
  · intro h
    rcases bind_eq_error.mp h with h | ⟨⟨m₁, es₁, next⟩, hs, h⟩
    · exact relayStep_assertion hm hnames h
    · obtain ⟨rfl, -⟩ := relayStep_behind_last hl.start hlink hs
      cases h
  · intro m' es h replace saved hsave restored hr env' wallet earliestKeyTime
    obtain ⟨s, b, hs, hb, hhash⟩ := BlockStore.restore_tip (hrun m' es h replace saved hsave).1 hr
      (ofCheckpoints_orphans env'.checkpointArray earliestKeyTime)
    rw [placeBlock_blockHash] at hhash
    exact ⟨_, b, by rw [new, hs]; rfl, hb, hhash⟩

end BRPeerManager

section Sample

/-- The block at height 0. -/
def zerothBlock : ChainBlock where
  addr := 1
  blockHash := 100
  prevBlock := 0
  timestamp := 1600000000
  target := 0
  height := 0

/-- A tree of two blocks. -/
def shortTree : BlockTree where
  parent h := if h = 101 then 100 else 0
  height h := if h = 101 then 1 else 0
  height_eq := by
    intro h hne
    split_ifs at hne with heq
    · subst heq
      rfl
    · exact absurd rfl hne

/-- A manager that waits for one block. -/
def zerothManager : BRPeerManager where
  blocks := [zerothBlock]
  orphans := []
  checkpoints := []
  lastBlock := some zerothBlock
  estimatedHeight := 1
  wallet := .empty bareKey
  earliestKeyTime := 1500000000
  bloomFilter := some (.new 1 1 0 0)

theorem syncStart_zerothManager :
    SyncStart shortTree zerothManager zerothBlock := by
  have hholds : shortTree.Holds zerothBlock := ⟨by decide, Or.inr rfl, rfl⟩
  refine ⟨⟨?_, ?_, ?_⟩, rfl, rfl, rfl⟩
  · intro h b hget
    rw [List.mem_singleton.mp (BlockSet.mem_of_get hget)]
    exact hholds
  · intro b hb
    cases hb
  · intro b hb
    cases hb
    exact hholds

/-- The block behind it completes the download, and both are saved. -/
theorem savesChain_zerothManager :
    BRPeerManager.SavesChain shortTree (quietEnv []) samplePeer zerothManager
        (relayedSample 101 100) ∧
      (zerothManager.relayedBlock (quietEnv []) samplePeer
          (relayedSample 101 100)).toOption.map Prod.snd =
        some [.saveBlocks true [zerothManager.placeBlock (relayedSample 101 100), zerothBlock]] :=
  ⟨BRPeerManager.synced_savesChain syncStart_zerothManager (.nil _) rfl rfl ⟨by decide, rfl⟩,
    by decide +kernel⟩

end Sample

end BreadwalletCore
