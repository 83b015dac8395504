import BreadwalletCore.PeerManager.TreeOrder
import BreadwalletCore.Wallet.Heights

/-!
# The book of a chain

A transaction is booked behind a block if its height is the one at which the
chain behind the block matches it.  The rules say how a book is kept when a
block is stored, when the chain goes on and when it is reorganised.

A block can be stored again under its hash, and the chains then run through the
new version.
-/

namespace BreadwalletCore

open Machine Ancestry

/-! ## The wallet behind a replay -/

section Replay

variable {w w' : BRWallet} {events : List Event}

theorem Tidy.grown
    (hw : Tidy w)
    (h : w.Grown w') :
    Tidy w' where
  listed := hw.listed.congr h.transactions h.allTx
  sorted := by
    rw [HeightSorted, h.transactions]
    exact hw.sorted
  own := by
    intro tx htx
    rw [h.transactions] at htx
    have hown := hw.own tx htx
    rw [BRWallet.containsTx, Bool.or_eq_true, List.any_eq_true, List.any_eq_true] at hown ⊢
    rcases hown with ⟨o, ho, hmem⟩ | ⟨i, hi, hspends⟩
    · exact Or.inl ⟨o, ho, decide_eq_true (h.allAddrs (of_decide_eq_true hmem))⟩
    · refine Or.inr ⟨i, hi, ?_⟩
      rw [BRWallet.spendsOwn] at hspends ⊢
      rw [h.allTx]
      split at hspends
      · cases hspends
      · split at hspends
        · cases hspends
        · exact decide_eq_true (h.allAddrs (of_decide_eq_true hspends))

/-- What a replay down to a height does: the transactions of the blocks above it
get the heights of these blocks. -/
theorem replayLoop_reheighted
    {env : ℕ} {blocks : BlockSet} {P : ChainBlock → Prop} {joinHeight n : ℕ} {b : ChainBlock}
    (hr : Ranked blocks.parent ChainBlock.height P)
    (hb : P b)
    (hw : Tidy w)
    (h : w.replayLoop env blocks joinHeight n (some b) = .ok (w', events)) :
    Tidy w' ∧ ∀ tx' ∈ w'.transactions, ∃ tx ∈ w.transactions, tx.txHash = tx'.txHash ∧
      (tx'.blockHeight = tx.blockHeight ∧
        (∀ c, Above blocks.parent b c → joinHeight < c.height → tx.txHash ∉ c.txHashes) ∨
      ∃ c, Above blocks.parent b c ∧ joinHeight < c.height ∧ tx.txHash ∈ c.txHashes ∧
        tx'.blockHeight = UInt32.ofNat c.height) := by
  induction n generalizing b w events with
  | zero =>
      cases h
  | succ n ih =>
      rw [BRWallet.replayLoop] at h
      split at h
      · rename_i hlt
        -- the wallet behind the update for `b` itself
        have hupd : ∃ w₁ es₁, w₁.replayLoop env blocks joinHeight n (blocks.get b.prevBlock) =
            .ok (w', es₁) ∧ Tidy w₁ ∧
            Reheighted (fun t x => if t ∈ b.txHashes then UInt32.ofNat b.height else x) w w₁ := by
          dsimp only at h
          split at h
          · rename_i hnil
            refine ⟨w, events, h, hw, fun tx htx => ⟨tx, htx, rfl, ?_⟩⟩
            rw [hnil]
            rfl
          · obtain ⟨⟨w₁, es₁⟩, hupd, h⟩ := bind_eq_ok.mp h
            obtain ⟨⟨w₂, es₂⟩, hrest, hret⟩ := bind_eq_ok.mp h
            cases hret
            have hboth := hw.updateTransactions (callWallet_eq_ok.mp hupd)
            exact ⟨w₁, es₂, hrest, hboth.1, hboth.2⟩
        obtain ⟨w₁, es₁, hrest, hw₁, hre⟩ := hupd
        cases hup : blocks.get b.prevBlock with
        | none =>
            have honly : ∀ c, Above blocks.parent b c → c = b := by
              intro c hc
              rcases hc.cases with rfl | ⟨p, hp, -⟩
              · rfl
              · rw [BlockSet.parent, hup] at hp
                cases hp
            rw [hup] at hrest
            have hend : w' = w₁ := by
              cases n <;> cases hrest
              rfl
            subst hend
            refine ⟨hw₁, ?_⟩
            intro tx' htx'
            obtain ⟨tx, htx, hhash, hheight⟩ := hre tx' htx'
            dsimp only at hheight
            refine ⟨tx, htx, hhash, ?_⟩
            by_cases hmem : tx.txHash ∈ b.txHashes
            · exact Or.inr ⟨b, Above.refl _ _, hlt, hmem, by rw [hheight, if_pos hmem]⟩
            · refine Or.inl ⟨by rw [hheight, if_neg hmem], ?_⟩
              intro c hc _
              rw [honly c hc]
              exact hmem
        | some p =>
            rw [hup] at hrest
            obtain ⟨hw', hrec⟩ := ih (hr.closed hb hup) hw₁ hrest
            refine ⟨hw', ?_⟩
            intro tx' htx'
            obtain ⟨tx₁, htx₁, hhash₁, hcase⟩ := hrec tx' htx'
            obtain ⟨tx, htx, hhash, hheight⟩ := hre tx₁ htx₁
            dsimp only at hheight
            refine ⟨tx, htx, hhash.trans hhash₁, ?_⟩
            rw [← hhash] at hcase
            rcases hcase with ⟨hsame, hno⟩ | ⟨c, hc, hlow, hmem, heq⟩
            · by_cases hmem : tx.txHash ∈ b.txHashes
              · exact Or.inr ⟨b, Above.refl _ _, hlt, hmem, by rw [hsame, hheight, if_pos hmem]⟩
              · refine Or.inl ⟨by rw [hsame, hheight, if_neg hmem], ?_⟩
                intro c hc hlow
                rcases hc.cases with rfl | ⟨p', hp', hc⟩
                · exact hmem
                · rw [BlockSet.parent, hup] at hp'
                  cases hp'
                  exact hno c hc hlow
            · exact Or.inr ⟨c, Above.step hup hc, hlow, hmem, heq⟩
      · rename_i hge
        cases h
        refine ⟨hw, fun tx htx => ⟨tx, htx, rfl, Or.inl ⟨rfl, ?_⟩⟩⟩
        intro c hc hlow
        have := (hr.above_rank hb hc).2
        omega

end Replay

/-! ## The chain behind a block -/

/-- The transactions that a block matches are among those of its hash. -/
def ChainBlock.Matches (matched : UInt256 → UInt256 → Prop) (b : ChainBlock) : Prop :=
  ∀ t ∈ b.txHashes, matched b.blockHash t

/-- A transaction is matched by at most one block of each branch. -/
def OncePerBranch (tree : BlockTree) (matched : UInt256 → UInt256 → Prop) : Prop :=
  ∀ h k t, tree.height h = tree.height (tree.parent^[k] h) + k → matched h t →
    matched (tree.parent^[k] h) t → k = 0

/-- The block has the height of its hash and matches no other transactions than
those of its hash. -/
structure SoundBlock (tree : BlockTree) (matched : UInt256 → UInt256 → Prop) (b : ChainBlock) :
    Prop where
  holds : tree.Holds b
  txs : b.Matches matched

/-- The block is stored, in the place of the one with its hash if there is one. -/
def PutsBlock (block : ChainBlock) (blocks blocks' : BlockSet) : Prop :=
  ∀ h, blocks'.get h = if block.blockHash = h then some block else blocks.get h

section Chain

variable {tree : BlockTree} {matched : UInt256 → UInt256 → Prop}
variable {blocks blocks' : BlockSet} {block a b c last last' x z : ChainBlock}
variable {floor : ℕ} {h t : UInt256}

theorem SoundBlock.ranked
    (hblocks : ∀ h b, blocks.get h = some b → SoundBlock tree matched b) :
    Ranked blocks.parent ChainBlock.height (SoundBlock tree matched) where
  closed := fun _ hup => hblocks _ _ hup
  rank_up := fun ha hup =>
    ha.holds.height_prev (hblocks _ _ hup).holds (BlockSet.get_hash hup).symm

theorem SoundBlock.height_eq
    (ha : SoundBlock tree matched a)
    (hb : SoundBlock tree matched b)
    (h : a.blockHash = b.blockHash) :
    a.height = b.height := by
  rw [ha.holds.height, hb.holds.height, h]

/-- The blocks behind a stored one are stored. -/
theorem stored_of_above
    (ha : blocks.get a.blockHash = some a)
    (hab : Above blocks.parent a b) :
    blocks.get b.blockHash = some b := by
  obtain ⟨n, hn⟩ := hab
  induction n generalizing a with
  | zero =>
      cases hn
      exact ha
  | succ n ih =>
      obtain ⟨p, hup, hn⟩ := Option.bind_eq_some_iff.mp hn
      refine ih ?_ hn
      rw [BlockSet.get_hash hup]
      exact hup

/-- Two blocks of one chain do not match the same transaction. -/
theorem eq_of_match
    (honce : OncePerBranch tree matched)
    (hblocks : ∀ h b, blocks.get h = some b → SoundBlock tree matched b)
    (hlast : SoundBlock tree matched last)
    (ha : Above blocks.parent last a)
    (hb : Above blocks.parent last b)
    (hat : t ∈ a.txHashes)
    (hbt : t ∈ b.txHashes) :
    a = b := by
  have hr := SoundBlock.ranked hblocks
  have hone : ∀ {a b : ChainBlock}, SoundBlock tree matched a → Above blocks.parent a b →
      t ∈ a.txHashes → t ∈ b.txHashes → a = b := by
    rintro a b ha ⟨k, hk⟩ hat hbt
    obtain ⟨hb, hrank⟩ := hr.ancestor_rank ha hk
    have hhash := BlockTree.ancestor_hash (fun h b hb => (hblocks h b hb).holds) ha.holds hk
    rw [ha.holds.height, hb.holds.height, hhash] at hrank
    have hbm := hb.txs t hbt
    rw [hhash] at hbm
    obtain rfl := honce a.blockHash k t hrank (ha.txs t hat) hbm
    exact Option.some.inj hk
  rcases Nat.le_total b.height a.height with hle | hle
  · exact hone (hr.above_rank hlast ha).1 (hr.above_of_le hlast ha hb hle) hat hbt
  · exact (hone (hr.above_rank hlast hb).1 (hr.above_of_le hlast hb ha hle) hbt hat).symm

theorem putsBlock_add
    (blocks : BlockSet) (block : ChainBlock) :
    PutsBlock block blocks (KeyedList.add (·.blockHash) blocks block) :=
  BlockSet.get_add blocks block

/-- A stored block has a version among the new ones. -/
theorem PutsBlock.version
    (hput : PutsBlock block blocks blocks')
    (hb : blocks.get h = some b) :
    ∃ b', blocks'.get h = some b' ∧ (b' = b ∨ b' = block ∧ block.blockHash = h) := by
  rw [hput h]
  by_cases hh : block.blockHash = h
  · rw [if_pos hh]
    exact ⟨block, rfl, Or.inr ⟨rfl, hh⟩⟩
  · rw [if_neg hh]
    exact ⟨b, hb, Or.inl rfl⟩

theorem PutsBlock.sound
    (hput : PutsBlock block blocks blocks')
    (hblocks : ∀ h b, blocks.get h = some b → SoundBlock tree matched b)
    (hblock : SoundBlock tree matched block) :
    ∀ h b, blocks'.get h = some b → SoundBlock tree matched b := by
  intro h b hb
  rw [hput h] at hb
  split at hb
  · cases hb
    exact hblock
  · exact hblocks h b hb

/-- What was behind a block still is, in its present version. -/
theorem PutsBlock.above
    (hput : PutsBlock block blocks blocks')
    (hblocks : ∀ h b, blocks.get h = some b → SoundBlock tree matched b)
    (hparent : block.prevBlock = tree.parent block.blockHash)
    (ha : blocks.get a.blockHash = some a)
    (hab : Above blocks.parent a b) :
    ∃ a' b', blocks'.get a.blockHash = some a' ∧ blocks'.get b.blockHash = some b' ∧
      Above blocks'.parent a' b' := by
  obtain ⟨n, hn⟩ := hab
  induction n generalizing a with
  | zero =>
      cases hn
      obtain ⟨a', ha', -⟩ := hput.version ha
      exact ⟨a', a', ha', ha', Above.refl _ _⟩
  | succ n ih =>
      obtain ⟨p, hup, hn⟩ := Option.bind_eq_some_iff.mp hn
      have hphash : p.blockHash = a.prevBlock := BlockSet.get_hash hup
      have hp : blocks.get p.blockHash = some p := by
        rw [hphash]
        exact hup
      obtain ⟨p', b', hp', hb', habove⟩ := ih hp hn
      obtain ⟨a', ha', hver⟩ := hput.version ha
      have hprev : a'.prevBlock = p.blockHash := by
        rcases hver with rfl | ⟨rfl, hhash⟩
        · exact hphash.symm
        · -- a stored block with a predecessor is no checkpoint
          have hne : a.prevBlock ≠ 0 := by
            rw [← hphash]
            exact (hblocks _ _ hup).holds.hash
          rw [hparent, hhash, hphash]
          exact ((hblocks _ _ ha).holds.parent.resolve_right hne).symm
      refine ⟨a', b', ha', hb', Above.step ?_ habove⟩
      rw [BlockSet.parent, hprev]
      exact hp'

/-- A new block changes no chain. -/
theorem PutsBlock.above_new
    (hput : PutsBlock block blocks blocks')
    (hblocks : ∀ h b, blocks.get h = some b → SoundBlock tree matched b)
    (hparent : block.prevBlock = tree.parent block.blockHash)
    (hnew : blocks.get block.blockHash = none)
    (ha : blocks.get a.blockHash = some a)
    (hab : Above blocks.parent a b) :
    Above blocks'.parent a b := by
  have hsame : ∀ c, blocks.get c.blockHash = some c → blocks'.get c.blockHash = some c := by
    intro c hc
    rw [hput, if_neg, hc]
    intro heq
    rw [heq, hc] at hnew
    cases hnew
  obtain ⟨a', b', ha', hb', habove⟩ := hput.above hblocks hparent ha hab
  rw [hsame a ha] at ha'
  rw [hsame b (stored_of_above ha hab)] at hb'
  cases ha'
  cases hb'
  exact habove

/-- Down to a block that was behind it, a chain has no other hashes. -/
theorem PutsBlock.above_of
    (hput : PutsBlock block blocks blocks')
    (hblocks : ∀ h b, blocks.get h = some b → SoundBlock tree matched b)
    (hblock : SoundBlock tree matched block)
    (hlast : SoundBlock tree matched last)
    (hlast' : SoundBlock tree matched last')
    (hhash : last'.blockHash = last.blockHash)
    (hz : Above blocks.parent last z)
    (hb : Above blocks'.parent last' b)
    (hle : z.height ≤ b.height) :
    ∃ b₀, Above blocks.parent last b₀ ∧ b₀.blockHash = b.blockHash := by
  obtain ⟨k, hk⟩ := hb
  obtain ⟨n, hn⟩ := hz
  have hblocks' := hput.sound hblocks hblock
  have hrank := ((SoundBlock.ranked hblocks').ancestor_rank hlast' hk).2
  have hrankz := ((SoundBlock.ranked hblocks).ancestor_rank hlast hn).2
  have hheight := hlast'.height_eq hlast hhash
  obtain ⟨b₀, hb₀⟩ := Option.isSome_iff_exists.mp
    (ancestor_isSome_of_le (m := k) (by rw [hn]; rfl) (by omega))
  refine ⟨b₀, ⟨k, hb₀⟩, ?_⟩
  rw [BlockTree.ancestor_hash (fun h b hb => (hblocks h b hb).holds) hlast.holds hb₀,
    BlockTree.ancestor_hash (fun h b hb => (hblocks' h b hb).holds) hlast'.holds hk, hhash]

/-! ## The book of one transaction -/

/-- The height of a transaction is the one at which the chain behind `last`
matches it.  Transactions that have been confirmed up to the height `floor` may
have an `old` height. -/
structure Booked (floor : ℕ) (old : UInt256 → UInt32 → Prop) (blocks : BlockSet)
    (last : ChainBlock) (t : UInt256) (height : UInt32) : Prop where
  matched : ∀ b, Above blocks.parent last b → floor < b.height → t ∈ b.txHashes →
    height = UInt32.ofNat b.height
  origin : height = txUnconfirmed ∨
    (∃ b, Above blocks.parent last b ∧ t ∈ b.txHashes ∧ height = UInt32.ofNat b.height) ∨
    old t height ∧ height.toNat ≤ floor

variable {old : UInt256 → UInt32 → Prop} {height height' : UInt32}

/-- A block of the chain matches it. -/
theorem Booked.of_member
    (honce : OncePerBranch tree matched)
    (hblocks : ∀ h b, blocks.get h = some b → SoundBlock tree matched b)
    (hlast : SoundBlock tree matched last)
    (hc : Above blocks.parent last c)
    (hct : t ∈ c.txHashes) :
    Booked floor old blocks last t (UInt32.ofNat c.height) where
  matched := by
    intro b hb _ hbt
    rw [eq_of_match honce hblocks hlast hb hc hbt hct]
  origin := Or.inr (Or.inl ⟨c, hc, hct, rfl⟩)

/-- A block behind which the chain goes on does not match it. -/
theorem Booked.extend
    (hup : blocks.parent block = some last)
    (hnot : t ∉ block.txHashes)
    (h : Booked floor old blocks last t height) :
    Booked floor old blocks block t height where
  matched := by
    intro b hb hlow hbt
    rcases hb.cases with rfl | ⟨p, hp, hb⟩
    · exact absurd hbt hnot
    · rw [hup] at hp
      cases hp
      exact h.matched b hb hlow hbt
  origin := by
    rcases h.origin with h | ⟨b, hb, hbt, heq⟩ | h
    · exact Or.inl h
    · exact Or.inr (Or.inl ⟨b, Above.step hup hb, hbt, heq⟩)
    · exact Or.inr (Or.inr h)

/-- A block is stored that is not on the chain, or matches it there. -/
theorem Booked.put
    (hput : PutsBlock block blocks blocks')
    (hblocks : ∀ h b, blocks.get h = some b → SoundBlock tree matched b)
    (hblock : SoundBlock tree matched block)
    (hparent : block.prevBlock = tree.parent block.blockHash)
    (hkeeps : ∀ v, blocks.get block.blockHash = some v → ∀ t ∈ v.txHashes, t ∈ block.txHashes)
    (hlast : blocks.get last.blockHash = some last)
    (hlast' : blocks'.get last.blockHash = some last')
    (hz : Above blocks.parent last z)
    (hzfloor : z.height ≤ floor)
    (hmember : ∀ b, Above blocks.parent last b → b.blockHash = block.blockHash →
      floor < block.height → t ∈ block.txHashes → height = UInt32.ofNat block.height)
    (h : Booked floor old blocks last t height) :
    Booked floor old blocks' last' t height where
  matched := by
    intro b hb hlow hbt
    have hblocks' := hput.sound hblocks hblock
    obtain ⟨b₀, hb₀, hhash⟩ := hput.above_of hblocks hblock (hblocks _ _ hlast)
      (hblocks' _ _ hlast') (BlockSet.get_hash hlast') hz hb (hzfloor.trans hlow.le)
    have hget := stored_of_above hlast hb₀
    have hget' := stored_of_above (by rw [BlockSet.get_hash hlast']; exact hlast') hb
    rw [hput, ← hhash] at hget'
    split at hget'
    · rename_i heq
      cases hget'
      exact hmember b₀ hb₀ heq.symm hlow hbt
    · rw [hget] at hget'
      cases hget'
      exact h.matched _ hb₀ hlow hbt
  origin := by
    rcases h.origin with h | ⟨b, hb, hbt, heq⟩ | h
    · exact Or.inl h
    · obtain ⟨l, b', hl, hb', habove⟩ := hput.above hblocks hparent hlast hb
      rw [hlast'] at hl
      cases hl
      have hget := stored_of_above hlast hb
      have hheight : b'.height = b.height :=
        ((hput.sound hblocks hblock) _ _ hb').height_eq (hblocks _ _ hget)
          (BlockSet.get_hash hb')
      refine Or.inr (Or.inl ⟨b', habove, ?_, by rw [hheight]; exact heq⟩)
      obtain ⟨v, hv, hver⟩ := hput.version hget
      rw [hb'] at hv
      cases hv
      rcases hver with rfl | ⟨rfl, hhash⟩
      · exact hbt
      · exact hkeeps b (by rw [hhash]; exact hget) t hbt
    · exact Or.inr (Or.inr h)

/-- The heights of a new main chain: what is above the join point is unconfirmed,
and then the new branch is replayed. -/
theorem Booked.reorganize
    (honce : OncePerBranch tree matched)
    (hblocks : ∀ h b, blocks.get h = some b → SoundBlock tree matched b)
    (hknown : ∀ h, tree.height h < blockUnknownHeight)
    (hlast : SoundBlock tree matched last)
    (hblock : SoundBlock tree matched block)
    (hx : Above blocks.parent last x)
    (hbx : Above blocks.parent block x)
    (hreplay : height' = (if UInt32.ofNat x.height < height then txUnconfirmed else height) ∧
        (∀ c, Above blocks.parent block c → x.height < c.height → t ∉ c.txHashes) ∨
      ∃ c, Above blocks.parent block c ∧ x.height < c.height ∧ t ∈ c.txHashes ∧
        height' = UInt32.ofNat c.height)
    (h : Booked floor old blocks last t height) :
    Booked floor old blocks block t height' := by
  have hr := SoundBlock.ranked hblocks
  have hofNat : ∀ {b : ChainBlock}, SoundBlock tree matched b →
      (UInt32.ofNat b.height).toNat = b.height := by
    intro b hb
    have := hknown b.blockHash
    rw [hb.holds.height, UInt32.toNat_ofNat']
    rw [blockUnknownHeight] at this
    exact Nat.mod_eq_of_lt (by omega)
  have hxs := (hr.above_rank hlast hx).1
  rcases hreplay with ⟨hheight, hno⟩ | ⟨c, hc, -, hct, rfl⟩
  · refine ⟨?_, ?_⟩
    · intro b hb hlow hbt
      have hle : b.height ≤ x.height := by
        by_contra hlt
        exact hno b hb (by omega) hbt
      have hbs := (hr.above_rank hblock hb).1
      have hold := h.matched b (hx.trans (hr.above_of_le hblock hbx hb hle)) hlow hbt
      rw [hheight, if_neg, hold]
      rw [hold, UInt32.lt_iff_toNat_lt, hofNat hxs, hofNat hbs]
      omega
    · by_cases hlt : UInt32.ofNat x.height < height
      · rw [if_pos hlt] at hheight
        exact Or.inl hheight
      · rw [if_neg hlt] at hheight
        rw [hheight]
        rcases h.origin with h | ⟨b, hb, hbt, heq⟩ | h
        · exact Or.inl h
        · refine Or.inr (Or.inl ⟨b, hbx.trans (hr.above_of_le hlast hx hb ?_), hbt, heq⟩)
          rw [heq, UInt32.lt_iff_toNat_lt, hofNat hxs,
            hofNat (hr.above_rank hlast hb).1] at hlt
          omega
        · exact Or.inr (Or.inr h)
  · exact .of_member honce hblocks hblock hc hct

/-- Where a walk down to a height ends. -/
theorem walkDown_ok
    {P : ChainBlock → Prop} {height n : ℕ}
    (hr : Ranked blocks.parent ChainBlock.height P)
    (ha : P a)
    (h : blocks.walkDown height n (some a) = .ok (some b)) :
    Above blocks.parent a b ∧ b.height ≤ height ∧ (b = a ∨ b.height = height) := by
  induction n generalizing a with
  | zero =>
      cases h
  | succ n ih =>
      rw [BlockSet.walkDown] at h
      split at h
      · rename_i hlt
        cases hup : blocks.get a.prevBlock with
        | none =>
            rw [hup] at h
            cases n <;> cases h
        | some p =>
            rw [hup] at h
            have hrank := hr.rank_up ha hup
            obtain ⟨hab, hle, hcase⟩ := ih (hr.closed ha hup) h
            refine ⟨Above.step hup hab, hle, Or.inr ?_⟩
            rcases hcase with rfl | heq
            · omega
            · exact heq
      · rename_i hge
        cases h
        exact ⟨Above.refl _ _, by omega, Or.inl rfl⟩

/-- It ends at the block of that height, if there is one. -/
theorem walkDown_eq
    {P : ChainBlock → Prop} {n : ℕ}
    (hr : Ranked blocks.parent ChainBlock.height P)
    (ha : P a)
    (hc : Above blocks.parent a c)
    (h : blocks.walkDown c.height n (some a) = .ok (some b)) :
    b = c := by
  obtain ⟨hab, hle, hcase⟩ := walkDown_ok hr ha h
  refine hr.above_unique ha hab hc ?_
  rcases hcase with rfl | heq
  · have := (hr.above_rank ha hc).2
    omega
  · exact heq

end Chain

end BreadwalletCore
