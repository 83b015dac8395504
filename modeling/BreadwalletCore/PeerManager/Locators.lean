import BreadwalletCore.PeerManager.BlockTree

/-!
# Block locators

`_BRPeerManagerBlockLocators`: the ten most recent blocks, then blocks at
distances that double, and the genesis block.  A step back can end in the middle,
where no more blocks are stored.

The step is an `int32_t`.  Doubling it overflows when the chain has more than
`2 ^ 31 + 7` blocks above the genesis block.
-/

namespace BreadwalletCore

open Machine Ancestry

/-- What `_BRPeerManagerBlockLocators` can do instead of returning. -/
inductive LocatorFault
  /-- `step *= 2` is not an `int32_t`. -/
  | stepOverflow
  | outOfFuel
deriving DecidableEq, Repr

/-- `GENESIS_BLOCK_HASH`. -/
def genesisBlockHash (checkpointArray : List Checkpoint) : UInt256 :=
  (checkpointArray.head?.map Checkpoint.hash).getD 0

/-- `if (locators && i < locatorsCount) locators[i] = hash;`. -/
def writeLocator (locators : Option (List UInt256)) (i : ℕ) (hash : UInt256) :
    Option (List UInt256) :=
  locators.map (fun l => if i < l.length then l.set i hash else l)

/-- `step *= 2`. -/
def doubleStep (step : ℕ) : Except LocatorFault ℕ :=
  if step * 2 < 2 ^ 31 then pure (step * 2) else throw .stepOverflow

/-- `if (++i >= 10) step *= 2;`. -/
def nextStep (i step : ℕ) : Except LocatorFault ℕ :=
  if 10 ≤ i + 1 then doubleStep step else pure step

namespace BlockSet

/-- `for (j = 0; block && j < step; j++)`. -/
def stepBack (blocks : BlockSet) : ℕ → Option ChainBlock → Option ChainBlock
  | 0, block => block
  | _ + 1, none => none
  | step + 1, some b => stepBack blocks step (blocks.get b.prevBlock)

/-- `while (block && block->height > 0)`. -/
def locatorLoop (blocks : BlockSet) :
    ℕ → Option ChainBlock → ℕ → ℕ → Option (List UInt256) →
      Except LocatorFault (Option (List UInt256) × ℕ)
  | 0, _, _, _, _ => throw .outOfFuel
  | _ + 1, none, _, i, locators => pure (locators, i)
  | n + 1, some b, step, i, locators =>
      if 0 < b.height then do
        let locators := writeLocator locators i b.blockHash
        let step ← nextStep i step
        locatorLoop blocks n (blocks.stepBack step (some b)) step (i + 1) locators
      else pure (locators, i)

end BlockSet

namespace BlockStore

/-- `_BRPeerManagerBlockLocators`: the array afterwards, and the count.  The
step overflows before the loop has run forty times. -/
def blockLocators (checkpointArray : List Checkpoint) (s : BlockStore)
    (locators : Option (List UInt256)) : Except LocatorFault (Option (List UInt256) × ℕ) := do
  let (locators, i) ← s.blocks.locatorLoop 40 s.lastBlock 1 0 locators
  pure (writeLocator locators i (genesisBlockHash checkpointArray), i + 1)

end BlockStore

/-! ## The distances -/

/-- The step to the locator with this index: one up to the tenth locator, then
twice the step before. -/
def stride (i : ℕ) : ℕ :=
  2 ^ (i - 9)

/-- The distance of the locator with this index from `lastBlock`. -/
def locatorDistance : ℕ → ℕ
  | 0 => 0
  | i + 1 => locatorDistance i + stride (i + 1)

example : (List.range 16).map locatorDistance =
    [0, 1, 2, 3, 4, 5, 6, 7, 8, 9, 11, 15, 23, 39, 71, 135] := by decide

theorem stride_pos
    (i : ℕ) :
    0 < stride i :=
  Nat.two_pow_pos _

theorem locatorDistance_lt
    {i j : ℕ}
    (h : i < j) :
    locatorDistance i < locatorDistance j := by
  induction j, h using Nat.le_induction with
  | base =>
      exact Nat.lt_add_of_pos_right (stride_pos _)
  | succ j hij ih =>
      exact ih.trans (Nat.lt_add_of_pos_right (stride_pos _))

theorem locatorDistance_le
    {i j : ℕ}
    (h : i ≤ j) :
    locatorDistance i ≤ locatorDistance j := by
  rcases h.eq_or_lt with rfl | h
  · exact le_rfl
  · exact (locatorDistance_lt h).le

/-- The step of the next round. -/
theorem nextStep_eq
    {i : ℕ}
    (hi : i < 39) :
    nextStep i (stride i) = .ok (stride (i + 1)) := by
  rw [nextStep]
  by_cases h : 10 ≤ i + 1
  · have hdouble : stride i * 2 = stride (i + 1) := by
      rw [stride, stride, show i + 1 - 9 = i - 9 + 1 by omega, pow_succ]
    have hlt : stride (i + 1) < 2 ^ 31 := Nat.pow_lt_pow_right (by omega) (by omega)
    rw [if_pos h, doubleStep, hdouble, if_pos hlt]
    rfl
  · rw [if_neg h, stride, stride, show i - 9 = 0 by omega, show i + 1 - 9 = 0 by omega]
    rfl

/-! ## The array -/

section Array

variable {locators : Option (List UInt256)} {mem l : List UInt256} {i : ℕ}

/-- Write locators from an index on. -/
def writeLocators (locators : Option (List UInt256)) : ℕ → List UInt256 → Option (List UInt256)
  | _, [] => locators
  | i, hash :: l => writeLocators (writeLocator locators i hash) (i + 1) l

theorem writeLocators_none :
    writeLocators none i l = none := by
  induction l generalizing i with
  | nil =>
      rfl
  | cons hash l ih =>
      exact ih

theorem writeLocators_concat
    (hash : UInt256) :
    writeLocators locators i (l ++ [hash]) =
      writeLocator (writeLocators locators i l) (i + l.length) hash := by
  induction l generalizing locators i with
  | nil =>
      rfl
  | cons h l ih =>
      rw [List.cons_append, writeLocators, ih, writeLocators, List.length_cons,
        Nat.add_assoc i 1, Nat.add_comm 1]

/-- The array is filled as far as it goes, and keeps what is behind. -/
theorem writeLocators_some :
    writeLocators (some mem) i l =
      some (mem.take i ++ (l.take (mem.length - i) ++ mem.drop (i + l.length))) := by
  induction l generalizing mem i with
  | nil =>
      rw [writeLocators, List.take_nil, List.nil_append, List.length_nil, Nat.add_zero,
        List.take_append_drop]
  | cons hash l ih =>
      rw [writeLocators, writeLocator, Option.map_some, List.length_cons, ← Nat.add_assoc,
        Nat.add_right_comm]
      by_cases hi : i < mem.length
      · have htake : (mem.set i hash).take (i + 1) = mem.take i ++ [hash] := by
          rw [List.take_set, List.take_succ_eq_append_getElem hi, List.set_append_right _ _ (by simp)]
          simp [Nat.min_eq_left hi.le]
        have hdrop : (mem.set i hash).drop (i + 1 + l.length) = mem.drop (i + 1 + l.length) :=
          List.drop_set_of_lt (by omega)
        rw [if_pos hi, ih, htake, hdrop, List.length_set,
          show mem.length - i = mem.length - (i + 1) + 1 by omega, List.take_succ_cons,
          List.append_assoc, List.singleton_append, List.cons_append]
      · have htake : mem.take (i + 1) = mem.take i := by
          rw [List.take_of_length_le (by omega), List.take_of_length_le (by omega)]
        rw [if_neg hi, ih, htake, show mem.length - i = 0 by omega,
          show mem.length - (i + 1) = 0 by omega, List.take_zero, List.take_zero]

end Array

/-! ## The chain below `lastBlock` -/

namespace BlockStore

section Chain

/-- The ancestor of `lastBlock` at a distance. -/
def ancestorAt (s : BlockStore) (d : ℕ) : Option ChainBlock :=
  s.lastBlock.bind (ancestor s.blocks.parent d)

/-- The heights of the stored ancestors of `lastBlock` go down by one. -/
def Descends (s : BlockStore) : Prop :=
  ∀ d b p, s.ancestorAt d = some b → s.ancestorAt (d + 1) = some p → b.height = p.height + 1

/-- There is a locator for this distance. -/
def Located (s : BlockStore) (d : ℕ) (b : ChainBlock) : Prop :=
  s.ancestorAt d = some b ∧ 0 < b.height

variable {s : BlockStore} {d e m n i : ℕ} {b c : ChainBlock}

theorem ancestorAt_zero :
    s.ancestorAt 0 = s.lastBlock := by
  rw [ancestorAt]
  cases s.lastBlock <;> rfl

theorem ancestorAt_add
    (s : BlockStore) (d m : ℕ) :
    s.ancestorAt (d + m) = (s.ancestorAt d).bind (ancestor s.blocks.parent m) := by
  rw [ancestorAt, ancestorAt, Option.bind_assoc]
  exact congrArg _ (funext fun b => ancestor_add _ d m b)

theorem Descends.height_eq
    (hs : s.Descends)
    (hb : s.ancestorAt d = some b)
    (hc : s.ancestorAt (d + m) = some c) :
    b.height = c.height + m := by
  induction m generalizing c with
  | zero =>
      rw [Nat.add_zero, hb] at hc
      cases hc
      rfl
  | succ m ih =>
      have hsome : (s.ancestorAt (d + m)).isSome := by
        rw [← Nat.add_assoc, ancestorAt_add] at hc
        obtain ⟨p, hp, -⟩ := Option.bind_eq_some_iff.mp hc
        exact Option.isSome_iff_exists.mpr ⟨p, hp⟩
      obtain ⟨p, hp⟩ := Option.isSome_iff_exists.mp hsome
      have hstep := hs (d + m) p c hp hc
      rw [ih hp, hstep]
      omega

/-- Nearer than an ancestor with a height there is another one. -/
theorem Descends.located_of_le
    (hs : s.Descends)
    (hc : s.Located e c)
    (h : d ≤ e) :
    ∃ b, s.Located d b := by
  obtain ⟨m, rfl⟩ := Nat.exists_eq_add_of_le h
  obtain ⟨b, hb, -⟩ := Option.bind_eq_some_iff.mp ((ancestorAt_add s d m).symm.trans hc.1)
  have hheight := hs.height_eq hb hc.1
  have hpos := hc.2
  exact ⟨b, hb, by omega⟩

theorem stepBack_eq
    (blocks : BlockSet) (n : ℕ) (block : Option ChainBlock) :
    blocks.stepBack n block = block.bind (ancestor blocks.parent n) := by
  induction n generalizing block with
  | zero =>
      cases block <;> rfl
  | succ n ih =>
      cases block with
      | none =>
          rfl
      | some b =>
          exact ih _

/-- One round goes from the place of one locator to that of the next. -/
theorem locatorLoop_round
    (hb : s.Located (locatorDistance i) b)
    (hi : i < 39)
    (n : ℕ) (locators : Option (List UInt256)) :
    s.blocks.locatorLoop (n + 1) (s.ancestorAt (locatorDistance i)) (stride i) i locators =
      s.blocks.locatorLoop n (s.ancestorAt (locatorDistance (i + 1))) (stride (i + 1)) (i + 1)
        (writeLocator locators i b.blockHash) := by
  rw [hb.1, BlockSet.locatorLoop, if_pos hb.2]
  dsimp only
  rw [nextStep_eq hi, ok_bind, stepBack_eq, ← hb.1, ← ancestorAt_add]
  rfl

/-- The loop stops where there is no locator. -/
theorem locatorLoop_stop
    (hnone : ¬ ∃ b, s.Located d b)
    (n step i : ℕ) (locators : Option (List UInt256)) :
    s.blocks.locatorLoop (n + 1) (s.ancestorAt d) step i locators = .ok (locators, i) := by
  cases hblock : s.ancestorAt d with
  | none =>
      rfl
  | some b =>
      have hzero : ¬ 0 < b.height := fun hpos => hnone ⟨b, hblock, hpos⟩
      rw [BlockSet.locatorLoop, if_neg hzero]
      rfl

/-- A chain that is long enough overflows the step. -/
theorem locatorLoop_overflow
    (hs : s.Descends)
    (hlong : s.Located (locatorDistance 39) c)
    (hi : i ≤ 39)
    (hn : n + i = 40)
    (locators : Option (List UInt256)) :
    s.blocks.locatorLoop n (s.ancestorAt (locatorDistance i)) (stride i) i locators =
      .error .stepOverflow := by
  induction n generalizing i locators with
  | zero =>
      omega
  | succ n ih =>
      obtain ⟨b, hb⟩ := hs.located_of_le hlong (locatorDistance_le hi)
      by_cases hlast : i = 39
      · subst hlast
        have hover : nextStep 39 (stride 39) = .error .stepOverflow := by
          decide
        rw [hb.1, BlockSet.locatorLoop, if_pos hb.2]
        dsimp only
        rw [hover]
        rfl
      · rw [locatorLoop_round hb (by omega)]
        exact ih (by omega) (by omega) _

/-- On a shorter chain the loop writes the hashes of the ancestors at the
distances of the locators. -/
theorem locatorLoop_eq
    (hs : s.Descends)
    (hshort : ¬ ∃ c, s.Located (locatorDistance 39) c)
    (hi : i ≤ 39)
    (hn : n + i = 40) :
    ∃ bs : List ChainBlock,
      (∀ k b, bs[k]? = some b ↔ s.Located (locatorDistance (i + k)) b) ∧
      ∀ locators, s.blocks.locatorLoop n (s.ancestorAt (locatorDistance i)) (stride i) i locators =
        .ok (writeLocators locators i (bs.map ChainBlock.blockHash), i + bs.length) := by
  induction n generalizing i with
  | zero =>
      omega
  | succ n ih =>
      by_cases hpresent : ∃ b, s.Located (locatorDistance i) b
      · obtain ⟨b, hb⟩ := hpresent
        have hlt : i < 39 := by
          rcases hi.eq_or_lt with rfl | hlt
          · exact absurd ⟨b, hb⟩ hshort
          · exact hlt
        obtain ⟨bs, hlisted, hloop⟩ := ih (i := i + 1) (by omega) (by omega)
        refine ⟨b :: bs, fun k c => ?_, fun locators => ?_⟩
        · cases k with
          | zero =>
              rw [List.getElem?_cons_zero, Nat.add_zero]
              refine ⟨fun h => Option.some.inj h ▸ hb, fun h => ?_⟩
              rw [← hb.1, h.1]
          | succ k =>
              rw [List.getElem?_cons_succ, hlisted, Nat.add_right_comm, Nat.add_assoc]
        · rw [locatorLoop_round hb hlt, hloop, List.map_cons, writeLocators, List.length_cons,
            Nat.add_right_comm, Nat.add_assoc]
      · refine ⟨[], fun k c => ?_, fun locators => locatorLoop_stop hpresent _ _ _ _⟩
        refine ⟨fun h => absurd h (by simp), fun h => ?_⟩
        exact absurd (hs.located_of_le h (locatorDistance_le (Nat.le_add_right i k))) hpresent

end Chain

end BlockStore

/-! ## The locators -/

namespace BlockStore

section Locators

variable (checkpointArray : List Checkpoint) (s : BlockStore)

/-- The hashes of the ancestors at the distances of the locators, while there
are such ancestors above the genesis block, and that of the genesis block. -/
structure AreLocators (ancestors : List ChainBlock) (locators : List UInt256) : Prop where
  hashes : locators =
    ancestors.map ChainBlock.blockHash ++ [genesisBlockHash checkpointArray]
  listed : ∀ i b, ancestors[i]? = some b ↔
    s.ancestorAt (locatorDistance i) = some b ∧ 0 < b.height
  /-- the genesis block has the height 0 -/
  heights : (ancestors.map ChainBlock.height ++ [0]).Pairwise (· > ·)

/-- The function returns, with `NULL` the number of locators, and with an array
also the locators, as far as there is room. -/
def LocatesChain : Prop :=
  ∃ ancestors locators, s.AreLocators checkpointArray ancestors locators ∧
    s.blockLocators checkpointArray none = .ok (none, locators.length) ∧
    ∀ mem : List UInt256, s.blockLocators checkpointArray (some mem) =
      .ok (some (locators.take mem.length ++ mem.drop locators.length), locators.length)

variable {checkpointArray s} {n : ℕ}

theorem heights_pairwise
    (hs : s.Descends)
    {bs : List ChainBlock}
    (hlisted : ∀ i b, bs[i]? = some b ↔ s.Located (locatorDistance i) b) :
    (bs.map ChainBlock.height ++ [0]).Pairwise (· > ·) := by
  have hget : ∀ i (hi : i < bs.length), s.Located (locatorDistance i) bs[i] :=
    fun i hi => (hlisted i _).mp (List.getElem?_eq_getElem hi)
  rw [List.pairwise_append]
  refine ⟨?_, List.pairwise_singleton _ _, ?_⟩
  · rw [List.pairwise_map, List.pairwise_iff_getElem]
    intro i j hi hj hij
    have hdistance := locatorDistance_lt hij
    obtain ⟨m, hm⟩ := Nat.exists_eq_add_of_le hdistance.le
    have hj' := (hget j hj).1
    rw [hm] at hj'
    have hheight := hs.height_eq (hget i hi).1 hj'
    omega
  · intro h hh last hlast
    obtain ⟨b, hb, rfl⟩ := List.mem_map.mp hh
    obtain ⟨i, hi, rfl⟩ := List.getElem_of_mem hb
    rw [List.mem_singleton.mp hlast]
    exact (hget i hi).2

/-- Where the step overflows, the function does not return. -/
theorem not_locatesChain_of_located
    (hs : s.Descends)
    {c : ChainBlock}
    (hc : s.Located (locatorDistance 39) c) :
    ¬ s.LocatesChain checkpointArray := by
  rintro ⟨ancestors, locators, -, hcount, -⟩
  have hoverflow := locatorLoop_overflow hs hc (Nat.zero_le 39) rfl none
  rw [show locatorDistance 0 = 0 from rfl, ancestorAt_zero] at hoverflow
  rw [blockLocators, show (1 : ℕ) = stride 0 from rfl, hoverflow] at hcount
  cases hcount

/-! ## A chain of a given length -/

/-- The block at a height, with hashes that count. -/
def numberedBlock (height : ℕ) : ChainBlock where
  addr := height
  blockHash := BitVec.ofNat 256 (height + 1)
  prevBlock := BitVec.ofNat 256 height
  timestamp := 0
  target := 0
  height := height

/-- All blocks up to a height. -/
def numberedStore (n : ℕ) : BlockStore where
  blocks := (List.range (n + 1)).map numberedBlock
  orphans := []
  checkpoints := []
  lastBlock := some (numberedBlock n)

theorem toNat_numberedBlock_blockHash
    {h : ℕ}
    (hh : h + 1 < 2 ^ 256) :
    (numberedBlock h).blockHash.toNat = h + 1 := by
  rw [numberedBlock, BitVec.toNat_ofNat, Nat.mod_eq_of_lt hh]

theorem parent_numberedBlock_succ
    (hn : n + 1 < 2 ^ 256)
    {h : ℕ}
    (hh : h < n) :
    (numberedStore n).blocks.parent (numberedBlock (h + 1)) = some (numberedBlock h) := by
  have hnodup : (((List.range (n + 1)).map numberedBlock).map ChainBlock.blockHash).Nodup := by
    rw [List.map_map]
    refine List.Nodup.map_on (fun i hi j hj hij => ?_) List.nodup_range
    rw [List.mem_range] at hi hj
    have heq := congrArg BitVec.toNat hij
    rw [Function.comp_apply, Function.comp_apply, toNat_numberedBlock_blockHash (by omega),
      toNat_numberedBlock_blockHash (by omega)] at heq
    omega
  exact KeyedList.get_eq_some_of_mem hnodup
    (List.mem_map_of_mem (List.mem_range.mpr (by omega)))

theorem parent_numberedBlock_zero
    (hn : n + 1 < 2 ^ 256) :
    (numberedStore n).blocks.parent (numberedBlock 0) = none := by
  cases hget : (numberedStore n).blocks.parent (numberedBlock 0) with
  | none =>
      rfl
  | some b =>
      obtain ⟨i, hi, rfl⟩ := List.mem_map.mp (BlockSet.mem_of_get hget)
      have hhash := congrArg BitVec.toNat (BlockSet.get_hash hget)
      rw [List.mem_range] at hi
      rw [toNat_numberedBlock_blockHash (by omega)] at hhash
      simp [numberedBlock] at hhash

theorem ancestorAt_numberedStore
    (hn : n + 1 < 2 ^ 256)
    {d : ℕ} {b : ChainBlock} :
    (numberedStore n).ancestorAt d = some b ↔ d ≤ n ∧ b = numberedBlock (n - d) := by
  induction d generalizing b with
  | zero =>
      rw [ancestorAt_zero]
      exact ⟨fun h => ⟨Nat.zero_le n, (Option.some.inj h).symm⟩, fun h => congrArg some h.2.symm⟩
  | succ d ih =>
      rw [ancestorAt_add, Option.bind_eq_some_iff]
      simp only [ih, ancestor_one]
      constructor
      · rintro ⟨c, ⟨hd, rfl⟩, hup⟩
        rcases hd.eq_or_lt with rfl | hlt
        · rw [Nat.sub_self, parent_numberedBlock_zero hn] at hup
          cases hup
        · rw [show n - d = n - (d + 1) + 1 by omega,
            parent_numberedBlock_succ hn (by omega)] at hup
          exact ⟨hlt, (Option.some.inj hup).symm⟩
      · rintro ⟨hlt, rfl⟩
        refine ⟨_, ⟨by omega, rfl⟩, ?_⟩
        rw [show n - d = n - (d + 1) + 1 by omega]
        exact parent_numberedBlock_succ hn (by omega)

theorem descends_numberedStore
    (hn : n + 1 < 2 ^ 256) :
    (numberedStore n).Descends := by
  intro d b p hb hp
  obtain ⟨-, rfl⟩ := (ancestorAt_numberedStore hn).mp hb
  obtain ⟨hlt, rfl⟩ := (ancestorAt_numberedStore hn).mp hp
  change n - d = n - (d + 1) + 1
  omega

/-- The locators are those of the chain exactly if there is no block above the
genesis block at the distance where the step would overflow. -/
theorem locatesChain_iff
    (hs : s.Descends) :
    s.LocatesChain checkpointArray ↔
      ∀ b, s.ancestorAt (2 ^ 31 + 7) = some b → b.height = 0 := by
  have hdistance : locatorDistance 39 = 2 ^ 31 + 7 := by
    decide
  have hstart : s.ancestorAt (locatorDistance 0) = s.lastBlock := ancestorAt_zero
  constructor
  · intro hlocates b hb
    by_contra hne
    rw [← hdistance] at hb
    exact not_locatesChain_of_located hs ⟨hb, Nat.pos_of_ne_zero hne⟩ hlocates
  · intro hshort
    have hnone : ¬ ∃ c, s.Located (locatorDistance 39) c := by
      rintro ⟨c, hc, hpos⟩
      rw [hdistance] at hc
      exact hpos.ne' (hshort c hc)
    obtain ⟨bs, hlisted, hloop⟩ := locatorLoop_eq hs hnone (Nat.zero_le 39) rfl
    simp only [Nat.zero_add] at hlisted hloop
    have hrun : ∀ locators, s.blockLocators checkpointArray locators =
        .ok (writeLocators locators 0
          (bs.map ChainBlock.blockHash ++ [genesisBlockHash checkpointArray]),
          (bs.map ChainBlock.blockHash ++ [genesisBlockHash checkpointArray]).length) := by
      intro locators
      rw [writeLocators_concat, List.length_append, List.length_map, Nat.zero_add, blockLocators,
        show (1 : ℕ) = stride 0 from rfl, ← hstart, hloop]
      rfl
    refine ⟨bs, _, ⟨rfl, hlisted, heights_pairwise hs hlisted⟩, ?_, fun mem => ?_⟩
    · rw [hrun, writeLocators_none]
    · rw [hrun, writeLocators_some, List.take_zero, List.nil_append, Nat.sub_zero, Nat.zero_add]

/-- A chain of thirteen blocks. -/
theorem locatesChain_thirteen :
    (numberedStore 12).LocatesChain
      [⟨0, 0x604148281e5c4b7f2487e5d03cd60d8e6f69411d613f6448034508cea52e9574, 1492973331,
        0x1e0ffff0⟩] := by
  have hn : 12 + 1 < 2 ^ 256 := by
    norm_num
  refine (locatesChain_iff (descends_numberedStore hn)).mpr (fun b hb => ?_)
  exact absurd ((ancestorAt_numberedStore hn).mp hb).1 (by norm_num)

/-- On a chain of `2 ^ 31 + 9` blocks the step overflows. -/
theorem not_locatesChain_numberedStore :
    (numberedStore (2 ^ 31 + 8)).Descends ∧ ¬ (numberedStore (2 ^ 31 + 8)).LocatesChain
      [⟨0, 0x604148281e5c4b7f2487e5d03cd60d8e6f69411d613f6448034508cea52e9574, 1492973331,
        0x1e0ffff0⟩] := by
  have hn : 2 ^ 31 + 8 + 1 < 2 ^ 256 := by
    norm_num
  have hone : (numberedStore (2 ^ 31 + 8)).Located (locatorDistance 39) (numberedBlock 1) :=
    ⟨(ancestorAt_numberedStore hn).mpr ⟨by decide, rfl⟩, Nat.one_pos⟩
  exact ⟨descends_numberedStore hn,
    not_locatesChain_of_located (descends_numberedStore hn) hone⟩

end Locators

end BlockStore

end BreadwalletCore
