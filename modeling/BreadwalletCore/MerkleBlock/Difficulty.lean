import BreadwalletCore.ChainBlock
import BreadwalletCore.Data.Machine
import BreadwalletCore.MerkleBlock
import BreadwalletCore.UInt256

/-!
# Difficulty verification

`BRMerkleBlockVerifyDifficulty` and `DarkGravityWaveTargetV3` of
`BRMerkleBlock.c`, as they are compiled for the main network.

From `DGW_START_BLOCK` on the answer does not only depend on the arguments: a
static counter `pastCount` counts the calls, the first `DGW_PAST_BLOCKS` of
them do not look at the target, and later ones overwrite the outcome of the
check of the links.
-/

namespace BreadwalletCore

open UInt256

/-- `DGW_TARGET_TIMESPAN`. -/
def dgwTargetTimespan : ℤ := 60

/-- The conversion of an integer to `int32_t`. -/
def toInt32 (x : ℤ) : ℤ :=
  (BitVec.ofInt 32 x).toInt

/-- The variables of the loop of `DarkGravityWaveTargetV3`. -/
structure GravityWave where
  blockCount : ℕ := 1
  actualTimespan : ℤ := 0
  lastBlockTime : ℤ := 0
  sumTargets : UInt256 := 0
deriving DecidableEq

/-- One iteration, for the block `currentBlock`. -/
def GravityWave.visit (s : GravityWave) (currentBlock : ChainBlock) : GravityWave :=
  let currentTarget := setCompact currentBlock.target
  { blockCount := s.blockCount + 1
    actualTimespan :=
      if 0 < s.lastBlockTime then
        toInt32 (s.actualTimespan + (s.lastBlockTime - currentBlock.timestamp.toNat))
      else s.actualTimespan
    lastBlockTime := currentBlock.timestamp.toNat
    sumTargets :=
      if s.blockCount = 1 then add currentTarget currentTarget
      else add s.sumTargets currentTarget }

/-- The loop over the past blocks. -/
def GravityWave.loop (blockSet : BlockSet) :
    ℕ → Option ChainBlock → GravityWave → GravityWave
  | 0, _, s => s
  | _ + 1, none, s => s
  | n + 1, some b, s =>
      if 0 < b.height then loop blockSet n (blockSet.get b.prevBlock) (s.visit b)
      else s

/-- The new target out of the collected blocks. -/
def GravityWave.target (s : GravityWave) : Except ArithmeticFault UInt32 := do
  let darkTarget ← divide s.sumTargets (ofU64 [UInt64.ofNat s.blockCount, 0, 0, 0])
  let targetTimespan := (s.blockCount - 1) * dgwTargetTimespan
  let actualTimespan := max s.actualTimespan (targetTimespan / 3)
  let actualTimespan := min actualTimespan (targetTimespan * 3)
  let darkTarget ← divide
    (multiplyThis32 darkTarget (UInt32.ofInt actualTimespan))
    (ofU64 [UInt64.ofInt targetTimespan, 0, 0, 0])
  let compact ← getCompact darkTarget
  pure (if compact > BRMerkleBlock.maxProofOfWork then BRMerkleBlock.maxProofOfWork else compact)

/-- `DarkGravityWaveTargetV3`. -/
def darkGravityWaveTargetV3 (previous : ChainBlock) (blockSet : BlockSet) :
    Except ArithmeticFault UInt32 :=
  match blockSet.get previous.blockHash with
  | none => pure BRMerkleBlock.maxProofOfWork
  | some previousBlock =>
      if previousBlock.height = 0 ∨ previousBlock.height < dgwStartBlock then
        pure BRMerkleBlock.maxProofOfWork
      else (GravityWave.loop blockSet dgwPastBlocks (some previousBlock) {}).target

/-- The arguments of a call. -/
structure DifficultyCall where
  block : ChainBlock
  previous : ChainBlock
  blocks : BlockSet

namespace DifficultyCall

/-- The block is linked to its predecessor. -/
def Linked (c : DifficultyCall) : Prop :=
  c.block.prevBlock = c.previous.blockHash ∧ c.block.height = c.previous.height + 1

instance (c : DifficultyCall) : Decidable c.Linked :=
  inferInstanceAs (Decidable (_ ∧ _))

/-- `abs(diff) < 2` for `diff = block->target - DGWTarget`, which is computed
in `uint32_t` and stored in an `int32_t`. -/
def nearTarget (c : DifficultyCall) (dgwTarget : UInt32) : Except ArithmeticFault Bool :=
  let diff := (c.block.target - dgwTarget).toBitVec.toInt
  if diff = -2 ^ 31 then throw .signedOverflow else pure (decide (|diff| < 2))

/-- The answer while `pastCount` is below `DGW_PAST_BLOCKS`. -/
def early (c : DifficultyCall) : Bool :=
  if c.block.height = 338778 then decide (c.block.target = 0x1b07cf3a) else decide c.Linked

/-- What `r` is set to from `DGW_START_BLOCK` on. -/
def verdict (c : DifficultyCall) (pastCount : ℕ) (dgwTarget : UInt32) :
    Except ArithmeticFault Bool :=
  if pastCount < dgwPastBlocks then pure c.early else c.nearTarget dgwTarget

/-- `BRMerkleBlockVerifyDifficulty`: the answer and the new `pastCount`. -/
def verify (c : DifficultyCall) (pastCount : ℕ) : Except ArithmeticFault (Bool × ℕ) :=
  if dgwStartBlock ≤ c.block.height then do
    let dgwTarget ← darkGravityWaveTargetV3 c.previous c.blocks
    let r ← c.verdict pastCount dgwTarget
    if pastCount = 2 ^ 31 - 1 then throw .signedOverflow else pure (r, pastCount + 1)
  else pure (decide c.Linked, pastCount)

/-- `pastCount` after some calls, starting from the static initialisation. -/
def pastCount (history : List DifficultyCall) : Except ArithmeticFault ℕ :=
  history.foldlM (fun n c => Prod.snd <$> c.verify n) 0

/-- The answer to a call after some other calls. -/
def answer (history : List DifficultyCall) (c : DifficultyCall) : Except ArithmeticFault Bool := do
  let n ← pastCount history
  Prod.fst <$> c.verify n

/-- The target that the past blocks ask for is less than 2 away. -/
def TargetNear (c : DifficultyCall) (dgwTarget : UInt32) : Prop :=
  |(c.block.target.toNat : ℤ) - dgwTarget.toNat| < 2

/-- `previous` has `DGW_PAST_BLOCKS` ancestors in the set. -/
def HasPast (c : DifficultyCall) : Prop :=
  (c.blocks.back dgwPastBlocks c.previous).isSome

/-- The verdict on a block is a function of the chain, whatever has been
verified before. -/
structure ChainFunction (c : DifficultyCall) : Prop where
  sound : ∀ history, answer history c = .ok true →
    c.Linked ∧ (c.HasPast → ∃ dgwTarget,
      darkGravityWaveTargetV3 c.previous c.blocks = .ok dgwTarget ∧ c.TargetNear dgwTarget)
  stable : ∀ history₁ history₂ r₁ r₂,
    answer history₁ c = .ok r₁ → answer history₂ c = .ok r₂ → r₁ = r₂

/-- The check without the target and the check of the target alone give one
answer, and a block that passes is linked to its predecessor and has a target
near the one asked for. -/
def ChecksAgree (c : DifficultyCall) : Prop :=
  ∀ dgwTarget, darkGravityWaveTargetV3 c.previous c.blocks = .ok dgwTarget →
    (c.early = true → c.Linked ∧ (c.HasPast → c.TargetNear dgwTarget)) ∧
      ∀ r, c.nearTarget dgwTarget = .ok r → r = c.early

section Verify

variable {c : DifficultyCall} {n m : ℕ} {r : Bool}

/-- What one call does from `DGW_START_BLOCK` on. -/
theorem verify_eq_ok
    (hstart : dgwStartBlock ≤ c.block.height) :
    c.verify n = .ok (r, m) ↔ n ≠ 2 ^ 31 - 1 ∧ m = n + 1 ∧
      ∃ dgwTarget, darkGravityWaveTargetV3 c.previous c.blocks = .ok dgwTarget ∧
        c.verdict n dgwTarget = .ok r := by
  rw [verify, if_pos hstart, Machine.bind_eq_ok]
  constructor
  · rintro ⟨dgwTarget, hdgw, h⟩
    obtain ⟨r', hr, hret⟩ := Machine.bind_eq_ok.mp h
    split at hret
    · cases hret
    · rename_i hn
      cases hret
      exact ⟨hn, rfl, dgwTarget, hdgw, hr⟩
  · rintro ⟨hn, rfl, dgwTarget, hdgw, hr⟩
    refine ⟨dgwTarget, hdgw, Machine.bind_eq_ok.mpr ⟨r, hr, ?_⟩⟩
    rw [if_neg hn]
    rfl

theorem answer_eq_ok
    {history : List DifficultyCall} :
    answer history c = .ok r ↔
      ∃ n, pastCount history = .ok n ∧ ∃ m, c.verify n = .ok (r, m) := by
  rw [answer, Machine.bind_eq_ok]
  refine exists_congr (fun n => and_congr_right (fun _ => ?_))
  cases c.verify n with
  | error e =>
      constructor
      · intro h
        cases h
      · rintro ⟨m, h⟩
        cases h
  | ok p =>
      constructor
      · intro h
        cases h
        exact ⟨p.2, rfl⟩
      · rintro ⟨m, h⟩
        cases h
        rfl

/-- Repeating a call that finds a target counts up to `DGW_PAST_BLOCKS`. -/
theorem pastCount_replicate
    {dgwTarget : UInt32}
    (hstart : dgwStartBlock ≤ c.block.height)
    (hdgw : darkGravityWaveTargetV3 c.previous c.blocks = .ok dgwTarget)
    (hn : n ≤ dgwPastBlocks) :
    pastCount (List.replicate n c) = .ok n := by
  induction n with
  | zero =>
      rfl
  | succ n ih =>
      have hlt : n < dgwPastBlocks := hn
      have hn' : n ≠ 2 ^ 31 - 1 := by
        rw [dgwPastBlocks] at hlt
        omega
      have hstep : c.verify n = .ok (c.early, n + 1) :=
        (verify_eq_ok hstart).mpr ⟨hn', rfl, dgwTarget, hdgw, if_pos hlt⟩
      have hpre := ih (by omega)
      rw [pastCount] at hpre ⊢
      rw [List.replicate_succ', List.foldlM_append, Machine.bind_eq_ok]
      refine ⟨n, hpre, ?_⟩
      rw [List.foldlM_cons, hstep]
      rfl

/--
**When difficulty verification is a function of the chain.**  From
`DGW_START_BLOCK` on the verdict on a block is sound and the same after every
history of calls, if and only if the check that ignores the target and the
check that ignores the links agree on it.
-/
theorem chainFunction_iff
    (c : DifficultyCall)
    (hstart : dgwStartBlock ≤ c.block.height) :
    c.ChainFunction ↔ c.ChecksAgree := by
  constructor
  · intro h dgwTarget hdgw
    -- the answer to the first call, and the answer behind a full count
    have hfirst : answer [] c = .ok c.early :=
      answer_eq_ok.mpr ⟨0, rfl, 1, (verify_eq_ok hstart).mpr
        ⟨by norm_num, rfl, dgwTarget, hdgw, rfl⟩⟩
    constructor
    · intro hearly
      rw [hearly] at hfirst
      obtain ⟨hlinked, hnear⟩ := h.sound [] hfirst
      refine ⟨hlinked, fun hpast => ?_⟩
      obtain ⟨t, ht, hn⟩ := hnear hpast
      rw [hdgw] at ht
      cases ht
      exact hn
    · intro r hr
      have hlater : answer (List.replicate dgwPastBlocks c) c = .ok r := by
        refine answer_eq_ok.mpr ⟨_, pastCount_replicate hstart hdgw le_rfl, _,
          (verify_eq_ok hstart).mpr ⟨by norm_num [dgwPastBlocks], rfl, dgwTarget, hdgw, ?_⟩⟩
        exact (if_neg (lt_irrefl _)).trans hr
      exact h.stable _ _ _ _ hlater hfirst
  · intro h
    have hearly : ∀ {history r}, answer history c = .ok r → r = c.early := by
      intro history r hans
      obtain ⟨n, -, m, hv⟩ := answer_eq_ok.mp hans
      obtain ⟨-, -, dgwTarget, hdgw, hr⟩ := (verify_eq_ok hstart).mp hv
      rw [verdict] at hr
      split at hr
      · cases hr
        rfl
      · exact (h dgwTarget hdgw).2 r hr
    refine ⟨?_, ?_⟩
    · intro history hans
      obtain ⟨n, -, m, hv⟩ := answer_eq_ok.mp hans
      obtain ⟨-, -, dgwTarget, hdgw, -⟩ := (verify_eq_ok hstart).mp hv
      obtain ⟨hlinked, hnear⟩ := (h dgwTarget hdgw).1 (hearly hans).symm
      exact ⟨hlinked, fun hpast => ⟨dgwTarget, hdgw, hnear hpast⟩⟩
    · intro history₁ history₂ r₁ r₂ h₁ h₂
      rw [hearly h₁, hearly h₂]

end Verify

section Sample

/-- The last block before `DGW_START_BLOCK`. -/
def lastOldBlock : ChainBlock where
  addr := 1
  blockHash := 1
  prevBlock := 0
  timestamp := 1540000000
  target := 0x1b07cf3a
  height := 338777

/-- A successor of `lastOldBlock`. -/
def firstNewBlock (target : UInt32) : DifficultyCall where
  block :=
    { addr := 2, blockHash := 2, prevBlock := 1, timestamp := 1540000060, target := target
      height := 338778 }
  previous := lastOldBlock
  blocks := [lastOldBlock]

/-- A linked block with the least difficulty on an unknown predecessor. -/
def unknownPrevious : DifficultyCall where
  block :=
    { addr := 2, blockHash := 2, prevBlock := 1, timestamp := 1540000060
      target := BRMerkleBlock.maxProofOfWork, height := 338779 }
  previous := { lastOldBlock with height := 338778 }
  blocks := []

theorem chainFunction_unknownPrevious :
    unknownPrevious.ChainFunction := by
  refine (chainFunction_iff unknownPrevious (by decide)).mpr ?_
  intro dgwTarget hdgw
  cases hdgw
  exact ⟨fun _ => ⟨⟨rfl, rfl⟩, fun _ => by norm_num [TargetNear, unknownPrevious]⟩,
    fun r hr => by cases hr; rfl⟩

/-- The genuine block at `DGW_START_BLOCK` is accepted by the first call and
refused after 180 calls. -/
theorem firstNewBlock_unstable :
    ¬ (firstNewBlock 0x1b07cf3a).ChainFunction := by
  intro h
  have hcount := @pastCount_replicate (firstNewBlock 0x1b07cf3a) dgwPastBlocks
    BRMerkleBlock.maxProofOfWork (by decide) rfl le_rfl
  have hfirst : answer [] (firstNewBlock 0x1b07cf3a) = .ok true := by rfl
  have hlater : answer (List.replicate dgwPastBlocks (firstNewBlock 0x1b07cf3a))
      (firstNewBlock 0x1b07cf3a) = .ok false :=
    answer_eq_ok.mpr ⟨_, hcount, _, rfl⟩
  exact absurd (h.stable _ _ _ _ hfirst hlater) (by simp)

end Sample

end DifficultyCall

end BreadwalletCore
