import BreadwalletCore.MerkleBlock.Difficulty
import BreadwalletCore.UInt256.Compact
import BreadwalletCore.UInt256.Divide

/-!
# What Dark Gravity Wave computes

`DarkGravityWaveTargetV3` walks back over at most `DGW_PAST_BLOCKS` blocks.
Here its result is stated for the blocks it finds, in unbounded arithmetic: the
average of their targets, the newest one counted twice, scaled by the time that
they took over the time they should have taken.
-/

namespace BreadwalletCore

open UInt256

namespace GravityWave

/-- The blocks that the loop visits: the block it starts from and its ancestors
in the set, up to a number, or to one that is missing or has no height. -/
def pastBlocks (blocks : BlockSet) : ℕ → Option ChainBlock → List ChainBlock
  | 0, _ => []
  | _ + 1, none => []
  | n + 1, some b =>
      if 0 < b.height then b :: pastBlocks blocks n (blocks.get b.prevBlock) else []

/-- The sum of the targets, with the one of the newest block twice. -/
def targetSum (past : List ChainBlock) : ℕ :=
  (past.head?.map (expansion ·.target)).getD 0 + (past.map (expansion ·.target)).sum

/-- The time from the oldest block to the newest one. -/
def elapsed : List ChainBlock → ℤ
  | [] => 0
  | b :: past => b.timestamp.toNat - ((b :: past).getLast (by simp)).timestamp.toNat

/-- The average target, rounded down. -/
def averageTarget (past : List ChainBlock) : ℕ :=
  targetSum past / (past.length + 1)

/-- The time taken, at least a third and at most three times what it should be. -/
def clampedTimespan (past : List ChainBlock) : ℕ :=
  (min (max (elapsed past) (60 * past.length / 3)) (3 * (60 * past.length))).toNat

/-- The new target before it is made compact. -/
def scaledTarget (past : List ChainBlock) : ℕ :=
  averageTarget past * clampedTimespan past / (60 * past.length)

/-- The target that the past blocks ask for. -/
def wantedTarget (past : List ChainBlock) : UInt32 :=
  min BRMerkleBlock.maxProofOfWork (packCompact (compactFloat.encode (scaledTarget past)))

section Visit

variable {past : List ChainBlock} {b : ChainBlock}

/-- What the variables of the loop are after some blocks. -/
structure Visited (past : List ChainBlock) (s : GravityWave) : Prop where
  blockCount : s.blockCount = past.length + 1
  sumTargets : s.sumTargets.toNat = targetSum past
  actualTimespan : s.actualTimespan = elapsed past
  lastBlockTime : s.lastBlockTime = (past.getLast?.map (·.timestamp.toNat)).getD 0

end Visit

section Target

variable {past : List ChainBlock} {s : GravityWave}

/-- The numbers behind the loop: the average `darkTarget` and its scaled value
`q`, with a product that fits into 256 bits between them. -/
structure Scaled (past : List ChainBlock) (s : GravityWave) (darkTarget q : UInt256) : Prop where
  divide_sum : divide s.sumTargets (ofU64 [UInt64.ofNat s.blockCount, 0, 0, 0]) = .ok darkTarget
  average : darkTarget.toNat = averageTarget past
  product : (multiplyThis32 darkTarget (UInt32.ofInt (clampedTimespan past))).toNat =
    averageTarget past * clampedTimespan past
  divide_product : divide (multiplyThis32 darkTarget (UInt32.ofInt (clampedTimespan past)))
    (ofU64 [UInt64.ofInt (60 * past.length), 0, 0, 0]) = .ok q
  scaled : q.toNat = scaledTarget past

end Target

section Refinement

variable {previous : ChainBlock} {blocks : BlockSet}

/-- The blocks that `DarkGravityWaveTargetV3` looks at. -/
def window (blocks : BlockSet) (previous : ChainBlock) : List ChainBlock :=
  pastBlocks blocks dgwPastBlocks (some previous)

/-- The code computes the wanted target in unbounded arithmetic. -/
structure Refines (previous : ChainBlock) (blocks : BlockSet) : Prop where
  length_pos : 1 ≤ (window blocks previous).length
  length_le : (window blocks previous).length ≤ dgwPastBlocks
  height_pos : ∀ b ∈ window blocks previous, 0 < b.height
  result : darkGravityWaveTargetV3 previous blocks = .ok (wantedTarget (window blocks previous))
  /-- the variables after `k` rounds -/
  rounds : ∀ k ≤ dgwPastBlocks,
    Visited ((window blocks previous).take k) (loop blocks k (some previous) {})
  timespans : ∀ k, |elapsed ((window blocks previous).take k)| < 2 ^ 31
  scaled : ∃ darkTarget q, Scaled (window blocks previous)
    (loop blocks dgwPastBlocks (some previous) {}) darkTarget q
  /-- the rest of the set does not matter -/
  local_result : ∀ blocks' : BlockSet, blocks'.get previous.blockHash = some previous →
    window blocks' previous = window blocks previous →
      darkGravityWaveTargetV3 previous blocks' = darkGravityWaveTargetV3 previous blocks

end Refinement

section Sample

end Sample

end GravityWave

end BreadwalletCore
