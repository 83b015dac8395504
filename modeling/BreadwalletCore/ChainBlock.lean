import BreadwalletCore.Data.KeyedList
import BreadwalletCore.Transaction

/-!
# Blocks of the chain

A `BRMerkleBlock` as the difficulty check and the peer manager see it: an
object at an address that is linked to others by hashes.  `txHashes` is what
`BRMerkleBlockTxHashes` returns for it.

The three sets of the peer manager compare blocks by `blockHash`, by
`prevBlock` and by `height`.  Heights are natural numbers; a `uint32_t` would
overflow after `2 ^ 32` blocks.
-/

namespace BreadwalletCore

/-- `BLOCK_DIFFICULTY_INTERVAL`. -/
def blockDifficultyInterval : ℕ := 2016

/-- `DGW_BLOCK_DIFFICULTY_INTERVAL`. -/
def dgwBlockDifficultyInterval : ℕ := 1

/-- `BLOCK_UNKNOWN_HEIGHT`, that is `INT32_MAX`. -/
def blockUnknownHeight : ℕ := 0x7fffffff

/-- `DGW_PAST_BLOCKS`. -/
def dgwPastBlocks : ℕ := 180

/-- `DGW_START_BLOCK`. -/
def dgwStartBlock : ℕ := 338778

/-- A block object. -/
structure ChainBlock where
  addr : ℕ
  blockHash : UInt256
  prevBlock : UInt256
  timestamp : UInt32
  target : UInt32
  totalTx : UInt32 := 0
  txHashes : List UInt256 := []
  height : ℕ
deriving DecidableEq

/-- A `BRSet` of blocks. -/
abbrev BlockSet := List ChainBlock

namespace BlockSet

/-- `BRSetGet` on a set compared by `BRMerkleBlockEq`. -/
abbrev get (blocks : BlockSet) (blockHash : UInt256) : Option ChainBlock :=
  KeyedList.get (·.blockHash) blocks blockHash

/-- `BRSetGet` on a set compared by `_BRPrevBlockEq`. -/
abbrev getPrev (orphans : BlockSet) (prevBlock : UInt256) : Option ChainBlock :=
  KeyedList.get (·.prevBlock) orphans prevBlock

/-- `BRSetGet` on a set compared by `_BRBlockHeightEq`. -/
abbrev getHeight (checkpoints : BlockSet) (height : ℕ) : Option ChainBlock :=
  KeyedList.get (·.height) checkpoints height

/-- The block reached by following `prevBlock` a number of times. -/
def back (blocks : BlockSet) : ℕ → ChainBlock → Option ChainBlock
  | 0, b => some b
  | n + 1, b => (get blocks b.prevBlock).bind (back blocks n)

end BlockSet

end BreadwalletCore
