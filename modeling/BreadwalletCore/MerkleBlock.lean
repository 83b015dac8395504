import BreadwalletCore.Data.LittleEndian
import BreadwalletCore.Data.Machine
import BreadwalletCore.Data.MerkleTree
import BreadwalletCore.Transaction

/-!
# Merkle blocks

`BRMerkleBlockIsValid` and `BRMerkleBlockTxHashes` of `BRMerkleBlock.c` with
the recursions under them.  Both walk the flags and hashes a peer sent; they
keep two positions, `hashIdx` and `flagIdx`, and learn where a branch ends
only from running out of either.

The type of hashes is a parameter, with `BRSHA256_2` of two concatenated
hashes as `combine`, so that `combine` can be taken to have no collisions.
`UINT256_ZERO` is its `0`.
-/

namespace BreadwalletCore

/-- What the C functions do instead of returning. -/
inductive BlockFault
  /-- A read through `NULL`. -/
  | invalidRead
  /-- A write behind the 32 bytes of a `UInt256`. -/
  | invalidWrite
  /-- The loop of `_ceil_log2` does not end. -/
  | noReturn
  | outOfFuel
deriving DecidableEq, Repr

/-- A heap array and its element count.  The pointer is `NULL` (`none`) when
the announced elements were not in the message. -/
structure HeapArray (α : Type) where
  cells : Option (List α)
  count : ℕ
  count_lt : count < 2 ^ 64
  length_eq : ∀ l, cells = some l → l.length = count

namespace HeapArray

variable {α : Type}

/-- An allocated array. -/
def ofList (l : List α) (h : l.length < 2 ^ 64) : HeapArray α :=
  ⟨some l, l.length, h, by rintro _ ⟨⟩; rfl⟩

/-- The element at an index below `count`. -/
def read (a : HeapArray α) (i : ℕ) : Except BlockFault α :=
  match a.cells.bind (fun l => l[i]?) with
  | some x => pure x
  | none => throw .invalidRead

@[simp] theorem ofList_count
    (l : List α) (h : l.length < 2 ^ 64) :
    (ofList l h).count = l.length := by
  rfl

@[simp] theorem ofList_cells
    (l : List α) (h : l.length < 2 ^ 64) :
    (ofList l h).cells = some l := by
  rfl

end HeapArray

/-- The fields of a `BRMerkleBlock` that are read here. -/
structure BRMerkleBlock (H : Type) where
  blockHash : UInt256
  merkleRoot : H
  timestamp : UInt32
  target : UInt32
  totalTx : UInt32
  hashes : HeapArray H
  flags : HeapArray UInt8

/-- The loop of `_ceil_log2`: halve until zero, rounding down.  A negative
number stays at `-1`. -/
def ceilLog2Loop : ℕ → ℤ → ℕ → Option ℕ
  | 0, _, _ => none
  | fuel + 1, x, r => if x / 2 ≠ 0 then ceilLog2Loop fuel (x / 2) (r + 1) else some r

/-- `_ceil_log2`.  The argument is a `uint32_t` converted to `int`. -/
def ceilLog2 (x : UInt32) : Option ℕ :=
  ceilLog2Loop 32 x.toBitVec.toInt (if x &&& (x - 1) ≠ 0 then 1 else 0)

/-- `hashIdx` and `flagIdx`. -/
structure Cursor where
  hashIdx : ℕ
  flagIdx : ℕ
deriving DecidableEq, Repr

/-- `SIZE_MAX`. -/
def sizeMax : ℕ := 2 ^ 64 - 1

namespace BRMerkleBlock

variable {H : Type}

/-- Flags and hashes are left at the cursor. -/
def visible (block : BRMerkleBlock H) (s : Cursor) : Prop :=
  s.flagIdx / 8 < block.flags.count ∧ s.hashIdx < block.hashes.count

instance (block : BRMerkleBlock H) (s : Cursor) : Decidable (block.visible s) :=
  inferInstanceAs (Decidable (_ ∧ _))

/-- The flag bit at a position. -/
def readFlag (block : BRMerkleBlock H) (i : ℕ) : Except BlockFault Bool := do
  let byte ← block.flags.read (i / 8)
  pure (byte &&& ((1 : UInt8) <<< UInt8.ofNat (i % 8)) ≠ 0)

/-- The test `flag && depth != _ceil_log2(block->totalTx)`; without a flag the
depth is not looked at. -/
def expands (block : BRMerkleBlock H) (flag : Bool) (depth : ℕ) : Except BlockFault Bool :=
  if flag then
    match ceilLog2 block.totalTx with
    | some height => pure (depth ≠ height)
    | none => throw .noReturn
  else pure false

section Root

variable [DecidableEq H] [Zero H]
variable (combine : H → H → H)

/-- `_BRMerkleBlockRootR`.  Giving up (the defence against CVE-2012-2459) sets
`hashIdx` to `SIZE_MAX`. -/
def rootR (block : BRMerkleBlock H) : ℕ → ℕ → Cursor → Except BlockFault (H × Cursor)
  | 0, _, _ => throw .outOfFuel
  | fuel + 1, depth, s =>
      if block.visible s then do
        let flag ← block.readFlag s.flagIdx
        let s : Cursor := { s with flagIdx := s.flagIdx + 1 }
        if ← block.expands flag depth then
          let (left, s) ← rootR block fuel (depth + 1) s
          let (right, s) ← rootR block fuel (depth + 1) s
          if left ≠ 0 ∧ left ≠ right then
            pure (combine left (if right = 0 then left else right), s)
          else pure (0, { s with hashIdx := sizeMax })
        else
          let hash ← block.hashes.read s.hashIdx
          pure (hash, { s with hashIdx := s.hashIdx + 1 })
      else pure (0, s)

/-- The root computed for a block; `depth` never exceeds 31. -/
def computedRoot (block : BRMerkleBlock H) : Except BlockFault H := do
  let (root, _) ← block.rootR combine 32 0 ⟨0, 0⟩
  pure root

end Root

section TxHashes

/-- The variables of `_BRMerkleBlockTxHashesR`: the positions, the number of
hashes found and, unless `txHashes` is `NULL`, the hashes written to it. -/
structure TxHashesState (H : Type) where
  cursor : Cursor
  idx : ℕ
  txHashes : Option (List H)

/-- The leaf branch: a flagged leaf is written while there is room. -/
def takeLeaf (block : BRMerkleBlock H) (hashesCount : ℕ) (flag : Bool) (s : TxHashesState H) :
    Except BlockFault (TxHashesState H) :=
  if flag ∧ s.idx < hashesCount then
    match s.txHashes with
    | some written => do
        let hash ← block.hashes.read s.cursor.hashIdx
        pure { s with idx := s.idx + 1, txHashes := some (written ++ [hash]) }
    | none => pure { s with idx := s.idx + 1 }
  else pure s

/-- `_BRMerkleBlockTxHashesR`. -/
def txHashesR (block : BRMerkleBlock H) (hashesCount : ℕ) :
    ℕ → ℕ → TxHashesState H → Except BlockFault (TxHashesState H)
  | 0, _, _ => throw .outOfFuel
  | fuel + 1, depth, s =>
      if block.visible s.cursor then do
        let flag ← block.readFlag s.cursor.flagIdx
        let s := { s with cursor.flagIdx := s.cursor.flagIdx + 1 }
        if ← block.expands flag depth then
          let s ← txHashesR block hashesCount fuel (depth + 1) s
          txHashesR block hashesCount fuel (depth + 1) s
        else
          let s ← block.takeLeaf hashesCount flag s
          pure { s with cursor.hashIdx := s.cursor.hashIdx + 1 }
      else pure s

/-- `BRMerkleBlockTxHashes`: the returned number and the hashes written.  A
`NULL` destination is the room `none`. -/
def txHashes (block : BRMerkleBlock H) (room : Option ℕ) : Except BlockFault (ℕ × List H) := do
  let s ← block.txHashesR (room.getD sizeMax) 32 0 ⟨⟨0, 0⟩, 0, room.map (fun _ => [])⟩
  pure (s.idx, s.txHashes.getD [])

end TxHashes

section IsValid

/-- `MAX_PROOF_OF_WORK`. -/
def maxProofOfWork : UInt32 := 0x1e00ffff

/-- `BLOCK_MAX_TIME_DRIFT`. -/
def blockMaxTimeDrift : ℕ := 2 * 60 * 60

/-- The most significant byte of a compact target. -/
def targetSize (target : UInt32) : ℕ :=
  (target >>> 24).toNat

/-- The low three bytes of a compact target. -/
def targetMantissa (target : UInt32) : ℕ :=
  (target &&& 0x00ffffff).toNat

/-- `UInt32SetLE(&t.u8[off], x)`. -/
def setLE (t : List UInt8) (off x : ℕ) : Except BlockFault (List UInt8) :=
  if off + 4 ≤ t.length then
    pure (t.take off ++ LittleEndian.bytes 4 x ++ t.drop (off + 4))
  else throw .invalidWrite

/-- The bytes of `t`: the target out of its compact format. -/
def expandTarget (target : UInt32) : Except BlockFault (List UInt8) :=
  let t := List.replicate 32 0
  if 3 < targetSize target then setLE t (targetSize target - 3) (targetMantissa target)
  else setLE t 0 (targetMantissa target >>> ((3 - targetSize target) * 8))

/-- The byte `x.u8[i]`. -/
def u8 (x : UInt256) (i : ℕ) : UInt8 :=
  UInt8.ofNat (x.toNat / 256 ^ i)

/-- The loop over the bytes of the hash, `i` being one less than the counter.
The line that sets `r` to zero is commented out in the source. -/
def powLoop (blockHash : UInt256) (t : List UInt8) : ℕ → Bool → Bool
  | 0, r => r
  | i + 1, r =>
      if r then
        if u8 blockHash i < t.getD i 0 then r
        else powLoop blockHash t i r
      else r

variable [DecidableEq H] [Zero H]
variable (combine : H → H → H)

/-- `BRMerkleBlockIsValid`.  The checks of the timestamp and of the range of
the target are commented out in the source. -/
def isValid (block : BRMerkleBlock H) (_currentTime : UInt32) : Except BlockFault Bool := do
  let merkleRoot ← block.computedRoot combine
  let r := !decide (0 < block.totalTx ∧ merkleRoot ≠ block.merkleRoot)
  let t ← expandTarget block.target
  pure (powLoop block.blockHash t 32 r)

end IsValid

end BRMerkleBlock

end BreadwalletCore
