import BreadwalletCore.ChainBlock
import BreadwalletCore.Data.ByteWriter
import BreadwalletCore.Peer.Payload

/-!
# Parsing and serializing merkle blocks

`BRMerkleBlockParse`, with the places of the buffer it reads and the lengths it
compares with that of the buffer, and `BRMerkleBlockSerialize`.

The parser keeps the number of hashes and the number of flag bytes that stand in
the buffer, also when the buffer ends before them and the pointer stays `NULL`.
-/

namespace BreadwalletCore

open Segment (slice)
open Payload (readLE readHash readBytes readVarInt lengthNeeded headerHash HeadersEnv)

/-- All fields of a `BRMerkleBlock` but `powHash`, which nothing sets.  An array
that is not allocated is `none`, whatever its element count says. -/
structure RawMerkleBlock where
  blockHash : UInt256 := 0
  version : UInt32 := 0
  prevBlock : UInt256 := 0
  merkleRoot : UInt256 := 0
  timestamp : UInt32 := 0
  target : UInt32 := 0
  nonce : UInt32 := 0
  totalTx : UInt32 := 0
  hashes : Option (List UInt256) := none
  hashesCount : ℕ := 0
  flags : Option (List UInt8) := none
  flagsLen : ℕ := 0
  height : ℕ := blockUnknownHeight
deriving DecidableEq

/-- The hashes in some bytes. -/
def hashesOf (bytes : List UInt8) : List UInt256 :=
  (List.range (bytes.length / 32)).map
    (fun i => BitVec.ofNat 256 (LittleEndian.value (slice bytes (32 * i) 32)))

/-- The bytes of some hashes. -/
def hashesBytes (hashes : List UInt256) : List UInt8 :=
  hashes.flatMap hashBytes

namespace RawMerkleBlock

section Parse

variable (env : HeadersEnv) (buf : List UInt8)

/-- `off += n`. -/
def moveOffset (off n : ℕ) : Reads ℕ :=
  lengthNeeded (off + n)

/-- `(off + len <= bufLen) ? malloc(len) : NULL`, and the copy of the bytes. -/
def copyArray (off len : ℕ) : Reads (Option (List UInt8)) := do
  let arrayEnd ← moveOffset off len
  if arrayEnd ≤ buf.length then do
    let bytes ← readBytes buf off len
    pure (some bytes)
  else pure none

/-- The fields of the header. -/
def parseHeader : Reads RawMerkleBlock := do
  let version ← readLE buf 0 4
  let prevBlock ← readHash buf 4
  let merkleRoot ← readHash buf 36
  let timestamp ← readLE buf 68 4
  let target ← readLE buf 72 4
  let nonce ← readLE buf 76 4
  pure {
    version := UInt32.ofNat version
    prevBlock
    merkleRoot
    timestamp := UInt32.ofNat timestamp
    target := UInt32.ofNat target
    nonce := UInt32.ofNat nonce }

/-- The partial merkle tree behind the header. -/
def parseTree (block : RawMerkleBlock) : Reads RawMerkleBlock := do
  let totalTx ← readLE buf 80 4
  let hashesCount ← readVarInt buf 84
  let off ← moveOffset 84 hashesCount.2
  let len ← lengthNeeded (hashesCount.1 * 32)
  let hashes ← copyArray buf off len
  let off ← moveOffset off len
  let flagsLen ← readVarInt buf off
  let off ← moveOffset off flagsLen.2
  let flags ← copyArray buf off flagsLen.1
  pure { block with
    totalTx := UInt32.ofNat totalTx
    hashesCount := hashesCount.1
    hashes := hashes.map hashesOf
    flagsLen := flagsLen.1
    flags }

/-- What follows the header, if there is room for `totalTx`. -/
def parseRest (block : RawMerkleBlock) : Reads RawMerkleBlock :=
  if 84 ≤ buf.length then parseTree buf block else pure block

/-- `BRMerkleBlockParse`. -/
def parse : Reads (Option RawMerkleBlock) :=
  if 80 ≤ buf.length then do
    let block ← parseHeader buf
    let block ← parseRest buf block
    let header ← readBytes buf 0 80
    pure (some { block with blockHash := headerHash env header })
  else pure none

end Parse

section Serialize

/-- A `memcpy` or a setter at the offset of the writer. -/
def put (l : List UInt8) (w : ByteWriter UInt8) : Except BlockFault (ByteWriter UInt8) :=
  if w.off + l.length ≤ w.buf.length then pure (w.copy l) else throw .invalidWrite

/-- `off += BRVarIntSet(&buf[off], (off <= bufLen ? bufLen - off : 0), i)`. -/
def putVarInt (i : ℕ) (w : ByteWriter UInt8) : ByteWriter UInt8 :=
  if w.off + (varIntSet i).length ≤ w.buf.length then w.copy (varIntSet i) else w

/-- `if (array) memcpy(&buf[off], array, len); off += len;`, an array of other
than `len` bytes being read as far as it goes. -/
def putArray (bytes : Option (List UInt8)) (len : ℕ) (w : ByteWriter UInt8) :
    Except BlockFault (ByteWriter UInt8) :=
  match bytes with
  | some l => if len ≤ l.length then put (l.take len) w else throw .invalidRead
  | none => pure { w with off := w.off + len }

variable (block : RawMerkleBlock)

/-- The length that `BRMerkleBlockSerialize` computes. -/
def serializedLength : ℕ :=
  if 0 < block.totalTx then
    wrap (80 + 4 + varIntSize block.hashesCount + block.hashesCount * 32 +
      varIntSize block.flagsLen + block.flagsLen)
  else 80

/-- The header fields. -/
def putHeader (w : ByteWriter UInt8) : Except BlockFault (ByteWriter UInt8) := do
  let w ← put (LittleEndian.bytes 4 block.version.toNat) w
  let w ← put (hashBytes block.prevBlock) w
  let w ← put (hashBytes block.merkleRoot) w
  let w ← put (LittleEndian.bytes 4 block.timestamp.toNat) w
  let w ← put (LittleEndian.bytes 4 block.target.toNat) w
  put (LittleEndian.bytes 4 block.nonce.toNat) w

/-- The partial merkle tree. -/
def putTree (w : ByteWriter UInt8) : Except BlockFault (ByteWriter UInt8) := do
  let w ← put (LittleEndian.bytes 4 block.totalTx.toNat) w
  let w := putVarInt block.hashesCount w
  let w ← putArray (block.hashes.map hashesBytes) (block.hashesCount * 32) w
  let w := putVarInt block.flagsLen w
  putArray block.flags block.flagsLen w

/-- The partial merkle tree is left out when there are no transactions. -/
def putRest (w : ByteWriter UInt8) : Except BlockFault (ByteWriter UInt8) :=
  if 0 < block.totalTx then block.putTree w else pure w

/-- `BRMerkleBlockSerialize`: the buffer afterwards, and the result. -/
def serialize (buf : Option (List UInt8)) : Except BlockFault (Option (List UInt8) × ℕ) :=
  let len := block.serializedLength
  match buf with
  | none => pure (none, len)
  | some buf =>
      if len ≤ buf.length then do
        let w ← block.putHeader ⟨buf, 0⟩
        let w ← block.putRest w
        pure (some w.buf, len)
      else pure (some buf, 0)

end Serialize

end RawMerkleBlock

end BreadwalletCore
