import Mathlib.Data.UInt
import Mathlib.Tactic

/-!
# Transactions

The data model of `BRTransaction.h`, `BRAddress.h` and `BRInt.h` as far as the
wallet reads it, and the functions of `BRTransaction.c` on whole transactions.

An address is the string in a `char[36]` buffer up to its terminator, so the
empty list is the cleared buffer (`BR_ADDRESS_NONE`).  A pointer to a byte
buffer with its length is an optional byte list.
-/

namespace BreadwalletCore

/-- A 256 bit hash. -/
abbrev UInt256 := BitVec 256

instance : LawfulBEq UInt256 := inferInstance

/-- The characters of an address string. -/
abbrev Address := List UInt8

/-- `TX_FEE_PER_KB`. -/
def txFeePerKb : UInt64 := 10000

/-- `TX_OUTPUT_SIZE`. -/
def txOutputSize : Nat := 34

/-- `TX_INPUT_SIZE`. -/
def txInputSize : Nat := 148

/-- `TX_MIN_OUTPUT_AMOUNT`. -/
def txMinOutputAmount : UInt64 :=
  txFeePerKb * 3 * UInt64.ofNat (txOutputSize + txInputSize) / 1000

/-- `TX_MAX_SIZE`. -/
def txMaxSize : Nat := 100000

/-- `TX_UNCONFIRMED`, that is `INT32_MAX` stored in a `uint32_t`. -/
def txUnconfirmed : UInt32 := 0x7fffffff

/-- `TX_MAX_LOCK_HEIGHT`. -/
def txMaxLockHeight : UInt32 := 500000000

/-- `TXIN_SEQUENCE`, that is `UINT32_MAX`. -/
def txinSequence : UInt32 := 0xffffffff

/-- `TX_VERSION`. -/
def txVersion : UInt32 := 1

/-- An outpoint. -/
structure BRUTXO where
  hash : UInt256
  n : UInt32
deriving DecidableEq, Repr

/-- A transaction input.  `strayPointer` says that the `signature` pointer is
not `NULL` and does not point to an array; its length is then zero. -/
structure BRTxInput where
  txHash : UInt256
  index : UInt32
  address : Address := []
  amount : UInt64 := 0
  script : Option (List UInt8) := none
  signature : Option (List UInt8)
  sequence : UInt32
  strayPointer : Bool := false
deriving DecidableEq, Repr

/-- The leading fields of a `BRTxInput` are those of a `BRUTXO`; the wallet
casts one to the other. -/
def BRTxInput.outpoint (input : BRTxInput) : BRUTXO :=
  ⟨input.txHash, input.index⟩

structure BRTxOutput where
  address : Address
  amount : UInt64
  script : List UInt8 := []
deriving DecidableEq, Repr

/-- The fields of a `BRTransaction`. -/
structure RawTransaction where
  txHash : UInt256
  version : UInt32 := txVersion
  inputs : List BRTxInput
  outputs : List BRTxOutput
  lockTime : UInt32 := 0
  blockHeight : UInt32 := txUnconfirmed
  timestamp : UInt32 := 0
deriving DecidableEq, Repr

/-- A transaction the wallet can hold.  An outpoint names an output by a
`uint32_t`, so there are fewer than `2 ^ 32` outputs. -/
structure BRTransaction extends RawTransaction where
  outCount_lt : outputs.length < 2 ^ 32 := by decide
deriving DecidableEq, Repr

/-- `BRVarIntSize`. -/
def varIntSize (i : Nat) : Nat :=
  if i < 0xfd then 1
  else if i ≤ 0xffff then 3
  else if i ≤ 0xffffffff then 5
  else 9

namespace RawTransaction

/-- The outpoints a transaction spends. -/
def outpoints (tx : RawTransaction) : List BRUTXO :=
  tx.inputs.map BRTxInput.outpoint

/-- The size of one input, signed or estimated. -/
def inputSize (input : BRTxInput) : Nat :=
  match input.signature with
  | some sig => 32 + 4 + varIntSize sig.length + sig.length + 4
  | none => txInputSize

/-- `BRTransactionSize`. -/
def size (tx : RawTransaction) : Nat :=
  8 + varIntSize tx.inputs.length + varIntSize tx.outputs.length +
    (tx.inputs.map inputSize).sum +
    (tx.outputs.map
      (fun o => 8 + varIntSize o.script.length + o.script.length)).sum

/-- `BRTransactionIsSigned`. -/
def isSigned (tx : RawTransaction) : Bool :=
  tx.inputs.all (fun input => input.signature.isSome)

/-- Not in a block yet. -/
def isUnconfirmed (tx : RawTransaction) : Bool :=
  tx.blockHeight = txUnconfirmed

end RawTransaction

namespace BRTransaction

/-- The writes `tx->blockHeight = ..` and `tx->timestamp = ..`. -/
def setBlock (tx : BRTransaction) (blockHeight timestamp : UInt32) : BRTransaction :=
  { tx with blockHeight := blockHeight, timestamp := timestamp }

@[simp] theorem setBlock_txHash
    (tx : BRTransaction) (h t : UInt32) :
    (tx.setBlock h t).txHash = tx.txHash := by
  rfl

@[simp] theorem setBlock_outputs
    (tx : BRTransaction) (h t : UInt32) :
    (tx.setBlock h t).outputs = tx.outputs := by
  rfl

@[simp] theorem setBlock_blockHeight
    (tx : BRTransaction) (h t : UInt32) :
    (tx.setBlock h t).blockHeight = h := by
  rfl

@[simp] theorem setBlock_timestamp
    (tx : BRTransaction) (h t : UInt32) :
    (tx.setBlock h t).timestamp = t := by
  rfl

@[simp] theorem setBlock_isSigned
    (tx : BRTransaction) (h t : UInt32) :
    (tx.setBlock h t).isSigned = tx.isSigned := by
  rfl

end BRTransaction

end BreadwalletCore
