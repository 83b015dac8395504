import BreadwalletCore.Transaction.Script

/-!
# Serialization

`_BRTxInputData`, `_BRTransactionOutputData`, `_BRTransactionWitnessData` and
`_BRTransactionData` of `BRTransaction.c`.  Every caller asks for the length
first and passes a buffer of that length, so each function is the list of the
bytes it writes.  The index `SIZE_MAX`, which asks for the whole transaction,
is `none`.
-/

namespace BreadwalletCore

/-- `SIGHASH_ALL`. -/
def sigHashAll : UInt32 := 0x01

/-- `SIGHASH_NONE`. -/
def sigHashNone : UInt32 := 0x02

/-- `SIGHASH_SINGLE`. -/
def sigHashSingle : UInt32 := 0x03

/-- `SIGHASH_ANYONECANPAY`. -/
def sigHashAnyoneCanPay : UInt32 := 0x80

/-- `SIGHASH_FORKID`. -/
def sigHashForkId : UInt32 := 0x40

/-- `BRVarIntSet`. -/
def varIntSet (i : ℕ) : List UInt8 :=
  if i < 0xfd then LittleEndian.bytes 1 i
  else if i ≤ 0xffff then 0xfd :: LittleEndian.bytes 2 i
  else if i ≤ 0xffffffff then 0xfe :: LittleEndian.bytes 4 i
  else 0xff :: LittleEndian.bytes 8 i

/-- The 32 bytes of a hash. -/
def hashBytes (h : UInt256) : List UInt8 :=
  LittleEndian.bytes 32 h.toNat

theorem hashBytes_ofNat_value
    {l : List UInt8}
    (hl : l.length = 32) :
    hashBytes (BitVec.ofNat 256 (LittleEndian.value l)) = l := by
  have hlt := LittleEndian.value_lt l
  rw [hl] at hlt
  rw [hashBytes, BitVec.toNat_ofNat, Nat.mod_eq_of_lt (by simpa using hlt), ← hl,
    LittleEndian.bytes_value]

/-- `_BRTxInputData`, with the bytes found behind `signature` and `sigLen`.
The amount is only written when it is not zero. -/
def txInputData (input : BRTxInput) (signature : List UInt8) : List UInt8 :=
  hashBytes input.txHash ++ LittleEndian.bytes 4 input.index.toNat ++
    varIntSet signature.length ++ signature ++
    (if input.amount ≠ 0 then LittleEndian.bytes 8 input.amount.toNat else []) ++
    LittleEndian.bytes 4 input.sequence.toNat

/-- One output of `_BRTransactionOutputData`. -/
def txOutputData (output : BRTxOutput) : List UInt8 :=
  LittleEndian.bytes 8 output.amount.toNat ++ varIntSet output.script.length ++ output.script

namespace RawTransaction

/-- `_BRTransactionOutputData` with the index `SIZE_MAX`. -/
def outputData (tx : RawTransaction) : List UInt8 :=
  tx.outputs.flatMap txOutputData

/-- `_BRTransactionOutputData` with the index of one output. -/
def outputDataAt (tx : RawTransaction) (index : ℕ) : List UInt8 :=
  (tx.outputs[index]?.map txOutputData).getD []

/-- The body of the loop over the inputs in `_BRTransactionData`: which bytes
stand for the signature, and which fields are cleared. -/
def inputDataAt (index : Option ℕ) (sigHash : UInt32) (i : ℕ) (input : BRTxInput) : List UInt8 :=
  if index = some i ∨ (index = none ∧ input.signature = none) then
    txInputData { input with amount := if index = some i then 0 else input.amount }
      (input.script.getD [])
  else if index ≠ none then
    txInputData
      { input with
        amount := 0
        sequence :=
          if sigHash = sigHashNone ∨ sigHash = sigHashSingle then 0 else input.sequence }
      []
  else txInputData { input with amount := 0 } (input.signature.getD [])

/-- The outputs in `_BRTransactionData`. -/
def outputSection (tx : RawTransaction) (index : Option ℕ) (sigHash : UInt32) : List UInt8 :=
  if sigHash ≠ sigHashSingle ∧ sigHash ≠ sigHashNone then
    varIntSet tx.outputs.length ++ tx.outputData
  else
    match index with
    | some n =>
        if sigHash = sigHashSingle ∧ n < tx.outputs.length then
          varIntSet (n + 1) ++
            (List.replicate n (LittleEndian.bytes 8 (2 ^ 64 - 1) ++ varIntSet 0)).flatten ++
            tx.outputDataAt n
        else varIntSet 0
    | none => varIntSet 0

/-- `_BRTransactionData` behind its first line, that is without the flag
`SIGHASH_FORKID`. -/
def legacyData (tx : RawTransaction) (index : Option ℕ) (hashType : UInt32) : List UInt8 :=
  let sigHash := hashType &&& 0x1f
  let tail := tx.outputSection index sigHash ++ LittleEndian.bytes 4 tx.lockTime.toNat ++
    (if index ≠ none then LittleEndian.bytes 4 hashType.toNat else [])
  if hashType &&& sigHashAnyoneCanPay ≠ 0 then
    match index.bind (fun i => tx.inputs[i]?) with
    | none => []
    | some input =>
        LittleEndian.bytes 4 tx.version.toNat ++ varIntSet 1 ++
          txInputData { input with amount := 0 } (input.script.getD []) ++ tail
  else
    LittleEndian.bytes 4 tx.version.toNat ++ varIntSet tx.inputs.length ++
      (tx.inputs.mapIdx (inputDataAt index sigHash)).flatten ++ tail

/-- What an entry does not show may change. -/
theorem mapIdx_map_eq
    {α β : Type} {f : ℕ → α → β} {g : α → α}
    (hf : ∀ i a, f i (g a) = f i a)
    (l : List α) :
    (l.map g).mapIdx f = l.mapIdx f := by
  refine List.ext_getElem? (fun i => ?_)
  rw [List.getElem?_mapIdx, List.getElem?_mapIdx, List.getElem?_map, Option.map_map]
  exact congrArg (fun h => Option.map h l[i]?) (funext (hf i))

section Witness

variable (sha256d : List UInt8 → UInt256)

/-- `_BRTransactionWitnessData`.  Out of range it writes nothing. -/
def witnessData (tx : RawTransaction) (index : Option ℕ) (hashType : UInt32) : List UInt8 :=
  let anyoneCanPay := hashType &&& sigHashAnyoneCanPay ≠ 0
  let sigHash := hashType &&& 0x1f
  match index.bind (fun i => tx.inputs[i]?) with
  | none => []
  | some input =>
      LittleEndian.bytes 4 tx.version.toNat ++
        hashBytes (if ¬ anyoneCanPay then
            sha256d (tx.inputs.flatMap
              (fun i => hashBytes i.txHash ++ LittleEndian.bytes 4 i.index.toNat))
          else 0) ++
        hashBytes (if ¬ anyoneCanPay ∧ sigHash ≠ sigHashSingle ∧ sigHash ≠ sigHashNone then
            sha256d (tx.inputs.flatMap (fun i => LittleEndian.bytes 4 i.sequence.toNat))
          else 0) ++
        txInputData input (input.script.getD []) ++
        hashBytes (if sigHash ≠ sigHashSingle ∧ sigHash ≠ sigHashNone then sha256d tx.outputData
          else if sigHash = sigHashSingle ∧ index.getD 0 < tx.outputs.length then
            sha256d (tx.outputDataAt (index.getD 0))
          else 0) ++
        LittleEndian.bytes 4 tx.lockTime.toNat ++
        LittleEndian.bytes 4 hashType.toNat

/-- `_BRTransactionData`. -/
def transactionData (tx : RawTransaction) (index : Option ℕ) (hashType : UInt32) : List UInt8 :=
  if hashType &&& sigHashForkId ≠ 0 then tx.witnessData sha256d index hashType
  else tx.legacyData index hashType

/-- Without `SIGHASH_FORKID` nothing is hashed on the way. -/
theorem transactionData_legacy
    (tx : RawTransaction) (index : Option ℕ)
    {hashType : UInt32}
    (hfork : hashType &&& sigHashForkId = 0) :
    tx.transactionData sha256d index hashType = tx.legacyData index hashType := by
  rw [transactionData, if_neg (by simpa using hfork)]

end Witness

/-- `BRTransactionSerialize`, that is `_BRTransactionData` with the index
`SIZE_MAX` and `SIGHASH_ALL`. -/
def serialize (tx : RawTransaction) : List UInt8 :=
  tx.legacyData none sigHashAll

end RawTransaction

end BreadwalletCore
