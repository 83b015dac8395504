import BreadwalletCore.Transaction.Parse

/-!
# Serialization and parsing

A transaction is serialized in the wire format as long as the parser can tell
the inputs apart: a signature must not look like a scriptPubKey, and an
unsigned input must have an amount, which `_BRTxInputData` leaves out when it is
zero and `BRTransactionParse` always reads.  These are also the only
transactions that come back from the bytes.
-/

namespace BreadwalletCore
namespace RawTransaction

/-- The bytes in the place of the signature. -/
def spendBytes (input : BRTxInput) : List UInt8 :=
  input.signature.getD (input.script.getD [])

/-- An input as `BRTransactionSerialize` writes it. -/
def inputBytes (input : BRTxInput) : List UInt8 :=
  txInputData { input with amount := if input.signature = none then input.amount else 0 }
    (spendBytes input)

/-- What of an input is serialized: the signature, or the script with the
amount. -/
def content (input : BRTxInput) : BRTxInput :=
  { input with
    address := []
    amount := if input.signature = none then input.amount else 0
    script := if input.signature = none then input.script else none
    strayPointer := false }

/-- What of an output is serialized. -/
def outputContent (output : BRTxOutput) : UInt64 × List UInt8 :=
  (output.amount, output.script)

theorem inputDataAt_none
    (sigHash : UInt32) (i : ℕ) (input : BRTxInput) :
    inputDataAt none sigHash i input = inputBytes input := by
  rw [inputDataAt, inputBytes, spendBytes]
  cases hsig : input.signature <;> simp

theorem serialize_eq
    (tx : RawTransaction) :
    tx.serialize =
      LittleEndian.bytes 4 tx.version.toNat ++ (varIntSet tx.inputs.length ++
        (tx.inputs.flatMap inputBytes ++ (varIntSet tx.outputs.length ++
          (tx.outputs.flatMap txOutputData ++ LittleEndian.bytes 4 tx.lockTime.toNat)))) := by
  have hidx : (tx.inputs.mapIdx (inputDataAt none (sigHashAll &&& 0x1f))).flatten =
      tx.inputs.flatMap inputBytes := by
    rw [List.flatMap_def]
    congr 1
    refine List.ext_getElem? (fun i => ?_)
    rw [List.getElem?_mapIdx, List.getElem?_map]
    exact congrArg (fun f => Option.map f tx.inputs[i]?) (funext (inputDataAt_none _ i))
  have hsection : tx.outputSection none (sigHashAll &&& 0x1f) =
      varIntSet tx.outputs.length ++ tx.outputData := by
    rw [outputSection, if_pos (by decide)]
  simp only [serialize, legacyData]
  rw [if_neg (by decide), hidx, hsection, if_neg (by simp), outputData]
  simp only [List.append_assoc, List.append_nil]

/-! ## The wire format of a transaction -/

/-- The input on the wire. -/
def wireInput (input : BRTxInput) : WireInput where
  txHash := input.txHash
  index := input.index
  width := .least (spendBytes input).length
  script := spendBytes input
  amount := input.amount
  sequence := input.sequence

/-- The output on the wire. -/
def wireOutput (output : BRTxOutput) : WireOutput where
  amount := output.amount
  width := .least output.script.length
  script := output.script

/-- The transaction on the wire. -/
def wire (tx : RawTransaction) : WireTx where
  version := tx.version
  inWidth := .least tx.inputs.length
  inputs := tx.inputs.map wireInput
  outWidth := .least tx.outputs.length
  outputs := tx.outputs.map wireOutput
  lockTime := tx.lockTime

/-- The parser can tell that the input is signed, or that it is not. -/
def Unambiguous (input : BRTxInput) : Prop :=
  match input.signature with
  | some signature => isScriptPubKey signature = false
  | none => input.amount ≠ 0

/-- Every input is signed or has a recognised script. -/
def SignedOrSpendable (tx : RawTransaction) : Prop :=
  ∀ input ∈ tx.inputs, input.signature.isSome ∨
    ∃ script, input.script = some script ∧ isScriptPubKey script

theorem wireInput_data
    {input : BRTxInput}
    (hspend : input.signature.isSome ∨ ∃ script, input.script = some script ∧ isScriptPubKey script)
    (hplain : Unambiguous input) :
    (wireInput input).data = inputBytes input := by
  simp only [wireInput, WireInput.data, inputBytes, txInputData, IntWidth.spell_least,
    List.append_assoc]
  rw [Unambiguous] at hplain
  cases hsig : input.signature with
  | some signature =>
      rw [hsig] at hplain
      simp [spendBytes, hsig, hplain]
  | none =>
      rw [hsig] at hplain hspend
      obtain ⟨script, hscript, hpub⟩ := hspend.resolve_left (by simp)
      simp [spendBytes, hsig, hscript, hpub, hplain]

theorem wireInput_toInput
    (codec : ScriptCodec) {input : BRTxInput}
    (hspend : input.signature.isSome ∨ ∃ script, input.script = some script ∧ isScriptPubKey script)
    (hplain : Unambiguous input) :
    content ((wireInput input).toInput codec) = content input := by
  rw [Unambiguous] at hplain
  cases hsig : input.signature with
  | some signature =>
      rw [hsig] at hplain
      simp [wireInput, WireInput.toInput, content, spendBytes, hsig, hplain]
  | none =>
      rw [hsig] at hspend
      obtain ⟨script, hscript, hpub⟩ := hspend.resolve_left (by simp)
      simp [wireInput, WireInput.toInput, content, spendBytes, hsig, hscript, hpub]

theorem wireOutput_data
    (output : BRTxOutput) :
    (wireOutput output).data = txOutputData output := by
  simp only [wireOutput, WireOutput.data, txOutputData, IntWidth.spell_least, List.append_assoc]

/-- A transaction the parser can read is serialized in the wire format. -/
theorem wire_data
    {tx : RawTransaction}
    (hspend : tx.SignedOrSpendable)
    (hplain : ∀ input ∈ tx.inputs, Unambiguous input) :
    tx.wire.data = tx.serialize := by
  have hinputs : (tx.inputs.map wireInput).flatMap WireInput.data =
      tx.inputs.flatMap inputBytes := by
    rw [List.flatMap_map, List.flatMap_def, List.flatMap_def]
    congr 1
    exact List.map_congr_left
      (fun input hinput => wireInput_data (hspend input hinput) (hplain input hinput))
  have houtputs : (tx.outputs.map wireOutput).flatMap WireOutput.data =
      tx.outputs.flatMap txOutputData := by
    rw [List.flatMap_map]
    simp only [wireOutput_data]
  rw [serialize_eq, WireTx.data]
  simp only [wire, List.length_map, IntWidth.spell_least, hinputs, houtputs]

/-! ## Lengths -/

theorem length_varIntSet
    (i : ℕ) :
    (varIntSet i).length = (IntWidth.least i).size := by
  rw [← IntWidth.spell_least, IntWidth.length_spell]

theorem length_inputBytes
    (input : BRTxInput) :
    (inputBytes input).length =
      40 + (IntWidth.least (spendBytes input).length).size + (spendBytes input).length +
        (if input.signature = none ∧ input.amount ≠ 0 then 8 else 0) := by
  simp only [inputBytes, txInputData, List.length_append, length_hashBytes,
    LittleEndian.length_bytes, length_varIntSet]
  cases hsig : input.signature with
  | some signature =>
      simp
      omega
  | none =>
      by_cases hzero : input.amount = 0 <;> simp [hzero] <;> omega

theorem length_txOutputData
    (output : BRTxOutput) :
    (txOutputData output).length =
      8 + (IntWidth.least output.script.length).size + output.script.length := by
  simp only [txOutputData, List.length_append, LittleEndian.length_bytes, length_varIntSet]

theorem length_serialize
    (tx : RawTransaction) :
    tx.serialize.length =
      8 + (IntWidth.least tx.inputs.length).size + (tx.inputs.flatMap inputBytes).length +
        (IntWidth.least tx.outputs.length).size + (tx.outputs.flatMap txOutputData).length := by
  rw [serialize_eq]
  simp only [List.length_append, LittleEndian.length_bytes, length_varIntSet]
  omega

theorem length_le_flatMap
    {α β : Type} {f : α → List β} {l : List α}
    (hf : ∀ x, 0 < (f x).length) :
    l.length ≤ (l.flatMap f).length := by
  induction l with
  | nil =>
      simp
  | cons x l ih =>
      have hx := hf x
      rw [List.flatMap_cons, List.length_append, List.length_cons]
      omega

theorem length_le_flatMap_of_mem
    {α β : Type} {f : α → List β} {l : List α} {x : α}
    (hx : x ∈ l) :
    (f x).length ≤ (l.flatMap f).length :=
  (List.sublist_flatten_of_mem (List.mem_map_of_mem hx)).length_le

/-- A transaction that fits in memory has no length without a spelling. -/
theorem wire_wellFormed
    {tx : RawTransaction}
    (hsize : tx.serialize.length < 2 ^ 63) :
    tx.wire.WellFormed := by
  rw [length_serialize] at hsize
  have hin : tx.inputs.length ≤ (tx.inputs.flatMap inputBytes).length := by
    refine length_le_flatMap (fun input => ?_)
    rw [length_inputBytes]
    omega
  have hout : tx.outputs.length ≤ (tx.outputs.flatMap txOutputData).length := by
    refine length_le_flatMap (fun output => ?_)
    rw [length_txOutputData]
    omega
  refine ⟨?_, fun w hw => ?_, ?_, fun w hw => ?_⟩
  · simp only [wire, List.length_map]
    exact IntWidth.least_fits (by omega)
  · obtain ⟨input, hinput, rfl⟩ := List.mem_map.mp hw
    have hle := length_le_flatMap_of_mem (f := inputBytes) hinput
    rw [length_inputBytes] at hle
    exact IntWidth.least_fits (by omega)
  · simp only [wire, List.length_map]
    exact IntWidth.least_fits (by omega)
  · obtain ⟨output, houtput, rfl⟩ := List.mem_map.mp hw
    have hle := length_le_flatMap_of_mem (f := txOutputData) houtput
    rw [length_txOutputData] at hle
    exact IntWidth.least_fits (by omega)

/-! ## Reading it back -/

section RoundTrip

variable (codec : ScriptCodec) (sha256d : List UInt8 → UInt256)

/-- The serialized transaction is parsed, and has the same version, inputs,
outputs and lock time and is signed if the transaction is. -/
def RoundTrips (tx : RawTransaction) : Prop :=
  ∃ (tx' : RawTransaction) (n : ℕ), parse codec sha256d tx.serialize = .ok (some (tx', n)) ∧
    tx'.version = tx.version ∧
    tx'.inputs.map content = tx.inputs.map content ∧
    tx'.outputs.map outputContent = tx.outputs.map outputContent ∧
    tx'.lockTime = tx.lockTime ∧
    tx'.isSigned = tx.isSigned

/-- The unsigned inputs without an amount. -/
def amountless (input : BRTxInput) : Bool :=
  input.signature = none ∧ input.amount = 0

theorem isSigned_of_content
    {tx tx' : RawTransaction}
    (h : tx'.inputs.map content = tx.inputs.map content) :
    tx'.isSigned = tx.isSigned := by
  have hall : ∀ inputs : List BRTxInput, (inputs.map content).all
      (fun input => input.signature.isSome) =
        inputs.all (fun input => input.signature.isSome) := by
    intro inputs
    rw [List.all_map]
    rfl
  rw [isSigned, isSigned, ← hall, h, hall]

/-- An input on the wire has room for an amount the serialization leaves out. -/
theorem length_inputBytes_le
    {w : WireInput} {input : BRTxInput}
    (hfits : w.width.Fits w.script.length)
    (h : content (w.toInput codec) = content input) :
    (inputBytes input).length + (if amountless input then 8 else 0) ≤ w.data.length := by
  have hsig := congrArg BRTxInput.signature h
  have hscript := congrArg BRTxInput.script h
  have hle := IntWidth.size_least_le hfits
  rw [length_inputBytes, w.length_data, WireInput.amountSize]
  by_cases hpub : isScriptPubKey w.script = true
  · rw [WireInput.toInput, if_pos hpub] at hsig hscript
    simp only [content, if_true] at hsig hscript
    rw [← hsig, if_pos rfl] at hscript
    have hspend : spendBytes input = w.script := by
      rw [spendBytes, ← hsig, ← hscript]
      rfl
    rw [hspend, if_pos hpub, amountless]
    by_cases hzero : input.amount = 0 <;> simp [← hsig, hzero] <;> omega
  · rw [WireInput.toInput, if_neg hpub] at hsig
    simp only [content] at hsig
    have hspend : spendBytes input = w.script := by
      rw [spendBytes, ← hsig]
      rfl
    rw [hspend, if_neg hpub, amountless]
    simp [← hsig]
    omega

theorem length_inputs_le
    {ws : List WireInput} {inputs : List BRTxInput}
    (hfits : ∀ w ∈ ws, w.width.Fits w.script.length)
    (h : (ws.map (WireInput.toInput codec)).map content = inputs.map content) :
    (inputs.flatMap inputBytes).length + 8 * inputs.countP amountless ≤
      (ws.flatMap WireInput.data).length := by
  induction ws generalizing inputs with
  | nil =>
      have hnil : inputs = [] := by simpa using h.symm
      simp [hnil]
  | cons w ws ih =>
      cases inputs with
      | nil =>
          simp at h
      | cons input inputs =>
          simp only [List.map_cons, List.cons.injEq] at h
          have hhead := length_inputBytes_le codec (hfits w List.mem_cons_self) h.1
          have htail := ih (fun v hv => hfits v (List.mem_cons_of_mem _ hv)) h.2
          rw [List.flatMap_cons, List.flatMap_cons, List.length_append, List.length_append,
            List.countP_cons]
          split at hhead
          · rw [if_pos (by assumption)]
            omega
          · rw [if_neg (by assumption)]
            omega

theorem length_outputs_le
    {ws : List WireOutput} {outputs : List BRTxOutput}
    (hfits : ∀ w ∈ ws, w.width.Fits w.script.length)
    (h : (ws.map (WireOutput.toOutput codec)).map outputContent = outputs.map outputContent) :
    (outputs.flatMap txOutputData).length ≤ (ws.flatMap WireOutput.data).length := by
  induction ws generalizing outputs with
  | nil =>
      have hnil : outputs = [] := by simpa using h.symm
      simp [hnil]
  | cons w ws ih =>
      cases outputs with
      | nil =>
          simp at h
      | cons output outputs =>
          simp only [List.map_cons, List.cons.injEq] at h
          have hscript : w.script = output.script := congrArg Prod.snd h.1
          have hle := IntWidth.size_least_le (hfits w List.mem_cons_self)
          have htail := ih (fun v hv => hfits v (List.mem_cons_of_mem _ hv)) h.2
          rw [List.flatMap_cons, List.flatMap_cons, List.length_append, List.length_append,
            length_txOutputData, ← hscript]
          simp only [WireOutput.data, List.length_append, LittleEndian.length_bytes,
            IntWidth.length_spell]
          omega

/-- What is read is the transaction on the wire. -/
theorem parse_serialize
    {tx : RawTransaction}
    (hsize : tx.serialize.length < 2 ^ 63)
    (hne : tx.inputs ≠ [])
    (hspend : tx.SignedOrSpendable)
    (hplain : ∀ input ∈ tx.inputs, Unambiguous input) :
    parse codec sha256d tx.serialize =
      .ok (some (tx.wire.toTx codec sha256d, tx.serialize.length)) := by
  have hdata := wire_data hspend hplain
  have hwire : parse codec sha256d (tx.wire.data ++ []) =
      .ok (some (tx.wire.toTx codec sha256d, tx.wire.data.length)) :=
    parse_wire (by rwa [List.append_nil, hdata]) (wire_wellFormed hsize)
      (by simpa [wire] using hne)
  rwa [List.append_nil, hdata] at hwire

theorem roundTrips_of_unambiguous
    {tx : RawTransaction}
    (hsize : tx.serialize.length < 2 ^ 63)
    (hne : tx.inputs ≠ [])
    (hspend : tx.SignedOrSpendable)
    (hplain : ∀ input ∈ tx.inputs, Unambiguous input) :
    tx.RoundTrips codec sha256d := by
  have hparse := parse_serialize codec sha256d hsize hne hspend hplain
  have hinputs : (tx.wire.toTx codec sha256d).inputs.map content = tx.inputs.map content := by
    simp only [WireTx.toTx, wire, List.map_map]
    exact List.map_congr_left
      (fun input hinput => wireInput_toInput codec (hspend input hinput) (hplain input hinput))
  refine ⟨_, _, hparse, rfl, hinputs, ?_, rfl, isSigned_of_content hinputs⟩
  simp only [WireTx.toTx, wire, List.map_map]
  rfl

/-- A transaction that comes back was serialized in the wire format. -/
theorem unambiguous_of_roundTrips
    {tx : RawTransaction}
    (hsize : tx.serialize.length < 2 ^ 63)
    (hspend : tx.SignedOrSpendable)
    (h : tx.RoundTrips codec sha256d) :
    ∀ input ∈ tx.inputs, Unambiguous input := by
  obtain ⟨tx', n, hparse, -, hinputs, houtputs, -, -⟩ := h
  have hfound : ∀ i ∈ tx'.inputs, i.signature.isSome ∨ i.script.isSome := by
    intro i hi
    have hmem : content i ∈ tx.inputs.map content := by
      rw [← hinputs]
      exact List.mem_map_of_mem hi
    obtain ⟨input, hinput, heq⟩ := List.mem_map.mp hmem
    have hsig := congrArg BRTxInput.signature heq
    change input.signature = i.signature at hsig
    rcases hspend input hinput with hsome | ⟨script, hscript, -⟩
    · exact Or.inl (hsig ▸ hsome)
    · cases hcase : i.signature with
      | some signature =>
          exact Or.inl rfl
      | none =>
          have hsame := congrArg BRTxInput.script heq
          simp only [content, hsig, hcase, if_true, hscript] at hsame
          exact Or.inr (by rw [← hsame]; rfl)
  obtain ⟨w, rest, hwf, -, hbytes, rfl, -⟩ := parse_ok hsize hparse hfound
  have hzero : tx.inputs.countP amountless = 0 := by
    have hin := length_inputs_le codec hwf.input_fits hinputs
    have hout := length_outputs_le codec hwf.output_fits houtputs
    have hinLen : tx.inputs.length = w.inputs.length := by
      simpa [WireTx.toTx] using (congrArg List.length hinputs).symm
    have houtLen : tx.outputs.length = w.outputs.length := by
      simpa [WireTx.toTx] using (congrArg List.length houtputs).symm
    have hinLeast := IntWidth.size_least_le hwf.inputs_fit
    have houtLeast := IntWidth.size_least_le hwf.outputs_fit
    have htotal := congrArg List.length hbytes
    rw [length_serialize, hinLen, houtLen] at htotal
    simp only [WireTx.data, List.length_append, LittleEndian.length_bytes,
      IntWidth.length_spell] at htotal
    omega
  intro input hinput
  rw [Unambiguous]
  cases hsig : input.signature with
  | none =>
      have hnot := List.countP_eq_zero.mp hzero input hinput
      simpa [amountless, hsig] using hnot
  | some signature =>
      have hmem : content input ∈ ((w.toTx codec sha256d).inputs).map content := by
        rw [hinputs]
        exact List.mem_map_of_mem hinput
      obtain ⟨i, hi, heq⟩ := List.mem_map.mp hmem
      obtain ⟨v, -, rfl⟩ := List.mem_map.mp hi
      have hsame : (v.toInput codec).signature = some signature :=
        (congrArg BRTxInput.signature heq).trans hsig
      rw [WireInput.toInput] at hsame
      split at hsame
      · cases hsame
      · rename_i hpub
        cases hsame
        simpa using hpub

/-- **Codec round trip.**  A transaction whose inputs are signed or have a
recognised script comes back from its bytes if and only if no signature looks
like a scriptPubKey and every unsigned input has an amount. -/
theorem roundTrips_iff_unambiguous
    (tx : RawTransaction)
    (hsize : tx.serialize.length < 2 ^ 63)
    (hne : tx.inputs ≠ [])
    (hspend : tx.SignedOrSpendable) :
    tx.RoundTrips codec sha256d ↔ ∀ input ∈ tx.inputs, Unambiguous input :=
  ⟨unambiguous_of_roundTrips codec sha256d hsize hspend,
    roundTrips_of_unambiguous codec sha256d hsize hne hspend⟩

/-- An input whose output has no amount, behind a script that is paid to a
pubkey hash. -/
def worthlessInput : BRTxInput where
  txHash := 1
  index := 0
  script := some ([opDup, opHash160, 20] ++ List.replicate 20 0 ++ [opEqualVerify, opCheckSig])
  signature := none
  sequence := txinSequence

/-- The amount zero is not written, and what follows is read in its place: the
bytes are refused. -/
theorem worthlessInput_refused :
    let tx : RawTransaction := { txHash := 0, inputs := [worthlessInput], outputs := [] }
    tx.inputs ≠ [] ∧ tx.SignedOrSpendable ∧ tx.serialize.length < 2 ^ 63 ∧
      parse noAddressCodec (fun _ => 0) tx.serialize = .ok none ∧
      ¬ tx.RoundTrips noAddressCodec (fun _ => 0) := by
  intro tx
  have hparse : parse noAddressCodec (fun _ => 0) tx.serialize = .ok none := by decide +kernel
  refine ⟨by simp [tx], ?_, by decide +kernel, hparse, ?_⟩
  · intro input hinput
    rw [List.mem_singleton.mp hinput]
    exact Or.inr ⟨_, rfl, by decide +kernel⟩
  · rintro ⟨tx', n, hsome, -⟩
    rw [hparse] at hsome
    cases hsome

/-- The same input with an amount comes back. -/
theorem roundTrips_with_amount :
    let tx : RawTransaction :=
      { txHash := 0, inputs := [{ worthlessInput with amount := 5 }], outputs := [] }
    tx.RoundTrips noAddressCodec (fun _ => 0) := by
  intro tx
  refine (roundTrips_iff_unambiguous noAddressCodec (fun _ => 0) tx (by decide +kernel) (by simp [tx])
    ?_).mpr ?_
  · intro input hinput
    rw [List.mem_singleton.mp hinput]
    exact Or.inr ⟨_, rfl, by decide +kernel⟩
  · intro input hinput
    rw [List.mem_singleton.mp hinput]
    show (5 : UInt64) ≠ 0
    decide

end RoundTrip

end RawTransaction
end BreadwalletCore
