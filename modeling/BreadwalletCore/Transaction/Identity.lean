import BreadwalletCore.Transaction.RoundTrip
import BreadwalletCore.Transaction.Sign

/-!
# The hash of a transaction

`BRTransactionParse` hashes the bytes it read, everything else hashes the bytes
`BRTransactionSerialize` writes.  The two agree if and only if every length in
the buffer has its shortest spelling.  A transaction `BRTransactionSign` has
signed keeps its hash through serialization and parsing unless it has no
inputs, or keeps an old signature that looks like a scriptPubKey.
-/

namespace BreadwalletCore
namespace RawTransaction

open Segment (At at_append)

/-! ## The shortest spelling -/

section Shortest

variable (codec : ScriptCodec) (sha256d : List UInt8 → UInt256)

theorem isSigned_toTx
    (w : WireTx) :
    (w.toTx codec sha256d).isSigned = w.signed := by
  rw [isSigned, WireTx.signed, WireTx.toTx, List.all_map]
  congr 1
  funext i
  rw [Function.comp_apply, WireInput.toInput]
  cases isScriptPubKey i.script <;> rfl

theorem spendBytes_toInput
    (w : WireInput) :
    spendBytes (w.toInput codec) = w.script := by
  rw [WireInput.toInput]
  split <;> rfl

theorem inputBytes_toInput
    {w : WireInput}
    (hleast : w.width = .least w.script.length)
    (hsigned : isScriptPubKey w.script = false) :
    inputBytes (w.toInput codec) = w.data := by
  simp only [inputBytes, spendBytes_toInput, txInputData, WireInput.data, hleast,
    IntWidth.spell_least, List.append_assoc]
  simp [WireInput.toInput, hsigned]

/-- A signed transaction in its shortest spelling is serialized as it was. -/
theorem serialize_toTx
    {w : WireTx}
    (hmin : w.Minimal)
    (hsigned : w.signed = true) :
    (w.toTx codec sha256d).serialize = w.data := by
  have hinputs : (w.inputs.map (WireInput.toInput codec)).flatMap inputBytes =
      w.inputs.flatMap WireInput.data := by
    rw [List.flatMap_map, List.flatMap_def, List.flatMap_def]
    congr 1
    refine List.map_congr_left (fun i hi => inputBytes_toInput codec (hmin.input_least i hi) ?_)
    simpa using List.all_eq_true.mp hsigned i hi
  have houtputs : (w.outputs.map (WireOutput.toOutput codec)).flatMap txOutputData =
      w.outputs.flatMap WireOutput.data := by
    rw [List.flatMap_map, List.flatMap_def, List.flatMap_def]
    congr 1
    refine List.map_congr_left (fun o ho => ?_)
    simp only [txOutputData, WireOutput.toOutput, WireOutput.data, hmin.output_least o ho,
      IntWidth.spell_least, List.append_assoc]
  rw [serialize_eq, WireTx.data]
  simp only [WireTx.toTx, List.length_map, hinputs, houtputs, hmin.inputs_least,
    hmin.outputs_least, IntWidth.spell_least]

theorem inputs_least_of_length
    {ws : List WireInput}
    (hfits : ∀ w ∈ ws, w.width.Fits w.script.length)
    (hlen : (ws.flatMap WireInput.data).length ≤
      ((ws.map (WireInput.toInput codec)).flatMap inputBytes).length) :
    ∀ w ∈ ws, w.width = .least w.script.length := by
  induction ws with
  | nil =>
      simp
  | cons w ws ih =>
      have hrest : ∀ v ∈ ws, v.width.Fits v.script.length :=
        fun v hv => hfits v (List.mem_cons_of_mem _ hv)
      have hhead := length_inputBytes_le codec (hfits w List.mem_cons_self) rfl
      have htail := length_inputs_le codec hrest rfl
      rw [List.map_cons, List.flatMap_cons, List.flatMap_cons, List.length_append,
        List.length_append] at hlen
      have hle := IntWidth.size_least_le (hfits w List.mem_cons_self)
      have hsize : (inputBytes (w.toInput codec)).length ≤
          40 + (IntWidth.least w.script.length).size + w.script.length + w.amountSize := by
        rw [length_inputBytes, spendBytes_toInput, WireInput.amountSize, WireInput.toInput]
        cases isScriptPubKey w.script <;> simp
        split <;> omega
      have hdata := w.length_data
      intro v hv
      rcases List.mem_cons.mp hv with rfl | hv
      · exact IntWidth.eq_of_size_eq (by omega)
      · exact ih hrest (by omega) v hv

theorem outputs_least_of_length
    {ws : List WireOutput}
    (hfits : ∀ w ∈ ws, w.width.Fits w.script.length)
    (hlen : (ws.flatMap WireOutput.data).length ≤
      ((ws.map (WireOutput.toOutput codec)).flatMap txOutputData).length) :
    ∀ w ∈ ws, w.width = .least w.script.length := by
  induction ws with
  | nil =>
      simp
  | cons w ws ih =>
      have hrest : ∀ v ∈ ws, v.width.Fits v.script.length :=
        fun v hv => hfits v (List.mem_cons_of_mem _ hv)
      have htail := length_outputs_le codec hrest rfl
      have hle := IntWidth.size_least_le (hfits w List.mem_cons_self)
      rw [List.map_cons, List.flatMap_cons, List.flatMap_cons, List.length_append,
        List.length_append, length_txOutputData, WireOutput.data, List.length_append,
        List.length_append, LittleEndian.length_bytes, IntWidth.length_spell] at hlen
      change _ ≤ 8 + (IntWidth.least w.script.length).size + w.script.length + _ at hlen
      intro v hv
      rcases List.mem_cons.mp hv with rfl | hv
      · exact IntWidth.eq_of_size_eq (by omega)
      · exact ih hrest (by omega) v hv

/-- Only the shortest spelling has the length of the serialization. -/
theorem minimal_of_length
    {w : WireTx}
    (hwf : w.WellFormed)
    (hlen : w.data.length ≤ (w.toTx codec sha256d).serialize.length) :
    w.Minimal := by
  have hin := length_inputs_le codec hwf.input_fits rfl
  have hout := length_outputs_le codec hwf.output_fits rfl
  have hinLeast := IntWidth.size_least_le hwf.inputs_fit
  have houtLeast := IntWidth.size_least_le hwf.outputs_fit
  rw [length_serialize] at hlen
  simp only [WireTx.toTx, WireTx.data, List.length_append, LittleEndian.length_bytes,
    IntWidth.length_spell, List.length_map] at hlen
  exact ⟨IntWidth.eq_of_size_eq (by omega),
    inputs_least_of_length codec hwf.input_fits (by omega),
    IntWidth.eq_of_size_eq (by omega),
    outputs_least_of_length codec hwf.output_fits (by omega)⟩

end Shortest

/-! ## Inputs behind the buffer -/

section Missing

variable {codec : ScriptCodec} {sha256d : List UInt8 → UInt256} {buf : List UInt8} {off : ℕ}

/-- An input the parser has not set. -/
def Missing (input : BRTxInput) : Prop :=
  input.signature = none ∧ input.script = none

theorem wrap_lt
    (x : ℕ) :
    wrap x < 2 ^ 64 :=
  Nat.mod_lt _ (by norm_num)

theorem parseInputs_past
    (n : ℕ) (isSigned : Bool)
    (hoff : buf.length < off) :
    parseInputs codec buf n off isSigned = .ok (List.replicate n zeroInput, off, isSigned) := by
  cases n with
  | zero =>
      rfl
  | succ n =>
      rw [parseInputs, if_neg (by omega)]
      rfl

/-- An input that is not set ends behind the buffer. -/
theorem parseInput_missing
    {r : BRTxInput × ℕ × Bool}
    (h : parseInput codec buf off = .ok r)
    (hmissing : Missing r.1) :
    buf.length < r.2.1 := by
  simp only [parseInput] at h
  obtain ⟨txHash, -, h⟩ := Machine.bind_eq_ok.mp h
  obtain ⟨index, -, h⟩ := Machine.bind_eq_ok.mp h
  obtain ⟨spend, hspend, h⟩ := Machine.bind_eq_ok.mp h
  obtain ⟨sequence, hsequence, h⟩ := Machine.bind_eq_ok.mp h
  cases h
  generalize wrap (wrap (wrap (off + 32) + 4) +
    (varInt buf (wrap (wrap (off + 32) + 4))).2) = start at *
  generalize (varInt buf (wrap (wrap (off + 32) + 4))).1 = sLen at *
  rw [parseSpend] at hspend
  split at hspend
  · obtain ⟨script, -, hspend⟩ := Machine.bind_eq_ok.mp hspend
    split at hspend
    · obtain ⟨amount, -, hspend⟩ := Machine.bind_eq_ok.mp hspend
      cases hspend
      exact absurd hmissing.2 (by simp [BRTxInput.setScript])
    · obtain ⟨input, hset, hspend⟩ := Machine.bind_eq_ok.mp hspend
      obtain ⟨-, rfl⟩ := (BRTxInput.setSignature_eq_ok_iff codec).mp hset
      cases hspend
      exact absurd hmissing.1 (by simp)
  · rename_i hpast
    cases hspend
    dsimp only at hsequence ⊢
    by_contra hend
    have hbound := getLE_bound hsequence (not_lt.mp hend)
    omega

theorem parseInputs_missing
    {n : ℕ} {isSigned : Bool} {r : List BRTxInput × ℕ × Bool}
    (hoff : off < 2 ^ 64)
    (h : parseInputs codec buf n off isSigned = .ok r)
    (hmissing : ∃ input ∈ r.1, Missing input) :
    buf.length < r.2.1 ∧ r.2.1 < 2 ^ 64 := by
  induction n generalizing off isSigned r with
  | zero =>
      cases h
      simp at hmissing
  | succ n ih =>
      rw [parseInputs] at h
      split at h
      · obtain ⟨first, hfirst, h⟩ := Machine.bind_eq_ok.mp h
        obtain ⟨others, hothers, h⟩ := Machine.bind_eq_ok.mp h
        cases h
        have hlt : first.2.1 < 2 ^ 64 := by
          simp only [parseInput] at hfirst
          obtain ⟨_, -, hfirst⟩ := Machine.bind_eq_ok.mp hfirst
          obtain ⟨_, -, hfirst⟩ := Machine.bind_eq_ok.mp hfirst
          obtain ⟨_, -, hfirst⟩ := Machine.bind_eq_ok.mp hfirst
          obtain ⟨_, -, hfirst⟩ := Machine.bind_eq_ok.mp hfirst
          cases hfirst
          exact wrap_lt _
        obtain ⟨input, hinput, hnone⟩ := hmissing
        rcases List.mem_cons.mp hinput with rfl | hinput
        · have hpast := parseInput_missing hfirst hnone
          rw [parseInputs_past n _ hpast] at hothers
          cases hothers
          exact ⟨hpast, hlt⟩
        · have hrest := ih hlt hothers ⟨input, hinput, hnone⟩
          exact hrest
      · rename_i hpast
        cases h
        exact ⟨not_le.mp hpast, hoff⟩

/-- With an input that is not set the offset has wrapped, and what was read is
taken to be four bytes long. -/
theorem parse_missing
    {tx : RawTransaction} {n : ℕ}
    (h : parse codec sha256d buf = .ok (some (tx, n)))
    (hmissing : ∃ input ∈ tx.inputs, Missing input) :
    n = 4 := by
  simp only [parse] at h
  obtain ⟨version, -, h⟩ := Machine.bind_eq_ok.mp h
  obtain ⟨⟨inputs, off, isSigned⟩, hinputs, h⟩ := Machine.bind_eq_ok.mp h
  obtain ⟨⟨outputs, end'⟩, houtputs, h⟩ := Machine.bind_eq_ok.mp h
  obtain ⟨lockTime, hlock, h⟩ := Machine.bind_eq_ok.mp h
  split at h
  · cases h
  rename_i haccept
  cases h
  dsimp only at *
  rw [not_or, not_lt] at haccept
  obtain ⟨hpast, hlt⟩ := parseInputs_missing (wrap_lt _) hinputs hmissing
  dsimp only at hpast hlt
  rw [varInt_of_ge (by omega)] at houtputs
  cases houtputs
  have hbound := getLE_bound hlock haccept.2
  by_cases hwrap : off + 1 < 2 ^ 64
  · rw [wrap_of_lt hwrap] at hbound
    omega
  · have hzero : wrap (off + 1) = 0 := by
      rw [show off + 1 = 2 ^ 64 by omega]
      rfl
    rw [hzero]
    rfl

end Missing

/-! ## What is parsed -/

section Parsed

variable (codec : ScriptCodec) (sha256d : List UInt8 → UInt256)

/-- The buffer starts with a transaction in which every length has its shortest
spelling. -/
def StartsShortest (buf : List UInt8) : Prop :=
  ∃ (w : WireTx) (rest : List UInt8), w.WellFormed ∧ w.Minimal ∧ w.inputs ≠ [] ∧
    buf = w.data ++ rest

/-- All inputs are signed, or at least none was read as unsigned. -/
def ReadAsSigned (tx : RawTransaction) : Prop :=
  tx.isSigned = true ∨ ∀ input ∈ tx.inputs, input.script = none

theorem not_missing_toTx
    (w : WireTx) :
    ¬ ∃ input ∈ (w.toTx codec sha256d).inputs, Missing input := by
  rintro ⟨input, hinput, hsig, hscript⟩
  obtain ⟨i, -, rfl⟩ := List.mem_map.mp hinput
  rw [WireInput.toInput] at hsig hscript
  split at hsig
  · simp_all
  · cases hsig

/-- The bytes of a signed transaction are those it is serialized to if and only
if its lengths have their shortest spelling. -/
theorem parsed_identity_iff
    {buf : List UInt8} {tx : RawTransaction} {n : ℕ}
    (hbuf : buf.length < 2 ^ 63)
    (h : parse codec sha256d buf = .ok (some (tx, n)))
    (hread : ReadAsSigned tx) :
    (tx.serialize = buf.take n ∧ tx.txHash = sha256d tx.serialize) ↔ StartsShortest buf := by
  have hwire : ∀ (w : WireTx) (rest : List UInt8), w.WellFormed → w.inputs ≠ [] →
      buf = w.data ++ rest → tx = w.toTx codec sha256d ∧ n = w.data.length := by
    rintro w rest hwf hne rfl
    have hparse : parse codec sha256d (w.data ++ rest) =
        .ok (some (w.toTx codec sha256d, w.data.length)) := parse_wire hbuf hwf hne
    rw [h] at hparse
    cases hparse
    exact ⟨rfl, rfl⟩
  by_cases hmissing : ∃ input ∈ tx.inputs, Missing input
  · constructor
    · rintro ⟨hsame, -⟩
      have hlength := congrArg List.length hsame
      rw [parse_missing h hmissing, length_serialize, List.length_take] at hlength
      omega
    · rintro ⟨w, rest, hwf, -, hne, hrest⟩
      obtain ⟨rfl, -⟩ := hwire w rest hwf hne hrest
      exact absurd hmissing (not_missing_toTx codec sha256d w)
  · have hspend : ∀ i ∈ tx.inputs, i.signature.isSome ∨ i.script.isSome := by
      intro i hi
      by_contra hnone
      rw [not_or, Option.not_isSome_iff_eq_none, Option.not_isSome_iff_eq_none] at hnone
      exact hmissing ⟨i, hi, hnone⟩
    have hsigned : tx.isSigned = true := by
      rcases hread with hread | hread
      · exact hread
      · refine List.all_eq_true.mpr (fun i hi => ?_)
        exact (hspend i hi).resolve_right (by rw [hread i hi]; simp)
    obtain ⟨w, rest, hwf, hne, hrest, rfl, rfl⟩ := parse_ok hbuf h hspend
    rw [isSigned_toTx] at hsigned
    have htake : buf.take w.data.length = w.data := by rw [hrest, List.take_left]
    constructor
    · rintro ⟨hsame, -⟩
      rw [htake] at hsame
      exact ⟨w, rest, hwf, minimal_of_length codec sha256d hwf (by rw [hsame]), hne, hrest⟩
    · rintro ⟨w', rest', hwf', hmin, hne', hrest'⟩
      obtain ⟨htx, hlen⟩ := hwire w' rest' hwf' hne' hrest'
      have hsigned' : w'.signed = true := by
        rw [← isSigned_toTx codec sha256d, ← htx, isSigned_toTx, hsigned]
      have hserialize : (w.toTx codec sha256d).serialize = w'.data := by
        rw [htx, serialize_toTx codec sha256d hmin hsigned']
      have htake' : buf.take w.data.length = w'.data := by rw [hlen, hrest', List.take_left]
      refine ⟨hserialize.trans htake'.symm, ?_⟩
      rw [hserialize, ← htake', htake]
      exact if_pos hsigned

end Parsed

/-! ## What the parser takes for signed -/

section Flag

variable {codec : ScriptCodec} {sha256d : List UInt8 → UInt256} {buf : List UInt8} {off : ℕ}

/-- Once an input was read as unsigned, so is the transaction. -/
theorem parseInputs_unsigned
    {n : ℕ} {r : List BRTxInput × ℕ × Bool}
    (h : parseInputs codec buf n off false = .ok r) :
    r.2.2 = false := by
  induction n generalizing off r with
  | zero =>
      cases h
      rfl
  | succ n ih =>
      rw [parseInputs] at h
      split at h
      · obtain ⟨first, -, h⟩ := Machine.bind_eq_ok.mp h
        obtain ⟨others, hothers, h⟩ := Machine.bind_eq_ok.mp h
        cases h
        have hrest := ih hothers
        exact hrest
      · cases h
        rfl

/-- A signature that looks like a scriptPubKey is read as one. -/
theorem parseInput_recognised
    {input : BRTxInput} {r : BRTxInput × ℕ × Bool}
    (hbuf : buf.length < 2 ^ 63)
    (hat : At buf off (inputBytes input))
    (hpub : isScriptPubKey (spendBytes input) = true)
    (h : parseInput codec buf off = .ok r) :
    r.2.2 = false := by
  have hend := hat.1
  rw [length_inputBytes] at hend
  rw [inputBytes, txInputData] at hat
  simp only [List.append_assoc] at hat
  obtain ⟨-, hat⟩ := at_append.mp hat
  obtain ⟨-, hat⟩ := at_append.mp hat
  obtain ⟨hwidth, hat⟩ := at_append.mp hat
  obtain ⟨hscript, -⟩ := at_append.mp hat
  rw [length_hashBytes, LittleEndian.length_bytes] at hwidth hscript
  rw [length_varIntSet] at hscript
  rw [← IntWidth.spell_least] at hwidth
  have h₁ : wrap (off + 32) = off + 32 := wrap_of_lt (by omega)
  have h₂ : wrap (off + 32 + 4) = off + 32 + 4 := wrap_of_lt (by omega)
  have h₃ : wrap (off + 32 + 4 + (IntWidth.least (spendBytes input).length).size) =
      off + 32 + 4 + (IntWidth.least (spendBytes input).length).size := wrap_of_lt (by omega)
  have h₄ := hscript.1
  simp only [parseInput] at h
  rw [h₁, h₂, varInt_of_at hwidth (IntWidth.least_fits (by omega))] at h
  dsimp only at h
  rw [h₃] at h
  obtain ⟨txHash, -, h⟩ := Machine.bind_eq_ok.mp h
  obtain ⟨index, -, h⟩ := Machine.bind_eq_ok.mp h
  obtain ⟨spend, hspend, h⟩ := Machine.bind_eq_ok.mp h
  obtain ⟨sequence, -, h⟩ := Machine.bind_eq_ok.mp h
  cases h
  rw [parseSpend, wrap_of_lt (by omega), if_pos h₄, readScript_of_at hscript, Machine.ok_bind,
    if_pos hpub] at hspend
  obtain ⟨amount, -, hspend⟩ := Machine.bind_eq_ok.mp hspend
  cases hspend
  rfl

theorem parseInputs_recognised
    {inputs : List BRTxInput} {isSigned : Bool} {r : List BRTxInput × ℕ × Bool}
    (hbuf : buf.length < 2 ^ 63)
    (hsigned : ∀ input ∈ inputs, input.signature.isSome)
    (hat : At buf off (inputs.flatMap inputBytes))
    (h : parseInputs codec buf inputs.length off isSigned = .ok r)
    (hflag : r.2.2 = true) :
    ∀ input ∈ inputs, isScriptPubKey (spendBytes input) = false := by
  induction inputs generalizing off isSigned r with
  | nil =>
      simp
  | cons input inputs ih =>
      have hend := hat.1
      rw [List.flatMap_cons] at hat hend
      obtain ⟨hfirst, hrest⟩ := at_append.mp hat
      rw [List.length_cons, parseInputs, if_pos (by omega)] at h
      obtain ⟨first, hparse, h⟩ := Machine.bind_eq_ok.mp h
      obtain ⟨others, hothers, h⟩ := Machine.bind_eq_ok.mp h
      cases h
      have hplain : isScriptPubKey (spendBytes input) = false := by
        by_contra hpub
        rw [Bool.not_eq_false] at hpub
        rw [parseInput_recognised hbuf hfirst hpub hparse, Bool.and_false] at hothers
        have hfalse := parseInputs_unsigned hothers
        dsimp only at hflag
        rw [hfalse] at hflag
        cases hflag
      obtain ⟨signature, hsig⟩ := Option.isSome_iff_exists.mp (hsigned input List.mem_cons_self)
      have hunambiguous : Unambiguous input := by
        rw [spendBytes, hsig] at hplain
        rw [Unambiguous, hsig]
        exact hplain
      have hdata := wireInput_data (Or.inl (by rw [hsig]; rfl)) hunambiguous
      have hfits : (wireInput input).width.Fits (wireInput input).script.length := by
        rw [List.length_append, length_inputBytes] at hend
        exact IntWidth.least_fits (by omega)
      have hnext := parseInput_of_at codec hbuf hfits (hdata.symm ▸ hfirst)
      rw [hnext] at hparse
      cases hparse
      rw [hdata] at hothers
      have htail := ih (fun i hi => hsigned i (List.mem_cons_of_mem _ hi)) hrest hothers hflag
      intro i hi
      rcases List.mem_cons.mp hi with rfl | hi
      · exact hplain
      · exact htail i hi

/-- The hash of a signed transaction is only found again if no signature looks
like a scriptPubKey. -/
theorem unrecognised_of_parse
    {tx tx' : RawTransaction} {n : ℕ}
    (hsize : tx.serialize.length < 2 ^ 63)
    (hsigned : ∀ input ∈ tx.inputs, input.signature.isSome)
    (h : parse codec sha256d tx.serialize = .ok (some (tx', n)))
    (hhash : tx'.txHash ≠ 0) :
    tx.inputs ≠ [] ∧ ∀ input ∈ tx.inputs, isScriptPubKey (spendBytes input) = false := by
  have hat : At tx.serialize 0 tx.serialize := Segment.at_zero_iff.mpr ⟨[], by simp⟩
  have hlength := length_serialize tx
  have hcount : tx.inputs.length ≤ (tx.inputs.flatMap inputBytes).length := by
    refine length_le_flatMap (fun input => ?_)
    rw [length_inputBytes]
    omega
  nth_rewrite 2 [serialize_eq] at hat
  generalize tx.serialize = buf at *
  obtain ⟨-, hat⟩ := at_append.mp hat
  obtain ⟨hwidth, hat⟩ := at_append.mp hat
  obtain ⟨hinputs, -⟩ := at_append.mp hat
  rw [LittleEndian.length_bytes, Nat.zero_add] at hwidth hinputs
  rw [length_varIntSet] at hinputs
  rw [← IntWidth.spell_least] at hwidth
  simp only [parse, varInt_of_at hwidth (IntWidth.least_fits (by omega))] at h
  rw [wrap_of_lt (show 4 + (IntWidth.least tx.inputs.length).size < 2 ^ 64 by omega)] at h
  obtain ⟨version, -, h⟩ := Machine.bind_eq_ok.mp h
  obtain ⟨read, hread, h⟩ := Machine.bind_eq_ok.mp h
  obtain ⟨outputs, -, h⟩ := Machine.bind_eq_ok.mp h
  obtain ⟨lockTime, -, h⟩ := Machine.bind_eq_ok.mp h
  split at h
  · cases h
  rename_i haccept
  cases h
  rw [not_or] at haccept
  have hflag : read.2.2 = true := by
    by_contra hfalse
    exact hhash (if_neg hfalse)
  refine ⟨fun hnil => haccept.1 (by rw [hnil]; rfl), ?_⟩
  exact parseInputs_recognised hsize hsigned hinputs hread hflag

end Flag

/-! ## What is signed -/

section Signed

variable {Key : Type} (codec : ScriptCodec) (ops : KeyOps Key) (sha256d : List UInt8 → UInt256)

/-- The transaction comes back from its bytes with its hash. -/
def KeepsHash (tx : RawTransaction) : Prop :=
  ∃ (tx' : RawTransaction) (n : ℕ), parse codec sha256d tx.serialize = .ok (some (tx', n)) ∧
    tx'.txHash = tx.txHash

/-- There is an input, and no signature looks like a scriptPubKey on an input
that none of the keys signs. -/
def Identifiable (keys : List Key) (tx : RawTransaction) : Prop :=
  tx.inputs ≠ [] ∧ ∀ input ∈ tx.inputs, signingKey codec ops keys input = none →
    ∀ signature, input.signature = some signature → isScriptPubKey signature = false

/-- The hash type zero and `SIGHASH_ALL` write the same transaction. -/
theorem transactionData_none
    (tx : RawTransaction) :
    tx.transactionData sha256d none 0 = tx.serialize := by
  have hinput : ∀ sigHash, inputDataAt none sigHash = fun _ => inputBytes := by
    intro sigHash
    funext i input
    exact inputDataAt_none sigHash i input
  have hsection : ∀ sigHash, sigHash ≠ sigHashSingle ∧ sigHash ≠ sigHashNone →
      tx.outputSection none sigHash = varIntSet tx.outputs.length ++ tx.outputData := by
    intro sigHash h
    rw [outputSection, if_pos h]
  rw [transactionData_legacy sha256d tx none (by decide), serialize]
  simp only [legacyData, hinput]
  rw [hsection _ (by decide), hsection _ (by decide), if_neg (by decide), if_neg (by decide)]
  rfl

/-- What a key writes does not look like a scriptPubKey. -/
theorem isScriptPubKey_scriptSig
    (key : Key) (script : List UInt8) (md : UInt256) (hashType : UInt8) :
    isScriptPubKey (scriptSig ops key script (ops.sign key md ++ [hashType])) = false := by
  have hsign := ops.length_sign key md
  have hpubKey := ops.length_pubKey key
  have hlen : (ops.sign key md ++ [hashType]).length < 0x4c := by
    rw [List.length_append, List.length_singleton]
    omega
  rw [scriptSig]
  split
  · exact isScriptPubKey_push_push hlen (by omega)
  · exact isScriptPubKey_push hlen

/-- After signing only the signatures that were kept can look like a
scriptPubKey. -/
theorem unrecognised_signedAll_iff
    (forkId : UInt32) (keys : List Key) (tx : RawTransaction)
    (hsigned : (signedAll codec ops sha256d forkId keys tx).isSigned = true) :
    (∀ input ∈ (signedAll codec ops sha256d forkId keys tx).inputs,
        isScriptPubKey (spendBytes input) = false) ↔
      ∀ input ∈ tx.inputs, signingKey codec ops keys input = none →
        ∀ signature, input.signature = some signature → isScriptPubKey signature = false := by
  constructor
  · intro h input hinput hkey signature hsig
    obtain ⟨i, hi, rfl⟩ := List.mem_iff_getElem.mp hinput
    have hkept : signedInput codec ops sha256d forkId keys tx i tx.inputs[i] = tx.inputs[i] := by
      rw [signedInput, hkey]
    have hspend := h tx.inputs[i] (List.mem_mapIdx.mpr ⟨i, hi, hkept⟩)
    rwa [spendBytes, hsig] at hspend
  · intro h input hinput
    obtain ⟨i, hi, heq⟩ := List.mem_mapIdx.mp hinput
    rw [signedInput] at heq
    cases hkey : signingKey codec ops keys tx.inputs[i] with
    | none =>
        rw [hkey] at heq
        obtain ⟨signature, hsig⟩ := Option.isSome_iff_exists.mp
          (List.all_eq_true.mp hsigned input hinput)
        rw [spendBytes, hsig]
        dsimp only at heq
        exact h tx.inputs[i] (List.getElem_mem hi) hkey signature (heq ▸ hsig)
    | some key =>
        rw [hkey] at heq
        rw [← heq]
        exact isScriptPubKey_scriptSig ops key _ _ _

/-- A signed transaction without such signatures comes back with its hash. -/
theorem keepsHash_of_unrecognised
    {tx : RawTransaction}
    (hsize : tx.serialize.length < 2 ^ 63)
    (hne : tx.inputs ≠ [])
    (hsigned : tx.isSigned = true)
    (hplain : ∀ input ∈ tx.inputs, isScriptPubKey (spendBytes input) = false)
    (hhash : tx.txHash = sha256d tx.serialize) :
    tx.KeepsHash codec sha256d := by
  have hsig : ∀ input ∈ tx.inputs, input.signature.isSome = true :=
    fun input hinput => List.all_eq_true.mp hsigned input hinput
  have hspend : tx.SignedOrSpendable := fun input hinput => Or.inl (hsig input hinput)
  have hunambiguous : ∀ input ∈ tx.inputs, Unambiguous input := by
    intro input hinput
    obtain ⟨signature, hsome⟩ := Option.isSome_iff_exists.mp (hsig input hinput)
    have hbytes := hplain input hinput
    rw [spendBytes, hsome] at hbytes
    rw [Unambiguous, hsome]
    exact hbytes
  refine ⟨_, _, parse_serialize codec sha256d hsize hne hspend hunambiguous, ?_⟩
  have hwire : tx.wire.signed = true := by
    rw [WireTx.signed, wire, List.all_map, List.all_eq_true]
    intro input hinput
    rw [Function.comp_apply, wireInput, hplain input hinput]
    rfl
  rw [WireTx.toTx, wire_data hspend hunambiguous, hhash]
  exact if_pos hwire

/-- **Transaction identity.**  A buffer read as a signed transaction is the
serialization of what was read, and its hash the hash of that, if and only if
every length in it has its shortest spelling.  A transaction that was signed
keeps its hash if it is identifiable, and only then as long as its hash is not
the zero of an unsigned transaction. -/
theorem identity_iff_shortest :
    (∀ (buf : List UInt8) (tx : RawTransaction) (n : ℕ), buf.length < 2 ^ 63 →
        parse codec sha256d buf = .ok (some (tx, n)) → ReadAsSigned tx →
        ((tx.serialize = buf.take n ∧ tx.txHash = sha256d tx.serialize) ↔
          StartsShortest buf)) ∧
      ∀ (forkId : UInt32) (keys : List Key) (tx tx' : RawTransaction),
        sign codec ops sha256d forkId keys tx = .ok (tx', true) →
        tx'.serialize.length < 2 ^ 63 →
        (Identifiable codec ops keys tx → tx'.KeepsHash codec sha256d) ∧
          (sha256d tx'.serialize ≠ 0 → tx'.KeepsHash codec sha256d →
            Identifiable codec ops keys tx) := by
  refine ⟨fun buf tx n hbuf h hread => parsed_identity_iff codec sha256d hbuf h hread, ?_⟩
  intro forkId keys tx tx' h hsize
  obtain ⟨-, hdone, rfl⟩ := (sign_eq_ok_iff codec ops sha256d forkId keys).mp h
  have hplain := unrecognised_signedAll_iff codec ops sha256d forkId keys tx hdone.symm
  have hhash : { signedAll codec ops sha256d forkId keys tx with
      txHash := if true = true then
        sha256d ((signedAll codec ops sha256d forkId keys tx).transactionData sha256d none 0)
        else tx.txHash }.txHash = sha256d (signedAll codec ops sha256d forkId keys tx).serialize := by
    rw [if_pos rfl, transactionData_none]
  have hnil : (signedAll codec ops sha256d forkId keys tx).inputs ≠ [] ↔ tx.inputs ≠ [] := by
    simp [signedAll]
  constructor
  · rintro ⟨hne, hkept⟩
    exact keepsHash_of_unrecognised codec sha256d hsize (hnil.mpr hne) hdone.symm
      (hplain.mpr hkept) hhash
  · rintro hnonzero ⟨tx'', n, hparse, hsame⟩
    have hfound := unrecognised_of_parse hsize
      (fun input hinput => List.all_eq_true.mp hdone.symm input hinput) hparse (by
        rw [hsame, hhash]
        exact hnonzero)
    exact ⟨hnil.mp hfound.1, hplain.mp hfound.2⟩

/-- A transaction with one input, the length of its signature spelled in three
bytes. -/
def longSpelling : List UInt8 :=
  [1, 0, 0, 0] ++ [1] ++ 7 :: List.replicate 31 0 ++ [0, 0, 0, 0] ++ [0xfd, 1, 0] ++ [0x51] ++
    [0xff, 0xff, 0xff, 0xff] ++ [0] ++ [0, 0, 0, 0]

/-- What is made of it. -/
def longSpellingTx : RawTransaction where
  txHash := toyHash longSpelling
  inputs := [{ txHash := 7, index := 0, signature := some [0x51], sequence := txinSequence }]
  outputs := []

/-- It is accepted as signed under a hash that is not the hash of its
serialization, and a transaction without inputs is signed and then refused. -/
theorem longSpelling_changes_hash :
    parse noAddressCodec toyHash longSpelling = .ok (some (longSpellingTx, longSpelling.length)) ∧
      longSpellingTx.isSigned = true ∧
      longSpellingTx.serialize ≠ longSpelling.take longSpelling.length ∧
      longSpellingTx.txHash ≠ toyHash longSpellingTx.serialize ∧
      ∃ tx, sign noAddressCodec toyOps toyHash 0 [] RawTransaction.new = .ok (tx, true) ∧
        parse noAddressCodec toyHash tx.serialize = .ok none := by
  refine ⟨by decide +kernel, by decide +kernel, by decide +kernel, by decide +kernel,
    ⟨_, rfl, by decide +kernel⟩⟩

end Signed

end RawTransaction
end BreadwalletCore
