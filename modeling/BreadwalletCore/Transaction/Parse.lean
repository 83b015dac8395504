import BreadwalletCore.Transaction.Wire

/-!
# Parsing

`BRTransactionParse`.  Offsets are `size_t`, so they wrap at `2 ^ 64`, and every
read is guarded by a comparison of an offset that may have wrapped; a read that
passes the comparison and still lies outside the buffer is a fault.

The two theorems at the end say what the parser accepts: everything in the wire
format, and, when every input came out with a script or a signature, nothing
else.  Both are about buffers that exist, that is shorter than `2 ^ 63` bytes.
-/

namespace BreadwalletCore

open Segment (slice At at_append)

/-- `size_t` arithmetic. -/
def wrap (x : ℕ) : ℕ :=
  x % 2 ^ 64

/-- `(off + n <= bufLen) ? GetLE(&buf[off]) : 0`. -/
def getLE (buf : List UInt8) (off n : ℕ) : Except MemoryFault ℕ :=
  if wrap (off + n) ≤ buf.length then
    if off + n ≤ buf.length then pure (LittleEndian.value (slice buf off n))
    else throw .invalidRead
  else pure 0

/-- The bytes a setter copies out of the buffer. -/
def readScript (buf : List UInt8) (off sLen : ℕ) : Except MemoryFault (List UInt8) :=
  if off + sLen ≤ buf.length then pure (slice buf off sLen) else throw .invalidRead

/-- The script or signature of an input.  The result has the moved offset and
whether `isSigned` keeps its value. -/
def parseSpend (codec : ScriptCodec) (buf : List UInt8) (off sLen : ℕ) (input : BRTxInput) :
    Except MemoryFault (BRTxInput × ℕ × Bool) :=
  if wrap (off + sLen) ≤ buf.length then do
    let script ← readScript buf off sLen
    if isScriptPubKey script then do
      let amount ← getLE buf (wrap (off + sLen)) 8
      pure ({ input.setScript codec (some script) with amount := UInt64.ofNat amount },
        wrap (off + 8), false)
    else do
      let input ← input.setSignature codec (some script)
      pure (input, off, true)
  else pure (input, off, true)

/-- An input in the zeroed array. -/
def zeroInput : BRTxInput where
  txHash := 0
  index := 0
  signature := none
  sequence := 0

/-- The body of the loop over the inputs. -/
def parseInput (codec : ScriptCodec) (buf : List UInt8) (off : ℕ) :
    Except MemoryFault (BRTxInput × ℕ × Bool) := do
  let txHash ← getLE buf off 32
  let off := wrap (off + 32)
  let index ← getLE buf off 4
  let off := wrap (off + 4)
  let sLen := (varInt buf off).1
  let off := wrap (off + (varInt buf off).2)
  let spend ← parseSpend codec buf off sLen
    { zeroInput with txHash := BitVec.ofNat 256 txHash, index := UInt32.ofNat index }
  let off := wrap (spend.2.1 + sLen)
  let sequence ← getLE buf off 4
  pure ({ spend.1 with sequence := UInt32.ofNat sequence }, wrap (off + 4), spend.2.2)

/-- The loop over the inputs; the array was zeroed before. -/
def parseInputs (codec : ScriptCodec) (buf : List UInt8) :
    ℕ → ℕ → Bool → Except MemoryFault (List BRTxInput × ℕ × Bool)
  | 0, off, isSigned => pure ([], off, isSigned)
  | n + 1, off, isSigned =>
      if off ≤ buf.length then do
        let first ← parseInput codec buf off
        let rest ← parseInputs codec buf n first.2.1 (isSigned && first.2.2)
        pure (first.1 :: rest.1, rest.2)
      else pure (List.replicate (n + 1) zeroInput, off, isSigned)

/-- The body of the loop over the outputs. -/
def parseOutput (codec : ScriptCodec) (buf : List UInt8) (off : ℕ) :
    Except MemoryFault (BRTxOutput × ℕ) := do
  let amount ← getLE buf off 8
  let off := wrap (off + 8)
  let sLen := (varInt buf off).1
  let off := wrap (off + (varInt buf off).2)
  let script ← (if wrap (off + sLen) ≤ buf.length then some <$> readScript buf off sLen
    else pure none : Except MemoryFault (Option (List UInt8)))
  pure ({ address := (script.map codec.addressFromScriptPubKey).getD []
          amount := UInt64.ofNat amount
          script := script.getD [] },
    wrap (off + sLen))

/-- The loop over the outputs; the array was zeroed before. -/
def parseOutputs (codec : ScriptCodec) (buf : List UInt8) :
    ℕ → ℕ → Except MemoryFault (List BRTxOutput × ℕ)
  | 0, off => pure ([], off)
  | n + 1, off =>
      if off ≤ buf.length then do
        let first ← parseOutput codec buf off
        let rest ← parseOutputs codec buf n first.2
        pure (first.1 :: rest.1, rest.2)
      else pure (List.replicate (n + 1) { address := [], amount := 0 }, off)

/-- `BRTransactionParse`, with the number of bytes that were read. -/
def parse (codec : ScriptCodec) (sha256d : List UInt8 → UInt256) (buf : List UInt8) :
    Except MemoryFault (Option (RawTransaction × ℕ)) := do
  let version ← getLE buf 0 4
  let inCount := (varInt buf 4).1
  let inputs ← parseInputs codec buf inCount (wrap (4 + (varInt buf 4).2)) true
  let off := inputs.2.1
  let outCount := (varInt buf off).1
  let outputs ← parseOutputs codec buf outCount (wrap (off + (varInt buf off).2))
  let off := outputs.2
  let lockTime ← getLE buf off 4
  let off := wrap (off + 4)
  if inCount = 0 ∨ off > buf.length then pure none
  else
    pure (some
      ({ txHash := if inputs.2.2 then sha256d (buf.take off) else 0
         version := UInt32.ofNat version
         inputs := inputs.1
         outputs := outputs.1
         lockTime := UInt32.ofNat lockTime }, off))

/-! ## What is in the wire format is read -/

section Complete

variable {codec : ScriptCodec} {sha256d : List UInt8 → UInt256} {buf : List UInt8} {off : ℕ}

theorem wrap_of_lt
    {x : ℕ}
    (hx : x < 2 ^ 64) :
    wrap x = x :=
  Nat.mod_eq_of_lt hx

theorem getLE_of_at
    {n v : ℕ}
    (hbuf : buf.length < 2 ^ 63)
    (hat : At buf off (LittleEndian.bytes n v))
    (hv : v < 256 ^ n) :
    getLE buf off n = .ok v := by
  have hlen := hat.1
  rw [LittleEndian.length_bytes] at hlen
  rw [getLE, wrap_of_lt (by omega), if_pos hlen, if_pos hlen, value_slice_of_at hat hv]
  rfl

theorem readScript_of_at
    {script : List UInt8}
    (hat : At buf off script) :
    readScript buf off script.length = .ok script := by
  rw [readScript, if_pos hat.1, hat.2]
  rfl

theorem getLE_uint32
    {x : UInt32}
    (hbuf : buf.length < 2 ^ 63)
    (hat : At buf off (LittleEndian.bytes 4 x.toNat)) :
    getLE buf off 4 = .ok x.toNat :=
  getLE_of_at hbuf hat x.toNat_lt

theorem getLE_uint64
    {x : UInt64}
    (hbuf : buf.length < 2 ^ 63)
    (hat : At buf off (LittleEndian.bytes 8 x.toNat)) :
    getLE buf off 8 = .ok x.toNat :=
  getLE_of_at hbuf hat x.toNat_lt

theorem getLE_hash
    {h : UInt256}
    (hbuf : buf.length < 2 ^ 63)
    (hat : At buf off (hashBytes h)) :
    getLE buf off 32 = .ok h.toNat :=
  getLE_of_at hbuf hat (lt_of_lt_of_eq h.isLt (by norm_num))

theorem parseSpend_of_at
    (codec : ScriptCodec) {script : List UInt8} (amount : UInt64) (input : BRTxInput)
    (hbuf : buf.length < 2 ^ 63)
    (hscript : At buf off script)
    (hamount : isScriptPubKey script →
      At buf (off + script.length) (LittleEndian.bytes 8 amount.toNat))
    (hstray : input.strayPointer = false)
    (haddress : input.address = []) :
    parseSpend codec buf off script.length input =
      .ok (if isScriptPubKey script then
          ({ input.setScript codec (some script) with amount := amount }, off + 8, false)
        else
          ({ input with
             signature := some script
             address := codec.addressFromScriptSig script }, off, true)) := by
  have hlen := hscript.1
  have hwrap : wrap (off + script.length) = off + script.length := wrap_of_lt (by omega)
  rw [parseSpend, hwrap, if_pos hlen, readScript_of_at hscript, Machine.ok_bind]
  by_cases hpub : isScriptPubKey script = true
  · have hend := (hamount hpub).1
    rw [LittleEndian.length_bytes] at hend
    rw [if_pos hpub, if_pos hpub, getLE_uint64 hbuf (hamount hpub), Machine.ok_bind,
      wrap_of_lt (by omega), UInt64.ofNat_toNat]
    rfl
  · rw [if_neg hpub, if_neg hpub, BRTxInput.setSignature_of_not_stray codec hstray,
      Machine.ok_bind, haddress, if_pos rfl]
    rfl

theorem parseInput_of_at
    (codec : ScriptCodec) {w : WireInput}
    (hbuf : buf.length < 2 ^ 63)
    (hfits : w.width.Fits w.script.length)
    (hat : At buf off w.data) :
    parseInput codec buf off =
      .ok (w.toInput codec, off + w.data.length, !isScriptPubKey w.script) := by
  have hend := hat.1
  rw [w.length_data] at hend ⊢
  obtain ⟨hhash, hindex, hwidth, hscript, hamount, hseq⟩ := WireInput.at_data_iff.mp hat
  have h₁ : wrap (off + 32) = off + 32 := wrap_of_lt (by omega)
  have h₂ : wrap (off + 32 + 4) = off + 32 + 4 := wrap_of_lt (by omega)
  have h₃ : wrap (off + 32 + 4 + w.width.size) = off + 32 + 4 + w.width.size :=
    wrap_of_lt (by omega)
  have hspend := parseSpend_of_at codec w.amount
    { zeroInput with txHash := w.txHash, index := w.index }
    hbuf hscript (fun hpub => by rwa [if_pos hpub] at hamount) rfl rfl
  simp only [parseInput, getLE_hash hbuf hhash, getLE_uint32 hbuf hindex, Machine.ok_bind, h₁, h₂,
    varInt_of_at hwidth hfits, h₃, BitVec.ofNat_toNat, BitVec.setWidth_eq, UInt32.ofNat_toNat,
    hspend]
  by_cases hpub : isScriptPubKey w.script = true
  · rw [WireInput.amountSize, if_pos hpub] at hseq hend ⊢
    have h₄ : wrap (off + 32 + 4 + w.width.size + 8 + w.script.length) =
        off + 32 + 4 + w.width.size + w.script.length + 8 := by
      rw [wrap_of_lt (by omega)]
      omega
    have h₅ : wrap (off + 32 + 4 + w.width.size + w.script.length + 8 + 4) =
        off + (32 + 4 + w.width.size + w.script.length + 8 + 4) := by
      rw [wrap_of_lt (by omega)]
      omega
    simp only [hpub, if_true, h₄, getLE_uint32 hbuf hseq, Machine.ok_bind, h₅, WireInput.toInput,
      UInt32.ofNat_toNat]
    rfl
  · rw [WireInput.amountSize, if_neg hpub, Nat.add_zero] at hseq hend ⊢
    have h₄ : wrap (off + 32 + 4 + w.width.size + w.script.length) =
        off + 32 + 4 + w.width.size + w.script.length := wrap_of_lt (by omega)
    have h₅ : wrap (off + 32 + 4 + w.width.size + w.script.length + 4) =
        off + (32 + 4 + w.width.size + w.script.length + 4) := by
      rw [wrap_of_lt (by omega)]
      omega
    simp only [hpub, Bool.false_eq_true, if_false, h₄, getLE_uint32 hbuf hseq, Machine.ok_bind, h₅,
      WireInput.toInput, UInt32.ofNat_toNat]
    rfl

theorem parseInputs_of_at
    {ws : List WireInput}
    (isSigned : Bool)
    (hbuf : buf.length < 2 ^ 63)
    (hfits : ∀ w ∈ ws, w.width.Fits w.script.length)
    (hat : At buf off (ws.flatMap WireInput.data)) :
    parseInputs codec buf ws.length off isSigned =
      .ok (ws.map (WireInput.toInput codec), off + (ws.flatMap WireInput.data).length,
        isSigned && ws.all (fun w => !isScriptPubKey w.script)) := by
  induction ws generalizing off isSigned with
  | nil =>
      simp [parseInputs]
      rfl
  | cons w ws ih =>
      have hend := hat.1
      rw [List.flatMap_cons] at hat
      obtain ⟨hfirst, hrest⟩ := at_append.mp hat
      have hparse := parseInput_of_at codec hbuf (hfits w List.mem_cons_self) hfirst
      have hnext := ih (isSigned && !isScriptPubKey w.script)
        (fun v hv => hfits v (List.mem_cons_of_mem _ hv)) hrest
      rw [List.length_cons, parseInputs, if_pos (by omega), hparse, Machine.ok_bind, hnext,
        Machine.ok_bind]
      simp [Nat.add_assoc, Bool.and_assoc]
      rfl

theorem parseOutput_of_at
    (codec : ScriptCodec) {w : WireOutput}
    (hbuf : buf.length < 2 ^ 63)
    (hfits : w.width.Fits w.script.length)
    (hat : At buf off w.data) :
    parseOutput codec buf off = .ok (w.toOutput codec, off + w.data.length) := by
  have hend := hat.1
  have hdata : w.data.length = 8 + w.width.size + w.script.length := by
    simp [WireOutput.data]
    omega
  rw [WireOutput.data] at hat
  obtain ⟨hamount, hat⟩ := at_append.mp hat
  obtain ⟨hwidth, hscript⟩ := at_append.mp hat
  simp only [LittleEndian.length_bytes, IntWidth.length_spell] at hwidth hscript
  have hlast := hscript.1
  have h₁ : wrap (off + 8) = off + 8 := wrap_of_lt (by omega)
  have h₂ : wrap (off + 8 + w.width.size) = off + 8 + w.width.size := wrap_of_lt (by omega)
  have h₃ : wrap (off + 8 + w.width.size + w.script.length) = off + w.data.length := by
    rw [wrap_of_lt (by omega)]
    omega
  simp only [parseOutput, getLE_uint64 hbuf hamount, Machine.ok_bind, h₁,
    varInt_of_at hwidth hfits, h₂, h₃, if_pos hend, readScript_of_at hscript, UInt64.ofNat_toNat]
  rfl

theorem parseOutputs_of_at
    {ws : List WireOutput}
    (hbuf : buf.length < 2 ^ 63)
    (hfits : ∀ w ∈ ws, w.width.Fits w.script.length)
    (hat : At buf off (ws.flatMap WireOutput.data)) :
    parseOutputs codec buf ws.length off =
      .ok (ws.map (WireOutput.toOutput codec), off + (ws.flatMap WireOutput.data).length) := by
  induction ws generalizing off with
  | nil =>
      simp [parseOutputs]
      rfl
  | cons w ws ih =>
      have hend := hat.1
      rw [List.flatMap_cons] at hat
      obtain ⟨hfirst, hrest⟩ := at_append.mp hat
      have hparse := parseOutput_of_at codec hbuf (hfits w List.mem_cons_self) hfirst
      have hnext := ih (fun v hv => hfits v (List.mem_cons_of_mem _ hv)) hrest
      rw [List.length_cons, parseOutputs, if_pos (by omega), hparse, Machine.ok_bind, hnext,
        Machine.ok_bind]
      simp [Nat.add_assoc]
      rfl

/-- A transaction in the wire format is parsed, whatever follows it. -/
theorem parse_wire
    {w : WireTx} {rest : List UInt8}
    (hbuf : (w.data ++ rest).length < 2 ^ 63)
    (hwf : w.WellFormed)
    (hne : w.inputs ≠ []) :
    parse codec sha256d (w.data ++ rest) =
      .ok (some (w.toTx codec sha256d, w.data.length)) := by
  have hat : At (w.data ++ rest) 0 w.data := Segment.at_zero_iff.mpr ⟨rest, rfl⟩
  have htake : (w.data ++ rest).take w.data.length = w.data := List.take_left
  have hend := hat.1
  generalize w.data ++ rest = buf at *
  have hlength : w.data.length = 4 + w.inWidth.size + (w.inputs.flatMap WireInput.data).length +
      w.outWidth.size + (w.outputs.flatMap WireOutput.data).length + 4 := by
    simp only [WireTx.data, List.length_append, LittleEndian.length_bytes, IntWidth.length_spell]
    omega
  have hsegments := hat
  rw [WireTx.data] at hsegments
  obtain ⟨hversion, hsegments⟩ := at_append.mp hsegments
  obtain ⟨hinWidth, hsegments⟩ := at_append.mp hsegments
  obtain ⟨hinputs, hsegments⟩ := at_append.mp hsegments
  obtain ⟨houtWidth, hsegments⟩ := at_append.mp hsegments
  obtain ⟨houtputs, hlock⟩ := at_append.mp hsegments
  simp only [LittleEndian.length_bytes, IntWidth.length_spell, Nat.zero_add] at *
  have hcount : w.inputs.length ≠ 0 := fun h => hne (List.length_eq_zero_iff.mp h)
  have h₁ : wrap (4 + w.inWidth.size) = 4 + w.inWidth.size := wrap_of_lt (by omega)
  have h₂ : wrap (4 + w.inWidth.size + (w.inputs.flatMap WireInput.data).length +
      w.outWidth.size) = 4 + w.inWidth.size + (w.inputs.flatMap WireInput.data).length +
        w.outWidth.size := wrap_of_lt (by omega)
  have h₃ : wrap (4 + w.inWidth.size + (w.inputs.flatMap WireInput.data).length +
      w.outWidth.size + (w.outputs.flatMap WireOutput.data).length + 4) = w.data.length := by
    rw [wrap_of_lt (by omega), hlength]
  simp only [parse, getLE_uint32 hbuf hversion, Machine.ok_bind,
    varInt_of_at hinWidth hwf.inputs_fit, h₁, parseInputs_of_at true hbuf hwf.input_fits hinputs,
    varInt_of_at houtWidth hwf.outputs_fit, h₂, parseOutputs_of_at hbuf hwf.output_fits houtputs,
    getLE_uint32 hbuf hlock, h₃]
  rw [if_neg (by omega), htake]
  simp only [UInt32.ofNat_toNat, Bool.true_and]
  rfl

end Complete

/-! ## What is accepted is in the wire format -/

section Sound

variable {codec : ScriptCodec} {sha256d : List UInt8 → UInt256} {buf : List UInt8} {off : ℕ}

theorem getLE_inside
    {n : ℕ}
    (hbuf : buf.length < 2 ^ 63)
    (hlen : off + n ≤ buf.length) :
    getLE buf off n = .ok (LittleEndian.value (slice buf off n)) ∧
      At buf off (LittleEndian.bytes n (LittleEndian.value (slice buf off n))) ∧
      LittleEndian.value (slice buf off n) < 256 ^ n := by
  refine ⟨?_, ?_, value_slice_lt hlen⟩
  · rw [getLE, wrap_of_lt (by omega), if_pos hlen, if_pos hlen]
    rfl
  · rw [bytes_value_slice hlen]
    exact Segment.at_slice hlen

/-- A number read inside the buffer is there. -/
theorem at_of_getLE
    {n v : ℕ}
    (hbuf : buf.length < 2 ^ 63)
    (hlen : off + n ≤ buf.length)
    (hget : getLE buf off n = .ok v) :
    At buf off (LittleEndian.bytes n v) ∧ v < 256 ^ n := by
  obtain ⟨hok, hat, hlt⟩ := getLE_inside hbuf hlen
  rw [hok] at hget
  cases hget
  exact ⟨hat, hlt⟩

theorem at_uint32_of_getLE
    {v : ℕ}
    (hbuf : buf.length < 2 ^ 63)
    (hlen : off + 4 ≤ buf.length)
    (hget : getLE buf off 4 = .ok v) :
    At buf off (LittleEndian.bytes 4 (UInt32.ofNat v).toNat) := by
  obtain ⟨hat, hlt⟩ := at_of_getLE hbuf hlen hget
  rwa [UInt32.toNat_ofNat_of_lt' hlt]

theorem at_uint64_of_getLE
    {v : ℕ}
    (hbuf : buf.length < 2 ^ 63)
    (hlen : off + 8 ≤ buf.length)
    (hget : getLE buf off 8 = .ok v) :
    At buf off (LittleEndian.bytes 8 (UInt64.ofNat v).toNat) := by
  obtain ⟨hat, hlt⟩ := at_of_getLE hbuf hlen hget
  rwa [UInt64.toNat_ofNat_of_lt' hlt]

theorem at_hash_of_getLE
    {v : ℕ}
    (hbuf : buf.length < 2 ^ 63)
    (hlen : off + 32 ≤ buf.length)
    (hget : getLE buf off 32 = .ok v) :
    At buf off (hashBytes (BitVec.ofNat 256 v)) := by
  obtain ⟨hat, hlt⟩ := at_of_getLE hbuf hlen hget
  rwa [hashBytes, BitVec.toNat_ofNat, Nat.mod_eq_of_lt (lt_of_lt_of_eq hlt (by norm_num))]

/-- The setter copies from inside the buffer. -/
theorem readScript_ok
    {sLen : ℕ} {script : List UInt8}
    (h : readScript buf off sLen = .ok script) :
    off + sLen ≤ buf.length ∧ script = slice buf off sLen := by
  rw [readScript] at h
  split at h
  · cases h
    exact ⟨by assumption, rfl⟩
  · cases h

/-- An input that came out with a script or a signature has its bytes inside
the buffer. -/
theorem parseSpend_ok
    {sLen : ℕ} {input : BRTxInput} {r : BRTxInput × ℕ × Bool}
    (hbuf : buf.length < 2 ^ 63)
    (hoff : off < 2 ^ 63 + 64)
    (hnone : input.signature = none ∧ input.script = none)
    (haddress : input.address = [])
    (h : parseSpend codec buf off sLen input = .ok r)
    (hspend : r.1.signature.isSome ∨ r.1.script.isSome) :
    off + sLen ≤ buf.length ∧
      ((isScriptPubKey (slice buf off sLen) = true ∧ ∃ amount,
          getLE buf (off + sLen) 8 = .ok amount ∧
          r = ({ input.setScript codec (some (slice buf off sLen)) with
            amount := UInt64.ofNat amount }, off + 8, false)) ∨
        (isScriptPubKey (slice buf off sLen) = false ∧
          r = ({ input with
            signature := some (slice buf off sLen)
            address := codec.addressFromScriptSig (slice buf off sLen) }, off, true))) := by
  rw [parseSpend] at h
  split at h
  · obtain ⟨script, hread, h⟩ := Machine.bind_eq_ok.mp h
    obtain ⟨hlen, rfl⟩ := readScript_ok hread
    refine ⟨hlen, ?_⟩
    split at h
    · rename_i hpub
      obtain ⟨amount, hamount, h⟩ := Machine.bind_eq_ok.mp h
      rw [wrap_of_lt (by omega)] at hamount
      rw [wrap_of_lt (by omega)] at h
      cases h
      exact Or.inl ⟨hpub, amount, hamount, rfl⟩
    · rename_i hpub
      obtain ⟨input', hset, h⟩ := Machine.bind_eq_ok.mp h
      obtain ⟨-, rfl⟩ := (BRTxInput.setSignature_eq_ok_iff codec).mp hset
      cases h
      refine Or.inr ⟨by simpa using hpub, ?_⟩
      rw [haddress, if_pos rfl]
      rfl
  · cases h
    rw [hnone.1, hnone.2] at hspend
    simp at hspend

/-- One round of the loop over the inputs.  Its end may lie behind the buffer,
but not far, and if it does not, the input is in the wire format. -/
theorem parseInput_ok
    {r : BRTxInput × ℕ × Bool}
    (hbuf : buf.length < 2 ^ 63)
    (hoff : off ≤ buf.length)
    (h : parseInput codec buf off = .ok r)
    (hspend : r.1.signature.isSome ∨ r.1.script.isSome) :
    r.2.1 ≤ buf.length + 12 ∧
      (r.2.1 ≤ buf.length → ∃ w : WireInput, w.width.Fits w.script.length ∧
        At buf off w.data ∧
        r = (w.toInput codec, off + w.data.length, !isScriptPubKey w.script)) := by
  have h₁ : wrap (off + 32) = off + 32 := wrap_of_lt (by omega)
  have h₂ : wrap (off + 32 + 4) = off + 32 + 4 := wrap_of_lt (by omega)
  have hvar := varInt_length buf (off + 32 + 4)
  have h₃ : wrap (off + 32 + 4 + (varInt buf (off + 32 + 4)).2) =
      off + 32 + 4 + (varInt buf (off + 32 + 4)).2 := wrap_of_lt (by omega)
  simp only [parseInput] at h
  rw [h₁, h₂, h₃] at h
  obtain ⟨txHash, hhash, h⟩ := Machine.bind_eq_ok.mp h
  obtain ⟨index, hindex, h⟩ := Machine.bind_eq_ok.mp h
  obtain ⟨spend, hspent, h⟩ := Machine.bind_eq_ok.mp h
  obtain ⟨sequence, hsequence, h⟩ := Machine.bind_eq_ok.mp h
  cases h
  obtain ⟨hlen, hcases⟩ := parseSpend_ok hbuf (by omega) ⟨rfl, rfl⟩ rfl hspent hspend
  obtain ⟨width, hfits, hsize, hwidth⟩ := at_of_varInt
    (show off + 32 + 4 + (varInt buf (off + 32 + 4)).2 ≤ buf.length by omega)
  have hscript := Segment.at_slice hlen
  have hscriptLen := Segment.length_slice hlen
  generalize hsl : (varInt buf (off + 32 + 4)).1 = sLen at *
  generalize hvl : (varInt buf (off + 32 + 4)).2 = len at *
  generalize hs : slice buf (off + 32 + 4 + len) sLen = script at *
  subst hsize
  rcases hcases with ⟨hpub, amount, hamount, rfl⟩ | ⟨hpub, rfl⟩
  · have h₄ : wrap (off + 32 + 4 + width.size + 8 + sLen) =
        off + 32 + 4 + width.size + sLen + 8 := by
      rw [wrap_of_lt (by omega)]
      omega
    have h₅ : wrap (off + 32 + 4 + width.size + sLen + 8 + 4) =
        off + 32 + 4 + width.size + sLen + 8 + 4 := wrap_of_lt (by omega)
    rw [h₄] at hsequence ⊢
    rw [h₅]
    dsimp only
    refine ⟨by omega, fun hend => ?_⟩
    let w : WireInput := ⟨BitVec.ofNat 256 txHash, UInt32.ofNat index, width, script,
      UInt64.ofNat amount, UInt32.ofNat sequence⟩
    have hsize : w.amountSize = 8 := if_pos hpub
    have hdata : w.data.length = 32 + 4 + width.size + sLen + 8 + 4 := by
      rw [w.length_data, hsize, ← hscriptLen]
    have hamountAt := at_uint64_of_getLE hbuf (show _ + 8 ≤ buf.length by omega) hamount
    refine ⟨w, hscriptLen ▸ hfits, WireInput.at_data_iff.mpr
      ⟨at_hash_of_getLE hbuf (by omega) hhash, at_uint32_of_getLE hbuf (by omega) hindex,
        hscriptLen ▸ hwidth, hscript, ?_, ?_⟩, ?_⟩
    · rw [if_pos hpub]
      exact hscriptLen ▸ hamountAt
    · rw [hsize]
      exact hscriptLen ▸ at_uint32_of_getLE hbuf (by omega) hsequence
    · rw [WireInput.toInput, if_pos hpub, hdata, hpub]
      refine Prod.ext rfl (Prod.ext ?_ rfl)
      show off + 32 + 4 + width.size + sLen + 8 + 4 = off + (32 + 4 + width.size + sLen + 8 + 4)
      omega
  · have h₄ : wrap (off + 32 + 4 + width.size + sLen) = off + 32 + 4 + width.size + sLen :=
      wrap_of_lt (by omega)
    have h₅ : wrap (off + 32 + 4 + width.size + sLen + 4) =
        off + 32 + 4 + width.size + sLen + 4 := wrap_of_lt (by omega)
    rw [h₄] at hsequence ⊢
    rw [h₅]
    dsimp only
    refine ⟨by omega, fun hend => ?_⟩
    let w : WireInput := ⟨BitVec.ofNat 256 txHash, UInt32.ofNat index, width, script, 0,
      UInt32.ofNat sequence⟩
    have hsize : w.amountSize = 0 := if_neg (by simpa using hpub)
    have hdata : w.data.length = 32 + 4 + width.size + sLen + 4 := by
      rw [w.length_data, hsize, ← hscriptLen]
    have hnil : At buf (off + 32 + 4 + width.size + sLen) [] := Segment.at_nil (by omega)
    refine ⟨w, hscriptLen ▸ hfits, WireInput.at_data_iff.mpr
      ⟨at_hash_of_getLE hbuf (by omega) hhash, at_uint32_of_getLE hbuf (by omega) hindex,
        hscriptLen ▸ hwidth, hscript, ?_, ?_⟩, ?_⟩
    · rw [if_neg (by simpa using hpub)]
      exact hscriptLen ▸ hnil
    · rw [hsize]
      exact hscriptLen ▸ at_uint32_of_getLE hbuf (by omega) hsequence
    · rw [WireInput.toInput, if_neg (by simpa using hpub), hdata, hpub]
      refine Prod.ext rfl (Prod.ext ?_ rfl)
      show off + 32 + 4 + width.size + sLen + 4 = off + (32 + 4 + width.size + sLen + 4)
      omega

/-- The loop over the inputs.  An input behind the end of the buffer would have
neither a script nor a signature. -/
theorem parseInputs_ok
    {n : ℕ} {isSigned : Bool} {r : List BRTxInput × ℕ × Bool}
    (hbuf : buf.length < 2 ^ 63)
    (hoff : off < 2 ^ 63 + 32)
    (h : parseInputs codec buf n off isSigned = .ok r)
    (hspend : ∀ i ∈ r.1, i.signature.isSome ∨ i.script.isSome) :
    r.2.1 < 2 ^ 63 + 32 ∧
      (r.2.1 ≤ buf.length → ∃ ws : List WireInput, ws.length = n ∧
        (∀ w ∈ ws, w.width.Fits w.script.length) ∧
        At buf off (ws.flatMap WireInput.data) ∧
        r = (ws.map (WireInput.toInput codec), off + (ws.flatMap WireInput.data).length,
          isSigned && ws.all (fun w => !isScriptPubKey w.script))) := by
  induction n generalizing off isSigned r with
  | zero =>
      cases h
      refine ⟨hoff, fun hend => ⟨[], rfl, by simp, Segment.at_nil hend, ?_⟩⟩
      simp
  | succ n ih =>
      rw [parseInputs] at h
      split at h
      · rename_i hin
        obtain ⟨first, hfirst, h⟩ := Machine.bind_eq_ok.mp h
        obtain ⟨others, hothers, h⟩ := Machine.bind_eq_ok.mp h
        cases h
        obtain ⟨hle, hinput⟩ := parseInput_ok hbuf hin hfirst (hspend _ List.mem_cons_self)
        obtain ⟨hlt, hrest⟩ := ih (by omega) hothers
          (fun i hi => hspend i (List.mem_cons_of_mem _ hi))
        refine ⟨hlt, fun hend => ?_⟩
        obtain ⟨ws, hlen, hfits, hat, rfl⟩ := hrest hend
        obtain ⟨w, hw, hwat, rfl⟩ := hinput (le_trans (Nat.le_add_right _ _) hat.1)
        refine ⟨w :: ws, by rw [List.length_cons, hlen], ?_, ?_, ?_⟩
        · intro v hv
          rcases List.mem_cons.mp hv with rfl | hv
          · exact hw
          · exact hfits v hv
        · rw [List.flatMap_cons]
          exact at_append.mpr ⟨hwat, hat⟩
        · simp [Nat.add_assoc, Bool.and_assoc]
      · cases h
        have hzero := hspend zeroInput (by simp)
        simp [zeroInput] at hzero

theorem parseOutput_ok
    {r : BRTxOutput × ℕ}
    (hbuf : buf.length < 2 ^ 63)
    (hoff : off ≤ buf.length)
    (h : parseOutput codec buf off = .ok r)
    (hend : r.2 ≤ buf.length) :
    ∃ w : WireOutput, w.width.Fits w.script.length ∧ At buf off w.data ∧
      r = (w.toOutput codec, off + w.data.length) := by
  have hvar := varInt_length buf (off + 8)
  have h₁ : wrap (off + 8) = off + 8 := wrap_of_lt (by omega)
  have h₂ : wrap (off + 8 + (varInt buf (off + 8)).2) = off + 8 + (varInt buf (off + 8)).2 :=
    wrap_of_lt (by omega)
  simp only [parseOutput] at h
  rw [h₁, h₂] at h
  obtain ⟨amount, hamount, h⟩ := Machine.bind_eq_ok.mp h
  obtain ⟨script, hscript, h⟩ := Machine.bind_eq_ok.mp h
  cases h
  rw [if_pos hend] at hscript
  obtain ⟨script, hread, rfl⟩ : ∃ s, readScript buf (off + 8 + (varInt buf (off + 8)).2)
      (varInt buf (off + 8)).1 = .ok s ∧ script = some s := by
    cases hread : readScript buf (off + 8 + (varInt buf (off + 8)).2) (varInt buf (off + 8)).1 with
    | error e =>
        rw [hread] at hscript
        cases hscript
    | ok s =>
        rw [hread] at hscript
        cases hscript
        exact ⟨s, rfl, rfl⟩
  obtain ⟨hlen, rfl⟩ := readScript_ok hread
  obtain ⟨width, hfits, hsize, hwidth⟩ := at_of_varInt
    (show off + 8 + (varInt buf (off + 8)).2 ≤ buf.length by omega)
  have hscriptAt := Segment.at_slice hlen
  have hscriptLen := Segment.length_slice hlen
  have hamountAt := at_uint64_of_getLE hbuf (by omega) hamount
  refine ⟨⟨UInt64.ofNat amount, width, slice buf (off + 8 + (varInt buf (off + 8)).2)
    (varInt buf (off + 8)).1⟩, by rw [hscriptLen]; exact hfits, ?_, ?_⟩
  · rw [WireOutput.data, at_append, at_append, LittleEndian.length_bytes, IntWidth.length_spell,
      hscriptLen, hsize]
    exact ⟨hamountAt, hwidth, hscriptAt⟩
  · refine Prod.ext rfl ?_
    rw [wrap_of_lt (by omega), WireOutput.data, List.length_append, List.length_append,
      LittleEndian.length_bytes, IntWidth.length_spell, hscriptLen, hsize]
    dsimp only
    omega

theorem parseOutputs_ok
    {n : ℕ} {r : List BRTxOutput × ℕ}
    (hbuf : buf.length < 2 ^ 63)
    (h : parseOutputs codec buf n off = .ok r)
    (hend : r.2 ≤ buf.length) :
    ∃ ws : List WireOutput, ws.length = n ∧ (∀ w ∈ ws, w.width.Fits w.script.length) ∧
      At buf off (ws.flatMap WireOutput.data) ∧
      r = (ws.map (WireOutput.toOutput codec), off + (ws.flatMap WireOutput.data).length) := by
  induction n generalizing off r with
  | zero =>
      cases h
      exact ⟨[], rfl, by simp, Segment.at_nil hend, by simp⟩
  | succ n ih =>
      rw [parseOutputs] at h
      split at h
      · rename_i hin
        obtain ⟨first, hfirst, h⟩ := Machine.bind_eq_ok.mp h
        obtain ⟨others, hothers, h⟩ := Machine.bind_eq_ok.mp h
        cases h
        obtain ⟨ws, hlen, hfits, hat, rfl⟩ := ih hothers hend
        obtain ⟨w, hw, hwat, rfl⟩ := parseOutput_ok hbuf hin hfirst
          (le_trans (Nat.le_add_right _ _) hat.1)
        refine ⟨w :: ws, by rw [List.length_cons, hlen], ?_, ?_, ?_⟩
        · intro v hv
          rcases List.mem_cons.mp hv with rfl | hv
          · exact hw
          · exact hfits v hv
        · rw [List.flatMap_cons]
          exact at_append.mpr ⟨hwat, hat⟩
        · simp [Nat.add_assoc]
      · cases h
        contradiction

/-- A read that is accepted lies inside the buffer. -/
theorem getLE_bound
    {n v : ℕ}
    (hget : getLE buf off n = .ok v)
    (hwrap : wrap (off + n) ≤ buf.length) :
    off + n ≤ buf.length := by
  rw [getLE, if_pos hwrap] at hget
  split at hget
  · assumption
  · cases hget

/-- What is parsed into inputs with a script or a signature each starts with a
transaction in the wire format. -/
theorem parse_ok
    {tx : RawTransaction} {n : ℕ}
    (hbuf : buf.length < 2 ^ 63)
    (h : parse codec sha256d buf = .ok (some (tx, n)))
    (hspend : ∀ i ∈ tx.inputs, i.signature.isSome ∨ i.script.isSome) :
    ∃ (w : WireTx) (rest : List UInt8), w.WellFormed ∧ w.inputs ≠ [] ∧ buf = w.data ++ rest ∧
      tx = w.toTx codec sha256d ∧ n = w.data.length := by
  have hvar := varInt_length buf 4
  simp only [parse] at h
  rw [wrap_of_lt (show 4 + (varInt buf 4).2 < 2 ^ 64 by omega)] at h
  obtain ⟨version, hversion, h⟩ := Machine.bind_eq_ok.mp h
  obtain ⟨⟨inputs, off, isSigned⟩, hinputs, h⟩ := Machine.bind_eq_ok.mp h
  obtain ⟨⟨outputs, end'⟩, houtputs, h⟩ := Machine.bind_eq_ok.mp h
  obtain ⟨lockTime, hlock, h⟩ := Machine.bind_eq_ok.mp h
  split at h
  · cases h
  rename_i haccept
  cases h
  dsimp only at *
  rw [not_or, not_lt] at haccept
  -- The last read ties the end of the outputs to the buffer, and from there
  -- the reads before it are tied backwards.
  have hend := getLE_bound hlock haccept.2
  have hvarOut := varInt_length buf off
  obtain ⟨hoff, hin⟩ := parseInputs_ok hbuf (by omega) hinputs hspend
  dsimp only at hoff hin
  rw [wrap_of_lt (show off + (varInt buf off).2 < 2 ^ 64 by omega)] at houtputs
  obtain ⟨os, hosLen, hosFit, hosAt, hos⟩ := parseOutputs_ok hbuf houtputs
    (show end' ≤ buf.length by omega)
  have hosEnd := hosAt.1
  obtain ⟨is, hisLen, hisFit, hisAt, his⟩ := hin (by omega)
  have hisEnd := hisAt.1
  cases hos
  cases his
  obtain ⟨inWidth, hinFits, hinSize, hinAt⟩ := at_of_varInt
    (show 4 + (varInt buf 4).2 ≤ buf.length by omega)
  obtain ⟨outWidth, houtFits, houtSize, houtAt⟩ := at_of_varInt
    (show 4 + (varInt buf 4).2 + (is.flatMap WireInput.data).length +
      (varInt buf (4 + (varInt buf 4).2 + (is.flatMap WireInput.data).length)).2 ≤
        buf.length by omega)
  let w : WireTx := ⟨UInt32.ofNat version, inWidth, is, outWidth, os, UInt32.ofNat lockTime⟩
  have hdata : At buf 0 w.data := by
    rw [WireTx.data, at_append, at_append, at_append, at_append, at_append,
      LittleEndian.length_bytes, IntWidth.length_spell, IntWidth.length_spell, Nat.zero_add]
    simp only [w]
    rw [hisLen, hosLen, hinSize, houtSize]
    exact ⟨at_uint32_of_getLE hbuf (by omega) hversion, hinAt, hisAt, houtAt, hosAt,
      at_uint32_of_getLE hbuf hend hlock⟩
  have hlength : w.data.length = wrap (4 + (varInt buf 4).2 + (is.flatMap WireInput.data).length +
      (varInt buf (4 + (varInt buf 4).2 + (is.flatMap WireInput.data).length)).2 +
        (os.flatMap WireOutput.data).length + 4) := by
    rw [wrap_of_lt (by omega)]
    simp only [w, WireTx.data, List.length_append, LittleEndian.length_bytes,
      IntWidth.length_spell, hinSize, houtSize]
    omega
  obtain ⟨rest, hrest⟩ := Segment.at_zero_iff.mp hdata
  refine ⟨w, rest, ⟨?_, hisFit, ?_, hosFit⟩, ?_, hrest, ?_, hlength.symm⟩
  · exact hisLen ▸ hinFits
  · exact hosLen ▸ houtFits
  · intro hnil
    exact haccept.1 (hisLen ▸ List.length_eq_zero_iff.mpr hnil)
  · rw [← hlength, hrest, List.take_left, Bool.true_and]
    rfl

end Sound

end BreadwalletCore
