import BreadwalletCore.Transaction.Inputs

/-!
# The wire format

The format `BRTransactionParse` reads, apart from how it reads it.  A length
can be spelled in one, three, five or nine bytes, and a longer spelling than
needed is still a spelling.  The bytes in the place of the signature are
followed by an amount exactly when they look like a scriptPubKey.
-/

namespace BreadwalletCore

open Segment (slice At at_append at_cons)

/-! ## Lengths -/

/-- How a variable length integer is spelled. -/
inductive IntWidth
  | one
  | three
  | five
  | nine
deriving DecidableEq, Repr

namespace IntWidth

/-- The bytes of a spelling. -/
def size : IntWidth → ℕ
  | one => 1
  | three => 3
  | five => 5
  | nine => 9

/-- The integers with this spelling. -/
def Fits : IntWidth → ℕ → Prop
  | one, i => i < 0xfd
  | three, i => i < 2 ^ 16
  | five, i => i < 2 ^ 32
  | nine, i => i < 2 ^ 64

/-- The spelling of an integer in this width. -/
def spell : IntWidth → ℕ → List UInt8
  | one, i => LittleEndian.bytes 1 i
  | three, i => 0xfd :: LittleEndian.bytes 2 i
  | five, i => 0xfe :: LittleEndian.bytes 4 i
  | nine, i => 0xff :: LittleEndian.bytes 8 i

/-- The shortest spelling. -/
def least (i : ℕ) : IntWidth :=
  if i < 0xfd then one
  else if i ≤ 0xffff then three
  else if i ≤ 0xffffffff then five
  else nine

@[simp] theorem length_spell
    (w : IntWidth) (i : ℕ) :
    (w.spell i).length = w.size := by
  cases w <;> simp [spell, size]

theorem spell_least
    (i : ℕ) :
    (least i).spell i = varIntSet i := by
  rw [least, varIntSet]
  split
  · rfl
  · split
    · rfl
    · split <;> rfl

theorem least_fits
    {i : ℕ}
    (hi : i < 2 ^ 64) :
    (least i).Fits i := by
  rw [least]
  split
  · assumption
  · split
    · change i < 2 ^ 16
      omega
    · split
      · change i < 2 ^ 32
        omega
      · exact hi

/-- No spelling is shorter, and only one is as short. -/
theorem size_least_le
    {w : IntWidth} {i : ℕ}
    (hw : w.Fits i) :
    (least i).size ≤ w.size := by
  rw [least]
  cases w with
  | one =>
      rw [if_pos (show i < 0xfd from hw)]
  | three =>
      have h : i < 2 ^ 16 := hw
      split
      · decide
      · rw [if_pos (by omega)]
  | five =>
      have h : i < 2 ^ 32 := hw
      split
      · decide
      · split
        · decide
        · rw [if_pos (by omega)]
  | nine =>
      split
      · decide
      · split
        · decide
        · split <;> decide

theorem eq_of_size_eq
    {w w' : IntWidth}
    (h : w.size = w'.size) :
    w = w' := by
  cases w <;> cases w' <;> simp_all [size]

end IntWidth

/-- The `switch` of `BRVarInt` over the first byte `h`. -/
def varIntSwitch (buf : List UInt8) (off bufLen : ℕ) (h : UInt8) : ℕ × ℕ :=
  if h = 0xfd then (if 3 ≤ bufLen then LittleEndian.value (slice buf (off + 1) 2) else 0, 3)
  else if h = 0xfe then (if 5 ≤ bufLen then LittleEndian.value (slice buf (off + 1) 4) else 0, 5)
  else if h = 0xff then (if 9 ≤ bufLen then LittleEndian.value (slice buf (off + 1) 8) else 0, 9)
  else (h.toNat, 1)

/-- `BRVarInt` at an offset: the value and the number of bytes. -/
def varInt (buf : List UInt8) (off : ℕ) : ℕ × ℕ :=
  let bufLen := if off ≤ buf.length then buf.length - off else 0
  varIntSwitch buf off bufLen (if 1 ≤ bufLen then buf.getD off 0 else 0)

theorem varIntSwitch_length
    (buf : List UInt8) (off bufLen : ℕ) (h : UInt8) :
    0 < (varIntSwitch buf off bufLen h).2 ∧ (varIntSwitch buf off bufLen h).2 ≤ 9 := by
  rw [varIntSwitch]
  by_cases hfd : h = 0xfd
  · simp [hfd]
  · by_cases hfe : h = 0xfe
    · simp [hfe]
    · by_cases hff : h = 0xff <;> simp [hfd, hfe, hff]

theorem varInt_length
    (buf : List UInt8) (off : ℕ) :
    0 < (varInt buf off).2 ∧ (varInt buf off).2 ≤ 9 :=
  varIntSwitch_length buf off _ _

/-- Inside the buffer the first byte is there. -/
theorem varInt_of_getElem
    {buf : List UInt8} {off : ℕ} {h : UInt8}
    (hget : buf[off]? = some h) :
    varInt buf off = varIntSwitch buf off (buf.length - off) h := by
  obtain ⟨hlt, -⟩ := List.getElem?_eq_some_iff.mp hget
  have havail : (if off ≤ buf.length then buf.length - off else 0) = buf.length - off := by
    rw [if_pos (by omega)]
  simp only [varInt, havail, if_pos (show 1 ≤ buf.length - off by omega),
    List.getD_eq_getElem?_getD, hget, Option.getD_some]

/-- Behind the buffer nothing is read. -/
theorem varInt_of_ge
    {buf : List UInt8} {off : ℕ}
    (h : buf.length ≤ off) :
    varInt buf off = (0, 1) := by
  have havail : (if off ≤ buf.length then buf.length - off else 0) = 0 := by
    split <;> omega
  rw [varInt, havail]
  rfl

theorem bytes_value_slice
    {buf : List UInt8} {off n : ℕ}
    (h : off + n ≤ buf.length) :
    LittleEndian.bytes n (LittleEndian.value (slice buf off n)) = slice buf off n := by
  have hbytes := LittleEndian.bytes_value (slice buf off n)
  rwa [Segment.length_slice h] at hbytes

theorem value_slice_lt
    {buf : List UInt8} {off n : ℕ}
    (h : off + n ≤ buf.length) :
    LittleEndian.value (slice buf off n) < 256 ^ n := by
  have hlt := LittleEndian.value_lt (slice buf off n)
  rwa [Segment.length_slice h] at hlt

theorem value_slice_of_at
    {buf : List UInt8} {off n v : ℕ}
    (h : At buf off (LittleEndian.bytes n v))
    (hv : v < 256 ^ n) :
    LittleEndian.value (slice buf off n) = v := by
  have hslice := h.2
  rw [LittleEndian.length_bytes] at hslice
  rw [hslice, LittleEndian.value_bytes hv]

/-- A spelled integer is read back. -/
theorem varInt_of_at
    {buf : List UInt8} {off i : ℕ} {w : IntWidth}
    (hat : At buf off (w.spell i))
    (hfits : w.Fits i) :
    varInt buf off = (i, w.size) := by
  have hlen := hat.1
  rw [IntWidth.length_spell] at hlen
  cases w with
  | one =>
      have hi : i < 0xfd := hfits
      have hnat : (UInt8.ofNat i).toNat = i := by
        rw [UInt8.toNat_ofNat']
        omega
      have hne : ∀ b : UInt8, 0xfd ≤ b.toNat → UInt8.ofNat i ≠ b := by
        intro b hb heq
        rw [← heq, hnat] at hb
        omega
      rw [varInt_of_getElem (at_cons.mp hat).1, varIntSwitch, if_neg (hne 0xfd (by decide)),
        if_neg (hne 0xfe (by decide)), if_neg (hne 0xff (by decide)), hnat]
      rfl
  | three =>
      obtain ⟨hget, hrest⟩ := at_cons.mp hat
      simp only [IntWidth.size] at hlen
      rw [varInt_of_getElem hget, varIntSwitch, if_pos rfl, if_pos (by omega),
        value_slice_of_at hrest hfits]
      rfl
  | five =>
      obtain ⟨hget, hrest⟩ := at_cons.mp hat
      simp only [IntWidth.size] at hlen
      rw [varInt_of_getElem hget, varIntSwitch, if_neg (by decide), if_pos rfl,
        if_pos (by omega), value_slice_of_at hrest hfits]
      rfl
  | nine =>
      obtain ⟨hget, hrest⟩ := at_cons.mp hat
      simp only [IntWidth.size] at hlen
      rw [varInt_of_getElem hget, varIntSwitch, if_neg (by decide), if_neg (by decide),
        if_pos rfl, if_pos (by omega), value_slice_of_at hrest hfits]
      rfl

/-- The bytes behind a marker are a spelling. -/
theorem at_marker
    {buf : List UInt8} {off n : ℕ} {marker : UInt8}
    (hget : buf[off]? = some marker)
    (hlen : off + (n + 1) ≤ buf.length) :
    At buf off (marker :: LittleEndian.bytes n (LittleEndian.value (slice buf (off + 1) n))) := by
  refine at_cons.mpr ⟨hget, ?_⟩
  rw [bytes_value_slice (by omega)]
  exact Segment.at_slice (by omega)

/-- What is read inside the buffer is spelled there. -/
theorem at_of_varInt
    {buf : List UInt8} {off : ℕ}
    (h : off + (varInt buf off).2 ≤ buf.length) :
    ∃ w : IntWidth, w.Fits (varInt buf off).1 ∧ w.size = (varInt buf off).2 ∧
      At buf off (w.spell (varInt buf off).1) := by
  have hpos := (varInt_length buf off).1
  have hget : buf[off]? = some buf[off] := List.getElem?_eq_getElem (by omega)
  rw [varInt_of_getElem hget, varIntSwitch] at h ⊢
  by_cases hfd : buf[off] = 0xfd
  · rw [if_pos hfd] at h ⊢
    rw [if_pos (show 3 ≤ buf.length - off by omega)]
    exact ⟨.three, value_slice_lt (by omega), rfl, at_marker (hfd ▸ hget) h⟩
  · rw [if_neg hfd] at h ⊢
    by_cases hfe : buf[off] = 0xfe
    · rw [if_pos hfe] at h ⊢
      rw [if_pos (show 5 ≤ buf.length - off by omega)]
      exact ⟨.five, value_slice_lt (by omega), rfl, at_marker (hfe ▸ hget) h⟩
    · rw [if_neg hfe] at h ⊢
      by_cases hff : buf[off] = 0xff
      · rw [if_pos hff] at h ⊢
        rw [if_pos (show 9 ≤ buf.length - off by omega)]
        exact ⟨.nine, value_slice_lt (by omega), rfl, at_marker (hff ▸ hget) h⟩
      · rw [if_neg hff] at h ⊢
        refine ⟨.one, ?_, rfl, at_cons.mpr ⟨?_, Segment.at_nil h⟩⟩
        · have hbound := buf[off].toNat_lt
          have h1 : buf[off].toNat ≠ 0xfd := fun h => hfd (UInt8.toNat_inj.mp h)
          have h2 : buf[off].toNat ≠ 0xfe := fun h => hfe (UInt8.toNat_inj.mp h)
          have h3 : buf[off].toNat ≠ 0xff := fun h => hff (UInt8.toNat_inj.mp h)
          change buf[off].toNat < 0xfd
          omega
        · rw [hget, UInt8.ofNat_toNat]

/-! ## Transactions -/

@[simp] theorem length_hashBytes
    (h : UInt256) :
    (hashBytes h).length = 32 := by
  rw [hashBytes, LittleEndian.length_bytes]

/-- An input on the wire.  The amount is only there behind a scriptPubKey. -/
structure WireInput where
  txHash : UInt256
  index : UInt32
  width : IntWidth
  script : List UInt8
  amount : UInt64
  sequence : UInt32

/-- An output on the wire. -/
structure WireOutput where
  amount : UInt64
  width : IntWidth
  script : List UInt8

/-- A transaction on the wire. -/
structure WireTx where
  version : UInt32
  inWidth : IntWidth
  inputs : List WireInput
  outWidth : IntWidth
  outputs : List WireOutput
  lockTime : UInt32

namespace WireInput

/-- The bytes of an input. -/
def data (w : WireInput) : List UInt8 :=
  hashBytes w.txHash ++ (LittleEndian.bytes 4 w.index.toNat ++ (w.width.spell w.script.length ++
    (w.script ++ ((if isScriptPubKey w.script then LittleEndian.bytes 8 w.amount.toNat else []) ++
      LittleEndian.bytes 4 w.sequence.toNat))))

/-- The width of the amount. -/
def amountSize (w : WireInput) : ℕ :=
  if isScriptPubKey w.script then 8 else 0

theorem length_data
    (w : WireInput) :
    w.data.length = 32 + 4 + w.width.size + w.script.length + w.amountSize + 4 := by
  simp only [data, amountSize, List.length_append, length_hashBytes, LittleEndian.length_bytes,
    IntWidth.length_spell]
  split <;> simp <;> omega

/-- The fields of an input, one behind the other. -/
theorem at_data_iff
    {w : WireInput} {buf : List UInt8} {off : ℕ} :
    At buf off w.data ↔
      At buf off (hashBytes w.txHash) ∧
        At buf (off + 32) (LittleEndian.bytes 4 w.index.toNat) ∧
        At buf (off + 32 + 4) (w.width.spell w.script.length) ∧
        At buf (off + 32 + 4 + w.width.size) w.script ∧
        At buf (off + 32 + 4 + w.width.size + w.script.length)
          (if isScriptPubKey w.script then LittleEndian.bytes 8 w.amount.toNat else []) ∧
        At buf (off + 32 + 4 + w.width.size + w.script.length + w.amountSize)
          (LittleEndian.bytes 4 w.sequence.toNat) := by
  have hamount : (if isScriptPubKey w.script then LittleEndian.bytes 8 w.amount.toNat
      else []).length = w.amountSize := by
    rw [amountSize]
    split <;> simp
  rw [data, at_append, at_append, at_append, at_append, at_append, length_hashBytes,
    LittleEndian.length_bytes, IntWidth.length_spell, hamount]

/-- The input that is made of it. -/
def toInput (codec : ScriptCodec) (w : WireInput) : BRTxInput :=
  if isScriptPubKey w.script then
    { txHash := w.txHash
      index := w.index
      address := codec.addressFromScriptPubKey w.script
      amount := w.amount
      script := some w.script
      signature := none
      sequence := w.sequence }
  else
    { txHash := w.txHash
      index := w.index
      address := codec.addressFromScriptSig w.script
      signature := some w.script
      sequence := w.sequence }

end WireInput

namespace WireOutput

/-- The bytes of an output. -/
def data (w : WireOutput) : List UInt8 :=
  LittleEndian.bytes 8 w.amount.toNat ++ (w.width.spell w.script.length ++ w.script)

/-- The output that is made of it. -/
def toOutput (codec : ScriptCodec) (w : WireOutput) : BRTxOutput where
  address := codec.addressFromScriptPubKey w.script
  amount := w.amount
  script := w.script

end WireOutput

namespace WireTx

/-- The bytes of a transaction. -/
def data (w : WireTx) : List UInt8 :=
  LittleEndian.bytes 4 w.version.toNat ++ (w.inWidth.spell w.inputs.length ++
    (w.inputs.flatMap WireInput.data ++ (w.outWidth.spell w.outputs.length ++
      (w.outputs.flatMap WireOutput.data ++ LittleEndian.bytes 4 w.lockTime.toNat))))

/-- Every length has its spelling. -/
structure WellFormed (w : WireTx) : Prop where
  inputs_fit : w.inWidth.Fits w.inputs.length
  input_fits : ∀ i ∈ w.inputs, i.width.Fits i.script.length
  outputs_fit : w.outWidth.Fits w.outputs.length
  output_fits : ∀ o ∈ w.outputs, o.width.Fits o.script.length

/-- Every length has its shortest spelling. -/
structure Minimal (w : WireTx) : Prop where
  inputs_least : w.inWidth = .least w.inputs.length
  input_least : ∀ i ∈ w.inputs, i.width = .least i.script.length
  outputs_least : w.outWidth = .least w.outputs.length
  output_least : ∀ o ∈ w.outputs, o.width = .least o.script.length

/-- No input looks like a scriptPubKey, so all of them are signed. -/
def signed (w : WireTx) : Bool :=
  w.inputs.all (fun i => !isScriptPubKey i.script)

/-- The transaction that is made of it; only a signed one is given its hash. -/
def toTx (codec : ScriptCodec) (sha256d : List UInt8 → UInt256) (w : WireTx) :
    RawTransaction where
  txHash := if w.signed then sha256d w.data else 0
  version := w.version
  inputs := w.inputs.map (WireInput.toInput codec)
  outputs := w.outputs.map (WireOutput.toOutput codec)
  lockTime := w.lockTime

end WireTx

end BreadwalletCore
