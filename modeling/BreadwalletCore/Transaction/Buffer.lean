import BreadwalletCore.Data.ByteWriter
import BreadwalletCore.Transaction.RoundTrip

/-!
# Serialization into a buffer

`BRTransactionSerialize` with the memory it writes to.  Without a buffer it adds
up lengths, and with one it writes each field for which there is room.  The
inner functions get what is left of the buffer and return 0 if they did not fit,
so that the fields behind them are written in their place.
-/

namespace BreadwalletCore

/-- `data`, with the memory behind it, `dataLen` and `off`. -/
structure OutBuffer where
  data : Option (List UInt8)
  dataLen : ℕ
  off : ℕ

namespace OutBuffer

/-- There is no buffer, or it has room for `n` bytes more. -/
def fits (w : OutBuffer) (n : ℕ) : Bool :=
  w.data.isNone || decide (w.off + n ≤ w.dataLen)

/-- `if (data && off + n <= dataLen) memcpy(&data[off], l, n); off += n`. -/
def copy (w : OutBuffer) (l : List UInt8) : OutBuffer :=
  { w with
    data :=
      if w.off + l.length ≤ w.dataLen then
        w.data.map (fun mem => ((⟨mem, w.off⟩ : ByteWriter UInt8).copy l).buf)
      else w.data
    off := w.off + l.length }

/-- `off += BRVarIntSet(&data[off], dataLen - off, i)`. -/
def varInt (w : OutBuffer) (i : ℕ) : OutBuffer :=
  if w.fits (varIntSet i).length then w.copy (varIntSet i) else w

/-- `return (! data || off <= dataLen) ? off : 0`. -/
def result (w : OutBuffer) : ℕ :=
  if w.fits 0 then w.off else 0

/-- `&data[off]` and `off <= dataLen ? dataLen - off : 0`. -/
def rest (w : OutBuffer) : OutBuffer where
  data := w.data.map (List.drop w.off)
  dataLen := if w.off ≤ w.dataLen then w.dataLen - w.off else 0
  off := 0

/-- `off += f(&data[off], dataLen - off)`. -/
def call (w : OutBuffer) (f : OutBuffer → OutBuffer) : OutBuffer :=
  let inner := f w.rest
  { w with
    data := w.data.bind (fun mem => inner.data.map (fun rest => mem.take w.off ++ rest))
    off := w.off + inner.result }

end OutBuffer

/-- `_BRTxInputData`. -/
def txInputWrite (input : BRTxInput) (signature : List UInt8) (w : OutBuffer) : OutBuffer :=
  let w := (w.copy (hashBytes input.txHash)).copy (LittleEndian.bytes 4 input.index.toNat)
  let w := (w.varInt signature.length).copy signature
  let w := if input.amount ≠ 0 then w.copy (LittleEndian.bytes 8 input.amount.toNat) else w
  w.copy (LittleEndian.bytes 4 input.sequence.toNat)

/-- One round of the loop of `_BRTransactionOutputData`. -/
def txOutputWrite (w : OutBuffer) (output : BRTxOutput) : OutBuffer :=
  let w := w.copy (LittleEndian.bytes 8 output.amount.toNat)
  (w.varInt output.script.length).copy output.script

namespace RawTransaction

/-- `_BRTransactionOutputData` with the index `SIZE_MAX`. -/
def outputWrite (tx : RawTransaction) (w : OutBuffer) : OutBuffer :=
  tx.outputs.foldl txOutputWrite w

/-- The body of the loop over the inputs, where the whole transaction is asked
for. -/
def inputWrite (w : OutBuffer) (input : BRTxInput) : OutBuffer :=
  if input.signature = none then w.call (txInputWrite input (input.script.getD []))
  else w.call (txInputWrite { input with amount := 0 } (input.signature.getD []))

/-- `_BRTransactionData` with the index `SIZE_MAX` and `SIGHASH_ALL`. -/
def dataWrite (tx : RawTransaction) (w : OutBuffer) : OutBuffer :=
  let w := w.copy (LittleEndian.bytes 4 tx.version.toNat)
  let w := tx.inputs.foldl inputWrite (w.varInt tx.inputs.length)
  let w := (w.varInt tx.outputs.length).call tx.outputWrite
  w.copy (LittleEndian.bytes 4 tx.lockTime.toNat)

/-- `BRTransactionSerialize`: the memory behind it, and what it returns. -/
def serializeInto (tx : RawTransaction) (buf : Option (List UInt8)) (bufLen : ℕ) :
    Option (List UInt8) × ℕ :=
  let w := tx.dataWrite { data := buf, dataLen := bufLen, off := 0 }
  (w.data, w.result)

end RawTransaction

/-! ## With enough room -/

namespace OutBuffer

/-- The memory is there. -/
def Valid (w : OutBuffer) : Prop :=
  ∀ mem, w.data = some mem → w.dataLen ≤ mem.length

/-- `f` writes `l` where there is room for it. -/
def Writes (f : OutBuffer → OutBuffer) (l : List UInt8) : Prop :=
  ∀ w, Valid w → w.fits l.length → f w = w.copy l

variable {w : OutBuffer} {f g : OutBuffer → OutBuffer} {l m : List UInt8} {n : ℕ}

theorem fits_iff :
    w.fits n = true ↔ w.data = none ∨ w.off + n ≤ w.dataLen := by
  rw [fits, Bool.or_eq_true, Option.isNone_iff_eq_none, decide_eq_true_eq]

theorem fits_mono
    {k : ℕ}
    (hle : k ≤ n)
    (h : w.fits n = true) :
    w.fits k = true :=
  fits_iff.mpr ((fits_iff.mp h).imp_right (fun hn => by omega))

/-- A copy for which there is room. -/
theorem copy_some
    {mem : List UInt8} {dataLen off : ℕ}
    (hroom : off + l.length ≤ dataLen)
    (hlen : dataLen ≤ mem.length) :
    (⟨some mem, dataLen, off⟩ : OutBuffer).copy l =
      ⟨some (mem.take off ++ (l ++ mem.drop (off + l.length))), dataLen, off + l.length⟩ := by
  have hfits := (ByteWriter.appends_copy l).fits ⟨mem, off⟩ (hroom.trans hlen)
  simp only [copy, if_pos hroom, Option.map_some, hfits, List.append_assoc]

theorem copy_fits_iff :
    (w.copy l).fits n = w.fits (l.length + n) := by
  rw [Bool.eq_iff_iff, fits_iff, fits_iff]
  have hdata : (w.copy l).data = none ↔ w.data = none := by
    rw [copy]
    split <;> simp
  rw [hdata]
  change _ ∨ w.off + l.length + n ≤ w.dataLen ↔ _
  rw [Nat.add_assoc]

theorem Valid.copy
    (hw : Valid w)
    (l : List UInt8) :
    Valid (w.copy l) := by
  intro mem hmem
  rw [OutBuffer.copy] at hmem
  dsimp only at hmem
  split at hmem
  · obtain ⟨mem', hmem', rfl⟩ := Option.map_eq_some_iff.mp hmem
    rw [(ByteWriter.appends_copy l).length]
    exact hw mem' hmem'
  · exact hw mem hmem

/-- One is written behind the other. -/
theorem copy_copy
    (hw : Valid w)
    (hfits : w.fits (l.length + m.length) = true) :
    (w.copy l).copy m = w.copy (l ++ m) := by
  obtain ⟨data, dataLen, off⟩ := w
  cases data with
  | none =>
      simp [copy, Nat.add_assoc]
  | some mem =>
      have hlen : dataLen ≤ mem.length := hw mem rfl
      have hroom : off + (l.length + m.length) ≤ dataLen :=
        (fits_iff.mp hfits).resolve_left (by simp)
      have hboth := (ByteWriter.appends_copy l).comp (ByteWriter.appends_copy m)
      have htwice := hboth.fits ⟨mem, off⟩ (by rw [List.length_append]; exact hroom.trans hlen)
      have honce := (ByteWriter.appends_copy (l ++ m)).fits ⟨mem, off⟩
        (by rw [List.length_append]; exact hroom.trans hlen)
      simp only [copy, List.length_append, Option.map_some]
      rw [if_pos (by omega), if_pos (by omega), if_pos hroom, Option.map_some, Nat.add_assoc,
        honce, ← htwice]
      rfl

theorem copy_nil
    (w : OutBuffer) :
    w.copy [] = w := by
  obtain ⟨data, dataLen, off⟩ := w
  cases data with
  | none =>
      simp [copy]
  | some mem =>
      have hsame : ((⟨mem, off⟩ : ByteWriter UInt8).copy []).buf = mem := by
        simp [ByteWriter.copy]
      simp [copy, hsame]

theorem writes_id : Writes (fun w => w) [] :=
  fun w _ _ => (copy_nil w).symm

theorem writes_copy
    (l : List UInt8) :
    Writes (fun w => w.copy l) l :=
  fun _ _ _ => rfl

theorem Writes.comp
    (hf : Writes f l)
    (hg : Writes g m) :
    Writes (fun w => g (f w)) (l ++ m) := by
  intro w hw hfits
  rw [List.length_append] at hfits
  dsimp only
  rw [hf w hw (fits_mono (Nat.le_add_right _ _) hfits),
    hg (w.copy l) (hw.copy l) (by rw [copy_fits_iff]; exact hfits), copy_copy hw hfits]

theorem writes_varInt
    (i : ℕ) :
    Writes (fun w => w.varInt i) (varIntSet i) :=
  fun _ _ hfits => if_pos hfits

theorem Writes.foldl
    {β : Type} {f : OutBuffer → β → OutBuffer} {g : β → List UInt8} {xs : List β}
    (hf : ∀ x ∈ xs, Writes (fun w => f w x) (g x)) :
    Writes (fun w => xs.foldl f w) (xs.flatMap g) := by
  induction xs with
  | nil =>
      exact writes_id
  | cons x xs ih =>
      exact (hf x List.mem_cons_self).comp (ih fun y hy => hf y (List.mem_cons_of_mem x hy))

theorem rest_dataLen
    (w : OutBuffer) :
    w.rest.dataLen = w.dataLen - w.off := by
  change (if _ then _ else _) = _
  split <;> omega

theorem rest_fits
    (h : w.fits n = true) :
    w.rest.fits n = true := by
  refine fits_iff.mpr ((fits_iff.mp h).imp (fun hnone => ?_) (fun hn => ?_))
  · exact Option.map_eq_none_iff.mpr hnone
  · have hoff : w.rest.off = 0 := rfl
    rw [rest_dataLen]
    omega

theorem Valid.rest
    (hw : Valid w) :
    Valid w.rest := by
  intro mem hmem
  obtain ⟨mem', hmem', rfl⟩ := Option.map_eq_some_iff.mp hmem
  have hlen := hw mem' hmem'
  rw [rest_dataLen, List.length_drop]
  omega

/-- What fits into the rest of the buffer is written there. -/
theorem Writes.call
    (hf : Writes f l) :
    Writes (fun w => w.call f) l := by
  intro w hw hfits
  have hrest := rest_fits hfits
  have hresult : (w.rest.copy l).result = l.length := by
    have hroom : (w.rest.copy l).fits 0 = true := by
      rw [copy_fits_iff, Nat.add_zero]
      exact hrest
    rw [result, if_pos hroom]
    exact Nat.zero_add l.length
  have hinner := hf w.rest hw.rest hrest
  dsimp only
  rw [OutBuffer.call, hinner, hresult]
  obtain ⟨data, dataLen, off⟩ := w
  cases data with
  | none =>
      simp [copy]
  | some mem =>
      have hlen : dataLen ≤ mem.length := hw mem rfl
      have hroom : off + l.length ≤ dataLen := (fits_iff.mp hfits).resolve_left (by simp)
      have hinside : (OutBuffer.rest ⟨some mem, dataLen, off⟩).copy l =
          ⟨some (l ++ mem.drop (off + l.length)), dataLen - off, l.length⟩ := by
        have hlong : dataLen - off ≤ (mem.drop off).length := by
          rw [List.length_drop]
          omega
        have hcopy := @copy_some l (mem.drop off) (dataLen - off) 0 (by omega) hlong
        rw [List.take_zero, List.nil_append, List.drop_drop, Nat.zero_add] at hcopy
        rw [← hcopy]
        exact congrArg (fun n => (⟨_, n, _⟩ : OutBuffer).copy l) (rest_dataLen _)
      rw [hinside, copy_some hroom hlen]
      rfl

/-! ## Nothing is written behind the buffer -/

/-- The memory behind the buffer is the same. -/
structure Keeps (w w' : OutBuffer) : Prop where
  dataLen : w'.dataLen = w.dataLen
  data : w'.data.map (fun mem => (mem.length, mem.drop w.dataLen)) =
    w.data.map (fun mem => (mem.length, mem.drop w.dataLen))

theorem Keeps.refl
    (w : OutBuffer) :
    Keeps w w :=
  ⟨rfl, rfl⟩

theorem Keeps.trans
    {w₁ w₂ w₃ : OutBuffer}
    (h₁ : Keeps w₁ w₂)
    (h₂ : Keeps w₂ w₃) :
    Keeps w₁ w₃ := by
  have hdata := h₂.data
  rw [h₁.dataLen] at hdata
  exact ⟨h₂.dataLen.trans h₁.dataLen, hdata.trans h₁.data⟩

theorem Keeps.data_none_iff
    {w w' : OutBuffer}
    (h : Keeps w w') :
    w'.data = none ↔ w.data = none := by
  have hdata := congrArg Option.isNone h.data
  rw [Option.isNone_map, Option.isNone_map] at hdata
  rw [← Option.isNone_iff_eq_none, ← Option.isNone_iff_eq_none, hdata]

theorem keeps_copy
    (w : OutBuffer) (l : List UInt8) :
    Keeps w (w.copy l) := by
  refine ⟨rfl, ?_⟩
  rw [copy]
  dsimp only
  split
  · rename_i hroom
    rw [Option.map_map]
    refine Option.map_congr (fun mem _ => ?_)
    dsimp only [Function.comp]
    rw [(ByteWriter.appends_copy l).length, ByteWriter.copy]
    dsimp only
    split
    · rename_i hfits
      have htake : (mem.take w.off ++ l).length = w.off + l.length := by
        rw [List.length_append, List.length_take]
        omega
      rw [List.drop_append, List.drop_of_length_le (by omega), List.nil_append, htake,
        List.drop_drop, Nat.add_sub_cancel' hroom]
    · rfl
  · rfl

theorem keeps_varInt
    (w : OutBuffer) (i : ℕ) :
    Keeps w (w.varInt i) := by
  rw [varInt]
  split
  · exact keeps_copy w _
  · exact .refl w

theorem keeps_foldl
    {β : Type} {f : OutBuffer → β → OutBuffer}
    (hf : ∀ w x, Keeps w (f w x)) (w : OutBuffer) (xs : List β) :
    Keeps w (xs.foldl f w) := by
  induction xs generalizing w with
  | nil => exact .refl w
  | cons x xs ih => exact (hf w x).trans (ih (f w x))

/-- A new rest that agrees behind position `n` leaves everything there. -/
theorem drop_take_append
    {mem rest : List UInt8} {off n : ℕ}
    (hle : off ≤ n)
    (hlen : rest.length = (mem.drop off).length)
    (hdrop : rest.drop (n - off) = (mem.drop off).drop (n - off)) :
    (mem.take off ++ rest).drop n = mem.drop n := by
  rcases Nat.le_total off mem.length with hinside | hbehind
  · have htake : (mem.take off).length = off := by
      rw [List.length_take, Nat.min_eq_left hinside]
    rw [List.drop_append, List.drop_of_length_le (by omega), List.nil_append, htake, hdrop,
      List.drop_drop, Nat.add_sub_cancel' hle]
  · have hnil : rest = [] := by
      rw [List.drop_of_length_le hbehind] at hlen
      exact List.length_eq_zero_iff.mp hlen
    rw [hnil, List.append_nil, List.take_of_length_le hbehind]

theorem keeps_call
    (w : OutBuffer)
    (hf : ∀ w, Keeps w (f w)) :
    Keeps w (w.call f) := by
  have hinner := (hf w.rest).data
  refine ⟨rfl, ?_⟩
  rw [call]
  dsimp only
  cases hdata : w.data with
  | none =>
      rfl
  | some mem =>
      rw [rest_dataLen, show w.rest.data = some (mem.drop w.off) from
        congrArg (Option.map (List.drop w.off)) hdata] at hinner
      obtain ⟨rest, hrest, hsame⟩ := Option.map_eq_some_iff.mp hinner
      obtain ⟨hlen, hdrop⟩ := Prod.mk.inj hsame
      rw [hrest]
      refine congrArg some (Prod.ext ?_ ?_)
      · dsimp only
        rw [List.length_append, hlen, List.length_take, List.length_drop]
        omega
      · dsimp only
        rcases Nat.le_total w.dataLen w.off with hle | hle
        · -- there was no room left, and all that is behind is kept
          rw [Nat.sub_eq_zero_of_le hle, List.drop_zero, List.drop_zero] at hdrop
          rw [hdrop, List.take_append_drop]
        · exact drop_take_append hle hlen hdrop

end OutBuffer

/-! ## The fields of a transaction -/

open OutBuffer

theorem txInputWrite_writes
    (input : BRTxInput) (signature : List UInt8) :
    Writes (txInputWrite input signature) (txInputData input signature) := by
  have hhead := (((writes_copy (hashBytes input.txHash)).comp
    (writes_copy (LittleEndian.bytes 4 input.index.toNat))).comp
      (writes_varInt signature.length)).comp (writes_copy signature)
  have htail := writes_copy (LittleEndian.bytes 4 input.sequence.toNat)
  rw [txInputData]
  by_cases hzero : input.amount ≠ 0
  · have hall := (hhead.comp (writes_copy (LittleEndian.bytes 8 input.amount.toNat))).comp htail
    rw [if_pos hzero]
    intro w hw hfits
    rw [← hall w hw hfits, txInputWrite]
    simp only [if_pos hzero]
  · have hall := hhead.comp htail
    rw [if_neg hzero, List.append_nil]
    intro w hw hfits
    rw [← hall w hw hfits, txInputWrite]
    simp only [if_neg hzero]

theorem txInputWrite_keeps
    (input : BRTxInput) (signature : List UInt8) (w : OutBuffer) :
    Keeps w (txInputWrite input signature w) := by
  have hhead := (((keeps_copy w (hashBytes input.txHash)).trans
    (keeps_copy _ (LittleEndian.bytes 4 input.index.toNat))).trans
      (keeps_varInt _ signature.length)).trans (keeps_copy _ signature)
  refine Keeps.trans ?_ (keeps_copy _ _)
  split
  · exact hhead.trans (keeps_copy _ _)
  · exact hhead

theorem txOutputWrite_writes
    (output : BRTxOutput) :
    Writes (fun w => txOutputWrite w output) (txOutputData output) :=
  ((writes_copy _).comp (writes_varInt _)).comp (writes_copy _)

theorem txOutputWrite_keeps
    (w : OutBuffer) (output : BRTxOutput) :
    Keeps w (txOutputWrite w output) :=
  (keeps_copy _ _).trans ((keeps_varInt _ _).trans (keeps_copy _ _))

namespace RawTransaction

variable {tx : RawTransaction}

theorem inputWrite_eq
    (w : OutBuffer) (input : BRTxInput) :
    inputWrite w input = w.call (txInputWrite
      { input with amount := if input.signature = none then input.amount else 0 }
      (spendBytes input)) := by
  rw [inputWrite, spendBytes]
  cases hsig : input.signature with
  | none => rfl
  | some signature => rfl

theorem inputWrite_writes
    (input : BRTxInput) :
    Writes (fun w => inputWrite w input) (inputBytes input) := by
  simp only [inputWrite_eq]
  exact (txInputWrite_writes _ _).call

theorem dataWrite_writes
    (tx : RawTransaction) :
    Writes tx.dataWrite tx.serialize := by
  have houtputs : Writes tx.outputWrite (tx.outputs.flatMap txOutputData) :=
    Writes.foldl (fun output _ => txOutputWrite_writes output)
  have hinputs : Writes (fun w => tx.inputs.foldl inputWrite w) (tx.inputs.flatMap inputBytes) :=
    Writes.foldl (fun input _ => inputWrite_writes input)
  have hall := (((((writes_copy (LittleEndian.bytes 4 tx.version.toNat)).comp
    (writes_varInt tx.inputs.length)).comp hinputs).comp
      (writes_varInt tx.outputs.length)).comp houtputs.call).comp
        (writes_copy (LittleEndian.bytes 4 tx.lockTime.toNat))
  rw [serialize_eq]
  simp only [List.append_assoc] at hall
  exact hall

theorem dataWrite_keeps
    (tx : RawTransaction) (w : OutBuffer) :
    Keeps w (tx.dataWrite w) := by
  have hinputs : ∀ w input, Keeps w (inputWrite w input) := by
    intro w input
    rw [inputWrite_eq]
    exact keeps_call w (txInputWrite_keeps _ _)
  have houtputs : ∀ w, Keeps w (tx.outputWrite w) :=
    fun w => keeps_foldl txOutputWrite_keeps w _
  exact ((((keeps_copy w _).trans (keeps_varInt _ _)).trans (keeps_foldl hinputs _ _)).trans
    (keeps_varInt _ _)).trans ((keeps_call _ houtputs).trans (keeps_copy _ _))

theorem length_varIntSet_eq
    (i : ℕ) :
    (varIntSet i).length = varIntSize i := by
  rw [varIntSet, varIntSize]
  split_ifs <;> simp

/-- The formula of `BRTransactionSize` for the signed inputs. -/
theorem size_eq
    (hsigned : ∀ input ∈ tx.inputs, input.signature ≠ none) :
    tx.size = tx.serialize.length := by
  have hin : (tx.inputs.map inputSize).sum = (tx.inputs.flatMap inputBytes).length := by
    rw [List.length_flatMap]
    refine congrArg List.sum (List.map_congr_left (fun input hinput => ?_))
    obtain ⟨signature, hsig⟩ := Option.ne_none_iff_exists'.mp (hsigned input hinput)
    rw [inputSize, hsig, length_inputBytes, spendBytes, hsig, ← length_varIntSet,
      length_varIntSet_eq]
    simp
    omega
  have hout : (tx.outputs.map
      (fun o => 8 + varIntSize o.script.length + o.script.length)).sum =
        (tx.outputs.flatMap txOutputData).length := by
    rw [List.length_flatMap]
    refine congrArg List.sum (List.map_congr_left (fun output _ => ?_))
    rw [length_txOutputData, ← length_varIntSet, length_varIntSet_eq]
  rw [size, hin, hout, length_serialize, ← length_varIntSet, ← length_varIntSet,
    length_varIntSet_eq, length_varIntSet_eq]
  omega

end RawTransaction

/-! ## With too little room -/

section Short

variable {w : OutBuffer}

theorem OutBuffer.Keeps.data_ne
    {w w' : OutBuffer}
    (h : Keeps w w')
    (hdata : w.data ≠ none) :
    w'.data ≠ none :=
  fun hnone => hdata (h.data_none_iff.mp hnone)

theorem varInt_off
    (hdata : w.data ≠ none) (i : ℕ) :
    (w.varInt i).off =
      if w.off + varIntSize i ≤ w.dataLen then w.off + varIntSize i else w.off := by
  have hiff : w.fits (varIntSet i).length = true ↔ w.off + varIntSize i ≤ w.dataLen := by
    rw [fits_iff, RawTransaction.length_varIntSet_eq]
    exact or_iff_right hdata
  rw [OutBuffer.varInt]
  split
  · rename_i h
    rw [if_pos (hiff.mp h), ← RawTransaction.length_varIntSet_eq]
    rfl
  · rename_i h
    rw [if_neg (fun hroom => h (hiff.mpr hroom))]

theorem varIntSize_le
    (n : ℕ) :
    0 < varIntSize n ∧ varIntSize n ≤ 9 ∧ (0 < n → varIntSize n ≤ n) := by
  rw [varIntSize]
  split_ifs <;> omega

/-- An input that does not fit ends behind the buffer. -/
theorem txInputWrite_over
    (input : BRTxInput) (signature : List UInt8)
    (hdata : w.data ≠ none)
    (hshort : w.dataLen < w.off + (txInputData input signature).length) :
    w.dataLen < (txInputWrite input signature w).off := by
  have hlen : (txInputData input signature).length = 40 + varIntSize signature.length +
      signature.length + (if input.amount ≠ 0 then 8 else 0) := by
    simp only [txInputData, List.length_append, length_hashBytes, LittleEndian.length_bytes,
      RawTransaction.length_varIntSet_eq]
    split_ifs <;> simp <;> omega
  have hoff : (txInputWrite input signature w).off =
      (((w.copy (hashBytes input.txHash)).copy
        (LittleEndian.bytes 4 input.index.toNat)).varInt signature.length).off +
          signature.length + (if input.amount ≠ 0 then 8 else 0) + 4 := by
    rw [txInputWrite]
    split_ifs <;> rfl
  have hkeeps := (keeps_copy w (hashBytes input.txHash)).trans
    (keeps_copy _ (LittleEndian.bytes 4 input.index.toNat))
  have hvar := varInt_off (hkeeps.data_ne hdata) signature.length
  rw [hkeeps.dataLen] at hvar
  have hstart : ((w.copy (hashBytes input.txHash)).copy
      (LittleEndian.bytes 4 input.index.toNat)).off = w.off + 36 := by
    change w.off + _ + _ = _
    rw [length_hashBytes, LittleEndian.length_bytes]
  obtain ⟨-, hle, hsmall⟩ := varIntSize_le signature.length
  rw [hstart] at hvar
  rw [hlen] at hshort
  rw [hoff, hvar]
  rcases Nat.eq_zero_or_pos signature.length with hzero | hpos
  · rw [hzero] at hshort ⊢
    have hone : varIntSize 0 = 1 := rfl
    rw [hone] at hshort ⊢
    split <;> omega
  · have := hsmall hpos
    split <;> omega

/-- An inner function returns the number of bytes it has moved on, or 0. -/
theorem call_off
    {f : OutBuffer → OutBuffer}
    (hdata : w.data ≠ none)
    (hf : ∀ w, Keeps w (f w)) :
    (w.call f).off =
      w.off + if (f w.rest).off ≤ w.dataLen - w.off then (f w.rest).off else 0 := by
  have hrest : w.rest.data ≠ none := fun h => hdata (Option.map_eq_none_iff.mp h)
  have hinner := (hf w.rest).data_ne hrest
  have hlen := (hf w.rest).dataLen
  rw [rest_dataLen] at hlen
  rw [OutBuffer.call]
  dsimp only
  rw [result]
  congr 1
  refine if_congr ?_ rfl rfl
  rw [fits_iff, hlen]
  exact (or_iff_right hinner)

/-- What fits is taken. -/
def taken (dataLen off n : ℕ) : ℕ :=
  if off + n ≤ dataLen then off + n else off

theorem inputWrite_off
    (hw : Valid w)
    (hdata : w.data ≠ none) (input : BRTxInput) :
    (RawTransaction.inputWrite w input).off =
      taken w.dataLen w.off (RawTransaction.inputBytes input).length := by
  rw [taken]
  split
  · rename_i hroom
    have hwrite := RawTransaction.inputWrite_writes input w hw (fits_iff.mpr (.inr hroom))
    dsimp only at hwrite
    rw [hwrite]
    rfl
  · rename_i hshort
    have hrest : w.rest.data ≠ none := fun h => hdata (Option.map_eq_none_iff.mp h)
    have hpos : 0 < (RawTransaction.inputBytes input).length := by
      rw [RawTransaction.length_inputBytes]
      omega
    have hover := txInputWrite_over
      { input with amount := if input.signature = none then input.amount else 0 }
      (RawTransaction.spendBytes input) hrest (by
        rw [rest_dataLen]
        change _ < 0 + (RawTransaction.inputBytes input).length
        omega)
    rw [rest_dataLen] at hover
    rw [RawTransaction.inputWrite_eq, call_off hdata (txInputWrite_keeps _ _),
      if_neg (not_le.mpr hover), Nat.add_zero]

theorem txOutputWrite_off
    (hdata : w.data ≠ none) (output : BRTxOutput) :
    (txOutputWrite w output).off =
      (if w.off + 8 + varIntSize output.script.length ≤ w.dataLen
        then w.off + 8 + varIntSize output.script.length else w.off + 8) +
          output.script.length := by
  have hkeeps := keeps_copy w (LittleEndian.bytes 8 output.amount.toNat)
  have hvar := varInt_off (hkeeps.data_ne hdata) output.script.length
  have hstart : (w.copy (LittleEndian.bytes 8 output.amount.toNat)).off = w.off + 8 := by
    change w.off + _ = _
    rw [LittleEndian.length_bytes]
  rw [hkeeps.dataLen, hstart] at hvar
  exact congrArg (· + output.script.length) hvar

theorem le_outputs_off
    (outputs : List BRTxOutput) (w : OutBuffer) :
    w.off + 8 * outputs.length ≤ (outputs.foldl txOutputWrite w).off := by
  induction outputs generalizing w with
  | nil =>
      exact le_rfl
  | cons output outputs ih =>
      have hvar : ∀ v : OutBuffer, v.off ≤ (v.varInt output.script.length).off := by
        intro v
        rw [OutBuffer.varInt]
        split
        · exact Nat.le_add_right _ _
        · exact le_rfl
      have hone : w.off + 8 ≤ (txOutputWrite w output).off := by
        have hstart : (w.copy (LittleEndian.bytes 8 output.amount.toNat)).off = w.off + 8 := by
          change w.off + _ = _
          rw [LittleEndian.length_bytes]
        exact (hstart.ge.trans (hvar _)).trans (Nat.le_add_right _ _)
      have hrest := ih (txOutputWrite w output)
      rw [List.foldl_cons, List.length_cons]
      omega

/-- The script of the last output is empty. -/
def lastEmpty (outputs : List BRTxOutput) : Bool :=
  outputs.getLast?.any (fun output => output.script.isEmpty)

/-- Outputs that do not fit end behind the buffer, but for an empty script at the
end, whose length is left out where only this one byte is missing. -/
theorem outputs_over
    (outputs : List BRTxOutput)
    (hdata : w.data ≠ none)
    (hshort : w.dataLen < w.off + (outputs.flatMap txOutputData).length) :
    ((outputs.foldl txOutputWrite w).off ≤ w.dataLen ↔
      w.off + (outputs.flatMap txOutputData).length = w.dataLen + 1 ∧
        lastEmpty outputs = true) ∧
      ((outputs.foldl txOutputWrite w).off ≤ w.dataLen →
        (outputs.foldl txOutputWrite w).off = w.dataLen) := by
  induction outputs generalizing w with
  | nil =>
      have hlt : w.dataLen < w.off := hshort
      refine ⟨⟨fun h => absurd h (not_le.mpr hlt), fun h => ?_⟩,
        fun h => absurd h (not_le.mpr hlt)⟩
      exact absurd h.2 (by decide)
  | cons output outputs ih =>
      have hkeeps := txOutputWrite_keeps w output
      have hoff := txOutputWrite_off hdata output
      have hlen := RawTransaction.length_txOutputData output
      rw [← RawTransaction.length_varIntSet, RawTransaction.length_varIntSet_eq] at hlen
      obtain ⟨hpos, hle, hsmall⟩ := varIntSize_le output.script.length
      rw [List.flatMap_cons, List.length_append] at hshort ⊢
      rw [List.foldl_cons]
      by_cases hroom : w.off + (txOutputData output).length ≤ w.dataLen
      · -- the first output fits, and what is missing is missing behind it
        have hne : outputs ≠ [] := by
          rintro rfl
          exact absurd hshort (by simpa using hroom)
        have hlast : lastEmpty (output :: outputs) = lastEmpty outputs := by
          rw [lastEmpty, List.getLast?_cons_of_ne_nil hne, ← lastEmpty]
        rw [if_pos (by omega)] at hoff
        have hnext := ih (hkeeps.data_ne hdata) (by rw [hkeeps.dataLen]; omega)
        rw [hkeeps.dataLen, hoff] at hnext
        rw [hlast]
        have hsum : w.off + 8 + varIntSize output.script.length + output.script.length +
            (outputs.flatMap txOutputData).length =
              w.off + ((txOutputData output).length +
                (outputs.flatMap txOutputData).length) := by
          omega
        rwa [hsum] at hnext
      · cases outputs with
        | nil =>
            have hlast : lastEmpty [output] = true ↔ output.script.length = 0 := by
              simp [lastEmpty]
            rw [hlast, List.foldl_nil, hoff]
            rw [List.flatMap_nil, List.length_nil] at hshort ⊢
            rcases Nat.eq_zero_or_pos output.script.length with hzero | hscript
            · have hone : varIntSize 0 = 1 := rfl
              rw [hzero, hone] at hlen ⊢
              split <;> omega
            · have := hsmall hscript
              split <;> omega
        | cons next outputs =>
            -- the outputs behind it lead over the end
            have hend := le_outputs_off (next :: outputs) (txOutputWrite w output)
            have hnext : 8 < ((next :: outputs).flatMap txOutputData).length := by
              rw [List.flatMap_cons, List.length_append, RawTransaction.length_txOutputData,
                ← RawTransaction.length_varIntSet, RawTransaction.length_varIntSet_eq]
              have := (varIntSize_le next.script.length).1
              omega
            have hover : w.dataLen <
                ((next :: outputs).foldl txOutputWrite (txOutputWrite w output)).off := by
              rw [List.length_cons] at hend
              rcases Nat.eq_zero_or_pos output.script.length with hzero | hscript
              · have hone : varIntSize 0 = 1 := rfl
                rw [hzero, hone] at hlen hoff
                split at hoff <;> omega
              · have := hsmall hscript
                split at hoff <;> omega
            refine ⟨⟨fun h => absurd h (not_le.mpr hover), fun h => ?_⟩,
              fun h => absurd h (not_le.mpr hover)⟩
            exact absurd h.1 (by omega)

/-- Where the outputs end.  They are written if they fit, and if only the length
of an empty last script is missing, the bytes up to the end count. -/
def outputsTaken (outputs : List BRTxOutput) (dataLen off : ℕ) : ℕ :=
  let n := (outputs.flatMap txOutputData).length
  if off + n ≤ dataLen then off + n
  else if off + n = dataLen + 1 ∧ lastEmpty outputs = true then dataLen
  else off

theorem call_outputWrite_off
    {tx : RawTransaction}
    (hw : Valid w)
    (hdata : w.data ≠ none) :
    (w.call tx.outputWrite).off = outputsTaken tx.outputs w.dataLen w.off := by
  have hwrites : Writes tx.outputWrite (tx.outputs.flatMap txOutputData) :=
    Writes.foldl (fun output _ => txOutputWrite_writes output)
  have hkeeps : ∀ w, Keeps w (tx.outputWrite w) :=
    fun w => keeps_foldl txOutputWrite_keeps w _
  have hrest : w.rest.data ≠ none := fun h => hdata (Option.map_eq_none_iff.mp h)
  rw [outputsTaken]
  by_cases hroom : w.off + (tx.outputs.flatMap txOutputData).length ≤ w.dataLen
  · have hcall := hwrites.call w hw (fits_iff.mpr (.inr hroom))
    dsimp only at hcall
    rw [if_pos hroom, hcall]
    rfl
  rw [if_neg hroom, call_off hdata hkeeps]
  cases houtputs : tx.outputs with
  | nil =>
      have hzero : (tx.outputWrite w.rest).off = 0 := by
        rw [RawTransaction.outputWrite, houtputs]
        rfl
      have hlast : ¬ (w.off + (List.flatMap txOutputData []).length = w.dataLen + 1 ∧
          lastEmpty [] = true) := fun h => absurd h.2 (by decide)
      rw [hzero, ite_self, if_neg hlast, Nat.add_zero]
  | cons output outputs =>
      have hpos : 1 < (tx.outputs.flatMap txOutputData).length := by
        rw [houtputs, List.flatMap_cons, List.length_append, RawTransaction.length_txOutputData]
        omega
      have hover := outputs_over tx.outputs hrest (by
        rw [rest_dataLen]
        change _ < 0 + _
        omega)
      have hstart : w.rest.off = 0 := rfl
      rw [rest_dataLen, hstart, Nat.zero_add] at hover
      obtain ⟨hiff, hend⟩ := hover
      rw [← houtputs]
      change _ + (if (tx.outputs.foldl txOutputWrite w.rest).off ≤ _ then
        (tx.outputs.foldl txOutputWrite w.rest).off else 0) = _
      by_cases hlast : w.off + (tx.outputs.flatMap txOutputData).length = w.dataLen + 1 ∧
          lastEmpty tx.outputs = true
      · have hinner := hiff.mpr ⟨by omega, hlast.2⟩
        rw [if_pos hlast, if_pos hinner, hend hinner]
        omega
      · have hinner : ¬ (tx.outputs.foldl txOutputWrite w.rest).off ≤ w.dataLen - w.off := by
          intro h
          obtain ⟨hmissing, hempty⟩ := hiff.mp h
          exact hlast ⟨by omega, hempty⟩
        rw [if_neg hlast, if_neg hinner, Nat.add_zero]

theorem OutBuffer.Keeps.valid
    {w w' : OutBuffer}
    (h : Keeps w w')
    (hw : Valid w) :
    Valid w' := by
  intro mem' hmem'
  have hdata := h.data
  rw [hmem'] at hdata
  obtain ⟨mem, hmem, hsame⟩ := Option.map_eq_some_iff.mp hdata.symm
  rw [h.dataLen, ← (Prod.mk.inj hsame).1]
  exact hw mem hmem

theorem inputWrite_keeps
    (w : OutBuffer) (input : BRTxInput) :
    Keeps w (RawTransaction.inputWrite w input) := by
  rw [RawTransaction.inputWrite_eq]
  exact keeps_call w (txInputWrite_keeps _ _)

theorem inputs_off
    (inputs : List BRTxInput)
    (hw : Valid w)
    (hdata : w.data ≠ none) :
    (inputs.foldl RawTransaction.inputWrite w).off =
      inputs.foldl (fun off input =>
        taken w.dataLen off (RawTransaction.inputBytes input).length) w.off := by
  induction inputs generalizing w with
  | nil =>
      rfl
  | cons input inputs ih =>
      have hkeeps := inputWrite_keeps w input
      rw [List.foldl_cons, List.foldl_cons, ih (hkeeps.valid hw) (hkeeps.data_ne hdata),
        hkeeps.dataLen, inputWrite_off hw hdata]

end Short

namespace RawTransaction

variable {tx : RawTransaction}

/-- How far the fields in front of the lock time come in a buffer: each part is
taken if it fits into what is left. -/
def packed (tx : RawTransaction) (bufLen : ℕ) : ℕ :=
  let off := taken bufLen 4 (varIntSize tx.inputs.length)
  let off := tx.inputs.foldl (fun off input => taken bufLen off (inputBytes input).length) off
  let off := taken bufLen off (varIntSize tx.outputs.length)
  outputsTaken tx.outputs bufLen off

theorem dataWrite_off
    (tx : RawTransaction) {mem : List UInt8} {bufLen : ℕ}
    (hmem : bufLen ≤ mem.length) :
    (tx.dataWrite ⟨some mem, bufLen, 0⟩).off = tx.packed bufLen + 4 := by
  have h₀ : Valid ⟨some mem, bufLen, 0⟩ := by
    intro mem' hmem'
    cases hmem'
    exact hmem
  have hd₀ : (⟨some mem, bufLen, 0⟩ : OutBuffer).data ≠ none := Option.some_ne_none mem
  have h₁ := keeps_copy ⟨some mem, bufLen, 0⟩ (LittleEndian.bytes 4 tx.version.toNat)
  have h₂ := h₁.trans (keeps_varInt _ tx.inputs.length)
  have h₃ := h₂.trans (keeps_foldl inputWrite_keeps _ tx.inputs)
  have h₄ := h₃.trans (keeps_varInt _ tx.outputs.length)
  have hoff₂ := varInt_off (h₁.data_ne hd₀) tx.inputs.length
  have hoff₃ := inputs_off tx.inputs (h₂.valid h₀) (h₂.data_ne hd₀)
  have hoff₄ := varInt_off (h₃.data_ne hd₀) tx.outputs.length
  have hoff₅ := @call_outputWrite_off _ tx (h₄.valid h₀) (h₄.data_ne hd₀)
  rw [h₄.dataLen, hoff₄, h₃.dataLen, hoff₃, h₂.dataLen, hoff₂, h₁.dataLen] at hoff₅
  have hstart : ((⟨some mem, bufLen, 0⟩ : OutBuffer).copy
      (LittleEndian.bytes 4 tx.version.toNat)).off = 4 := by
    change 0 + _ = _
    rw [LittleEndian.length_bytes]
  rw [hstart] at hoff₅
  have hend := congrArg (· + (LittleEndian.bytes 4 tx.lockTime.toNat).length) hoff₅
  rw [LittleEndian.length_bytes] at hend
  exact hend

/-- The size that `BRTransactionSize` promises is the length that is asked for
without a buffer, a buffer of this length is filled, a shorter one is refused,
and nothing is written behind the end. -/
structure SizeAgrees (tx : RawTransaction) (mem : List UInt8) (bufLen : ℕ) : Prop where
  asked : (tx.serializeInto none 0).2 = tx.size
  filled : bufLen = tx.size →
    tx.serializeInto (some mem) bufLen = (some (tx.serialize ++ mem.drop bufLen), bufLen)
  refused : bufLen < tx.size → (tx.serializeInto (some mem) bufLen).2 = 0
  kept : ∃ mem', (tx.serializeInto (some mem) bufLen).1 = some mem' ∧
    mem'.length = mem.length ∧ mem'.drop bufLen = mem.drop bufLen

theorem result_serializeInto
    (tx : RawTransaction) {mem : List UInt8} {bufLen : ℕ}
    (hmem : bufLen ≤ mem.length) :
    (tx.serializeInto (some mem) bufLen).2 =
      if tx.packed bufLen + 4 ≤ bufLen then tx.packed bufLen + 4 else 0 := by
  have hkeeps := dataWrite_keeps tx ⟨some mem, bufLen, 0⟩
  rw [serializeInto]
  dsimp only
  rw [result, dataWrite_off tx hmem]
  refine if_congr ?_ rfl rfl
  rw [fits_iff, dataWrite_off tx hmem, hkeeps.dataLen, Nat.add_zero]
  exact or_iff_right (hkeeps.data_ne (Option.some_ne_none mem))

/-- **Size agreement.**  For a signed transaction and a buffer of any length
`BRTransactionSize` agrees with `BRTransactionSerialize` exactly if, in a buffer
that is too short, the parts that fit leave less than the four bytes of the lock
time. -/
theorem sizeAgrees_iff
    (hsigned : ∀ input ∈ tx.inputs, input.signature ≠ none)
    {mem : List UInt8} {bufLen : ℕ}
    (hmem : bufLen ≤ mem.length) :
    SizeAgrees tx mem bufLen ↔ (bufLen < tx.size → bufLen < tx.packed bufLen + 4) := by
  have hsize := size_eq hsigned
  have hvalid : ∀ data : Option (List UInt8), (∀ m, data = some m → bufLen ≤ m.length) →
      Valid ⟨data, bufLen, 0⟩ := fun _ h => h
  constructor
  · intro h hshort
    have hrefused := h.refused hshort
    rw [result_serializeInto tx hmem] at hrefused
    by_contra hfits
    rw [if_pos (by omega)] at hrefused
    omega
  · intro hpacked
    refine ⟨?_, fun heq => ?_, fun hshort => ?_, ?_⟩
    · have hwrite := dataWrite_writes tx ⟨none, 0, 0⟩ (fun _ h => by cases h) rfl
      have hfits : ((⟨none, 0, 0⟩ : OutBuffer).copy tx.serialize).fits 0 = true :=
        copy_fits_iff.trans rfl
      rw [serializeInto, hwrite, hsize]
      dsimp only
      rw [result, if_pos hfits]
      exact Nat.zero_add _
    · have hfits : (⟨some mem, bufLen, 0⟩ : OutBuffer).fits tx.serialize.length = true :=
        fits_iff.mpr (.inr (by dsimp only; omega))
      have hwrite := dataWrite_writes tx ⟨some mem, bufLen, 0⟩
        (fun m h => by cases h; exact hmem) hfits
      rw [serializeInto, hwrite, copy_some (by omega) hmem, List.take_zero, List.nil_append,
        Nat.zero_add, result, if_pos (fits_iff.mpr (.inr (by dsimp only; omega))), ← hsize, heq]
    · rw [result_serializeInto tx hmem, if_neg (by have := hpacked hshort; omega)]
    · have hkeeps := (dataWrite_keeps tx ⟨some mem, bufLen, 0⟩).data
      obtain ⟨mem', hmem', hsame⟩ := Option.map_eq_some_iff.mp hkeeps
      exact ⟨mem', hmem', (Prod.mk.inj hsame).1, (Prod.mk.inj hsame).2⟩

/-- A signed input and an output. -/
def samplePair : RawTransaction where
  txHash := 0
  inputs := [{ worthlessInput with signature := some [1, 2] }]
  outputs := [{ address := [], amount := 5, script := [0x51] }]

/-- Five bytes short, the output is left out and the rest is written. -/
theorem samplePair_short :
    (∀ input ∈ samplePair.inputs, input.signature ≠ none) ∧ samplePair.size = 63 ∧
      (samplePair.serializeInto (some (List.replicate 58 0)) 58).2 = 53 ∧
      ¬ SizeAgrees samplePair (List.replicate 58 0) 58 := by
  have hshort : (samplePair.serializeInto (some (List.replicate 58 0)) 58).2 = 53 := by
    decide +kernel
  refine ⟨by decide, by decide, hshort, fun h => ?_⟩
  have hrefused := h.refused (by decide)
  rw [hshort] at hrefused
  cases hrefused

theorem sizeAgrees_samplePair :
    SizeAgrees samplePair (List.replicate 64 0) 63 :=
  (sizeAgrees_iff (by decide) (by decide)).mpr (fun h => absurd h (by decide))

end RawTransaction

end BreadwalletCore
