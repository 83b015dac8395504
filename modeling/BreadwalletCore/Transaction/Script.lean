import BreadwalletCore.Data.LittleEndian
import BreadwalletCore.Data.Segment
import BreadwalletCore.Transaction

/-!
# Scripts

The script functions of `BRAddress.c`.  `scriptElements` splits a script into
opcodes and data pushes; whether a script is recognised as a scriptPubKey is
read off the first bytes of its elements.  The address strings themselves
(Base58Check over a hash) are behind `ScriptCodec`.
-/

namespace BreadwalletCore

open Segment (slice)

/-- The functions of `BRAddress.c` between scripts and addresses. -/
structure ScriptCodec where
  addressFromScriptPubKey : List UInt8 → Address
  addressFromScriptSig : List UInt8 → Address
  addressScriptPubKey : Address → List UInt8

/-- `OP_PUSHDATA1`. -/
def opPushData1 : UInt8 := 0x4c

/-- `OP_PUSHDATA2`. -/
def opPushData2 : UInt8 := 0x4d

/-- `OP_PUSHDATA4`. -/
def opPushData4 : UInt8 := 0x4e

/-- `OP_DUP`. -/
def opDup : UInt8 := 0x76

/-- `OP_EQUAL`. -/
def opEqual : UInt8 := 0x87

/-- `OP_EQUALVERIFY`. -/
def opEqualVerify : UInt8 := 0x88

/-- `OP_HASH160`. -/
def opHash160 : UInt8 := 0xa9

/-- `OP_CHECKSIG`. -/
def opCheckSig : UInt8 := 0xac

/-- `MAX_SCRIPT_LENGTH`. -/
def maxScriptLength : ℕ := 0x100

/-- One step of `BRScriptElements` behind the opcode at `off`: where the data
starts and its length.  A length that is cut off keeps the previous one. -/
def pushLength (script : List UInt8) (off len : ℕ) : ℕ × ℕ :=
  let op := script.getD off 0
  if op = opPushData1 then
    (off + 2, if off + 2 ≤ script.length then LittleEndian.value (slice script (off + 1) 1) else len)
  else if op = opPushData2 then
    (off + 3, if off + 3 ≤ script.length then LittleEndian.value (slice script (off + 1) 2) else len)
  else if op = opPushData4 then
    (off + 5, if off + 5 ≤ script.length then LittleEndian.value (slice script (off + 1) 4) else len)
  else (off + 1, if op > opPushData4 then 0 else op.toNat)

/-- The loop of `BRScriptElements`, with the offsets found so far.  Every round
moves `off`, so the length of the script bounds their number. -/
def scriptElementsLoop (script : List UInt8) : ℕ → ℕ → ℕ → List ℕ → List ℕ × ℕ
  | 0, off, _, elems => (elems, off)
  | fuel + 1, off, len, elems =>
      if off < script.length then
        let next := pushLength script off len
        scriptElementsLoop script fuel (next.1 + next.2) next.2 (elems ++ [off])
      else (elems, off)

/-- `BRScriptElements`: the offsets of the elements, none if the last one is
cut off. -/
def scriptElements (script : List UInt8) : List ℕ :=
  let r := scriptElementsLoop script script.length 0 0 []
  if r.2 = script.length then r.1 else []

/-- The first byte of every element. -/
def scriptOpcodes (script : List UInt8) : List UInt8 :=
  (scriptElements script).map (fun off => script.getD off 0)

/-- `BRAddressFromScriptPubKey(NULL, 0, script, scriptLen) > 0`: pay to pubkey
hash, to script hash or to pubkey. -/
def isScriptPubKey (script : List UInt8) : Bool :=
  if script = [] ∨ script.length > maxScriptLength then false
  else
    match scriptOpcodes script with
    | [a, b, c, d, e] =>
        a = opDup ∧ b = opHash160 ∧ c = 20 ∧ d = opEqualVerify ∧ e = opCheckSig
    | [a, b, c] => a = opHash160 ∧ b = 20 ∧ c = opEqual
    | [a, b] => (a = 65 ∨ a = 33) ∧ b = opCheckSig
    | _ => false

/-- `BRScriptPushData`. -/
def scriptPushData (data : List UInt8) : List UInt8 :=
  (if data.length < 0x4c then [UInt8.ofNat data.length]
  else if data.length < 0xff then [opPushData1, UInt8.ofNat data.length]
  else if data.length < 0xffff then opPushData2 :: LittleEndian.bytes 2 data.length
  else opPushData4 :: LittleEndian.bytes 4 data.length) ++ data

/-! ## Scripts of short pushes -/

section ShortPush

theorem scriptPushData_short
    {data : List UInt8}
    (hlen : data.length < 0x4c) :
    scriptPushData data = UInt8.ofNat data.length :: data := by
  rw [scriptPushData, if_pos hlen]
  rfl

/-- A byte below `OP_PUSHDATA1` is none of the opcodes that carry a length. -/
theorem shortOp_spec
    {n : ℕ}
    (hn : n < 0x4c) :
    UInt8.ofNat n ≠ opPushData1 ∧ UInt8.ofNat n ≠ opPushData2 ∧ UInt8.ofNat n ≠ opPushData4 ∧
      ¬ UInt8.ofNat n > opPushData4 ∧ (UInt8.ofNat n).toNat = n := by
  have hnat : (UInt8.ofNat n).toNat = n := by
    rw [UInt8.toNat_ofNat']
    omega
  have hne : ∀ op : UInt8, 0x4c ≤ op.toNat → UInt8.ofNat n ≠ op := by
    intro op hop heq
    rw [← heq, hnat] at hop
    omega
  have hle : ¬ UInt8.ofNat n > opPushData4 := by
    rw [gt_iff_lt, UInt8.lt_iff_toNat_lt, hnat]
    simp only [opPushData4]
    have : (0x4e : UInt8).toNat = 0x4e := rfl
    omega
  exact ⟨hne opPushData1 (by decide), hne opPushData2 (by decide), hne opPushData4 (by decide),
    hle, hnat⟩

/-- A byte below `OP_PUSHDATA1` pushes that many bytes. -/
theorem pushLength_short
    {script : List UInt8} {off n : ℕ}
    (hop : script.getD off 0 = UInt8.ofNat n)
    (hn : n < 0x4c)
    (len : ℕ) :
    pushLength script off len = (off + 1, n) := by
  obtain ⟨h1, h2, h4, hle, hnat⟩ := shortOp_spec hn
  rw [pushLength, hop]
  simp only [h1, h2, h4, if_false, hle, hnat]

theorem scriptElementsLoop_end
    {script : List UInt8} {off : ℕ}
    (hoff : script.length ≤ off)
    (fuel len : ℕ) (elems : List ℕ) :
    scriptElementsLoop script fuel off len elems = (elems, off) := by
  cases fuel with
  | zero =>
      rfl
  | succ fuel =>
      rw [scriptElementsLoop, if_neg (by omega)]

theorem scriptElementsLoop_push
    {script : List UInt8} {off n : ℕ}
    (hoff : off < script.length)
    (hop : script.getD off 0 = UInt8.ofNat n)
    (hn : n < 0x4c)
    (fuel len : ℕ) (elems : List ℕ) :
    scriptElementsLoop script (fuel + 1) off len elems =
      scriptElementsLoop script fuel (off + 1 + n) n (elems ++ [off]) := by
  rw [scriptElementsLoop, if_pos hoff]
  simp only [pushLength_short hop hn]

/-- One push is one element. -/
theorem scriptElements_push
    {data : List UInt8}
    (hlen : data.length < 0x4c) :
    scriptElements (scriptPushData data) = [0] := by
  rw [scriptPushData_short hlen, scriptElements, List.length_cons,
    scriptElementsLoop_push (n := data.length) (by simp) (by simp) hlen,
    scriptElementsLoop_end (by simp)]
  simp only [List.nil_append]
  rw [if_pos (by omega)]

/-- Two pushes are two elements. -/
theorem scriptElements_push_push
    {data₁ data₂ : List UInt8}
    (hlen₁ : data₁.length < 0x4c)
    (hlen₂ : data₂.length < 0x4c) :
    scriptElements (scriptPushData data₁ ++ scriptPushData data₂) = [0, data₁.length + 1] := by
  rw [scriptPushData_short hlen₁, scriptPushData_short hlen₂]
  have hlength : ((UInt8.ofNat data₁.length :: data₁) ++
      UInt8.ofNat data₂.length :: data₂).length = data₁.length + data₂.length + 2 := by
    simp
    omega
  have hsecond : ((UInt8.ofNat data₁.length :: data₁) ++
      UInt8.ofNat data₂.length :: data₂).getD (0 + 1 + data₁.length) 0 =
        UInt8.ofNat data₂.length := by
    rw [List.getD_append_right _ _ _ _ (by simp)]
    simp [Nat.add_comm]
  rw [scriptElements, hlength,
    scriptElementsLoop_push (n := data₁.length) (by simp) (by simp) hlen₁,
    scriptElementsLoop_push (by omega) hsecond hlen₂,
    scriptElementsLoop_end (by omega)]
  simp only [List.nil_append, List.singleton_append]
  rw [if_pos (by omega)]
  congr 2
  omega

/-- What `BRTransactionSign` writes is never taken for a scriptPubKey. -/
theorem isScriptPubKey_push
    {data : List UInt8}
    (hlen : data.length < 0x4c) :
    isScriptPubKey (scriptPushData data) = false := by
  rw [isScriptPubKey, scriptOpcodes, scriptElements_push hlen]
  split <;> simp

theorem isScriptPubKey_push_push
    {data₁ data₂ : List UInt8}
    (hlen₁ : data₁.length < 0x4c)
    (hlen₂ : data₂.length < 0x4c) :
    isScriptPubKey (scriptPushData data₁ ++ scriptPushData data₂) = false := by
  have hsecond : (scriptPushData data₁ ++ scriptPushData data₂).getD (data₁.length + 1) 0 =
      UInt8.ofNat data₂.length := by
    rw [scriptPushData_short hlen₁, scriptPushData_short hlen₂,
      List.getD_append_right _ _ _ _ (by simp)]
    simp
  have hne : UInt8.ofNat data₂.length ≠ opCheckSig := by
    intro heq
    have hnat := congrArg UInt8.toNat heq
    rw [UInt8.toNat_ofNat'] at hnat
    change data₂.length % 2 ^ 8 = 0xac at hnat
    omega
  rw [isScriptPubKey, scriptOpcodes, scriptElements_push_push hlen₁ hlen₂]
  split
  · rfl
  · simp only [List.map_cons, List.map_nil, hsecond, hne, and_false, decide_false]

end ShortPush

end BreadwalletCore
