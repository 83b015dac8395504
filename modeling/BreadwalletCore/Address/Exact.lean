import BreadwalletCore.Address.Base58
import BreadwalletCore.Transaction.Script

/-!
# Addresses and scripts

The functions of `BRAddress.c` between addresses and scriptPubKeys.  The two
version bytes depend on `BITCOIN_TESTNET`.

Since `BRBase58Decode` keeps what is in front of a character outside the
alphabet, an address with such a character and anything behind it is valid too,
and it names the same script.
-/

namespace BreadwalletCore

open Segment (slice)
open Base58
open Digits (leadingZeros numeral recode)

/-- `BITCOIN_PUBKEY_ADDRESS`, or `BITCOIN_PUBKEY_ADDRESS_TEST`. -/
def pubkeyAddress (testnet : Bool) : UInt8 :=
  if testnet then 111 else 3

/-- `BITCOIN_SCRIPT_ADDRESS`, or `BITCOIN_SCRIPT_ADDRESS_TEST`. -/
def scriptAddress (testnet : Bool) : UInt8 :=
  if testnet then 196 else 125

/-- `BRScriptData`, on the element at `off`. -/
def BRScriptData (script : List UInt8) (off : ℕ) : Option (List UInt8) :=
  let op := script.getD off 0
  let next :=
    if op = opPushData1 then (off + 2, LittleEndian.value (slice script (off + 1) 1))
    else if op = opPushData2 then (off + 3, LittleEndian.value (slice script (off + 1) 2))
    else if op = opPushData4 then (off + 5, LittleEndian.value (slice script (off + 1) 4))
    else (off + 1, if op > opPushData4 then 0 else op.toNat)
  if 0 < next.2 then some (slice script next.1 next.2) else none

section Functions

variable (testnet : Bool) (sha256d : List UInt8 → UInt256) (hash160 : List UInt8 → BitVec 160)

/-- The version byte and the hash `BRAddressFromScriptPubKey` finds. -/
def scriptPubKeyHash (script : List UInt8) : Option (List UInt8) :=
  let elems := scriptElements script
  let op := fun i => script.getD (elems.getD i 0) 0
  let d := fun i => BRScriptData script (elems.getD i 0)
  if elems.length = 5 ∧ op 0 = opDup ∧ op 1 = opHash160 ∧ op 2 = 20 ∧ op 3 = opEqualVerify ∧
      op 4 = opCheckSig then
    ((d 2).filter (·.length = 20)).map (pubkeyAddress testnet :: ·)
  else if elems.length = 3 ∧ op 0 = opHash160 ∧ op 1 = 20 ∧ op 2 = opEqual then
    ((d 1).filter (·.length = 20)).map (scriptAddress testnet :: ·)
  else if elems.length = 2 ∧ (op 0 = 65 ∨ op 0 = 33) ∧ op 1 = opCheckSig then
    ((d 0).filter (fun d => d.length = 65 ∨ d.length = 33)).map
      (fun d => pubkeyAddress testnet :: LittleEndian.bytes 20 (hash160 d).toNat)
  else none

/-- `BRAddressFromScriptPubKey`: the string with its NUL. -/
def BRAddressFromScriptPubKey (script : List UInt8) : List UInt8 :=
  if script = [] ∨ script.length > maxScriptLength then []
  else ((scriptPubKeyHash testnet hash160 script).map (BRBase58CheckEncode sha256d)).getD []

/-- The call of `BRBase58CheckDecode` with `data[21]`. -/
def addressData (addr : List UInt8) : Option (List UInt8) × ℕ :=
  writeOut (BRBase58CheckDecode sha256d addr) (some (List.replicate 21 0))

/-- `BRAddressScriptPubKey`. -/
def BRAddressScriptPubKey (addr : List UInt8) : List UInt8 :=
  let data := (addressData sha256d addr).1.getD []
  if (addressData sha256d addr).2 = 21 then
    if data.getD 0 0 = pubkeyAddress testnet then
      [opDup, opHash160, 20] ++ slice data 1 20 ++ [opEqualVerify, opCheckSig]
    else if data.getD 0 0 = scriptAddress testnet then
      [opHash160, 20] ++ slice data 1 20 ++ [opEqual]
    else []
  else []

/-- `BRAddressIsValid`. -/
def BRAddressIsValid (addr : List UInt8) : Bool :=
  let data := (addressData sha256d addr).1.getD []
  (addressData sha256d addr).2 = 21 ∧
    (data.getD 0 0 = pubkeyAddress testnet ∨ data.getD 0 0 = scriptAddress testnet)

end Functions

/-- A pay-to-pubkey-hash script. -/
def pubkeyHashScript (hash : List UInt8) : List UInt8 :=
  [opDup, opHash160, 20] ++ hash ++ [opEqualVerify, opCheckSig]

/-- A pay-to-script-hash script. -/
def scriptHashScript (hash : List UInt8) : List UInt8 :=
  [opHash160, 20] ++ hash ++ [opEqual]

/-! ## Scripts -/

theorem getD_of_getElem?
    {script : List UInt8} {off : ℕ} {op : UInt8}
    (hop : script[off]? = some op) :
    script.getD off 0 = op := by
  rw [List.getD_eq_getElem?_getD, hop, Option.getD_some]

theorem scriptElementsLoop_op
    {script : List UInt8} {off : ℕ} {op : UInt8}
    (hop : script[off]? = some op)
    (hgt : op > opPushData4)
    (fuel len : ℕ) (elems : List ℕ) :
    scriptElementsLoop script (fuel + 1) off len elems =
      scriptElementsLoop script fuel (off + 1) 0 (elems ++ [off]) := by
  obtain ⟨hlt, -⟩ := List.getElem?_eq_some_iff.mp hop
  have hget := getD_of_getElem? hop
  have hne : ∀ op' : UInt8, op' ≤ opPushData4 → op ≠ op' := by
    rintro op' hle rfl
    exact absurd hgt (UInt8.not_lt.mpr hle)
  rw [scriptElementsLoop, if_pos hlt]
  simp only [pushLength, hget, hne opPushData1 (by decide), hne opPushData2 (by decide),
    hne opPushData4 (by decide), if_false, hgt, if_true, Nat.add_zero]

theorem scriptElementsLoop_push20
    {script : List UInt8} {off : ℕ}
    (hop : script[off]? = some 20)
    (fuel len : ℕ) (elems : List ℕ) :
    scriptElementsLoop script (fuel + 1) off len elems =
      scriptElementsLoop script fuel (off + 21) 20 (elems ++ [off]) := by
  obtain ⟨hlt, -⟩ := List.getElem?_eq_some_iff.mp hop
  exact scriptElementsLoop_push (n := 20) hlt (getD_of_getElem? hop) (by omega) fuel len elems

theorem BRScriptData_push20
    {script hash : List UInt8} {off : ℕ}
    (hop : script[off]? = some 20)
    (hhash : slice script (off + 1) 20 = hash) :
    BRScriptData script off = some hash := by
  rw [BRScriptData, getD_of_getElem? hop]
  exact congrArg some hhash

section Templates

variable (testnet : Bool) (sha256d : List UInt8 → UInt256) (hash160 : List UInt8 → BitVec 160)
  {hash : List UInt8}

/-- What is found in a pay-to-pubkey-hash script. -/
theorem scriptPubKeyHash_pubkeyHash
    (hhash : hash.length = 20) :
    scriptPubKeyHash testnet hash160 (pubkeyHashScript hash) =
      some (pubkeyAddress testnet :: hash) := by
  have hlen : (pubkeyHashScript hash).length = 25 := by
    simp [pubkeyHashScript, hhash]
  have h0 : (pubkeyHashScript hash)[0]? = some opDup := rfl
  have h1 : (pubkeyHashScript hash)[1]? = some opHash160 := rfl
  have h2 : (pubkeyHashScript hash)[2]? = some 20 := rfl
  have h23 : (pubkeyHashScript hash)[23]? = some opEqualVerify := by
    rw [pubkeyHashScript, List.getElem?_append_right (by simp [hhash])]
    simp [hhash]
  have h24 : (pubkeyHashScript hash)[24]? = some opCheckSig := by
    rw [pubkeyHashScript, List.getElem?_append_right (by simp [hhash])]
    simp [hhash]
  have hslice : slice (pubkeyHashScript hash) 3 20 = hash := by
    rw [slice, pubkeyHashScript, List.append_assoc]
    exact List.take_left' hhash
  have helems : scriptElements (pubkeyHashScript hash) = [0, 1, 2, 23, 24] := by
    rw [scriptElements, hlen, scriptElementsLoop_op h0 (by decide),
      scriptElementsLoop_op h1 (by decide), scriptElementsLoop_push20 h2,
      scriptElementsLoop_op h23 (by decide), scriptElementsLoop_op h24 (by decide),
      scriptElementsLoop_end (by omega)]
    rfl
  have hdata := BRScriptData_push20 h2 hslice
  rw [scriptPubKeyHash, helems]
  simp only [List.length_cons, List.length_nil, List.getD_cons_zero, List.getD_cons_succ,
    getD_of_getElem? h0, getD_of_getElem? h1, getD_of_getElem? h2, getD_of_getElem? h23,
    getD_of_getElem? h24, hdata, and_self, if_true, Option.filter_some, hhash, decide_true,
    Option.map_some]

/-- What is found in a pay-to-script-hash script. -/
theorem scriptPubKeyHash_scriptHash
    (hhash : hash.length = 20) :
    scriptPubKeyHash testnet hash160 (scriptHashScript hash) =
      some (scriptAddress testnet :: hash) := by
  have hlen : (scriptHashScript hash).length = 23 := by
    simp [scriptHashScript, hhash]
  have h0 : (scriptHashScript hash)[0]? = some opHash160 := rfl
  have h1 : (scriptHashScript hash)[1]? = some 20 := rfl
  have h22 : (scriptHashScript hash)[22]? = some opEqual := by
    rw [scriptHashScript, List.getElem?_append_right (by simp [hhash])]
    simp [hhash]
  have hslice : slice (scriptHashScript hash) 2 20 = hash := by
    rw [slice, scriptHashScript, List.append_assoc]
    exact List.take_left' hhash
  have helems : scriptElements (scriptHashScript hash) = [0, 1, 22] := by
    rw [scriptElements, hlen, scriptElementsLoop_op h0 (by decide), scriptElementsLoop_push20 h1,
      scriptElementsLoop_op h22 (by decide), scriptElementsLoop_end (by omega)]
    rfl
  have hdata := BRScriptData_push20 h1 hslice
  have hfive : ¬ (0 + 1 + 1 + 1 = 5) := by omega
  rw [scriptPubKeyHash, helems]
  simp only [List.length_cons, List.length_nil, List.getD_cons_zero, List.getD_cons_succ,
    getD_of_getElem? h0, getD_of_getElem? h1, getD_of_getElem? h22, hdata, hfive, false_and,
    if_false, and_self, if_true, Option.filter_some, hhash, decide_true, Option.map_some]

theorem BRAddressFromScriptPubKey_pubkeyHash
    (hhash : hash.length = 20) :
    BRAddressFromScriptPubKey testnet sha256d hash160 (pubkeyHashScript hash) =
      BRBase58CheckEncode sha256d (pubkeyAddress testnet :: hash) := by
  have hlen : (pubkeyHashScript hash).length = 25 := by
    simp [pubkeyHashScript, hhash]
  have hok : ¬ (pubkeyHashScript hash = [] ∨
      (pubkeyHashScript hash).length > maxScriptLength) := by
    rintro (hnil | hlong)
    · rw [hnil] at hlen
      exact absurd hlen (by simp)
    · rw [hlen] at hlong
      exact absurd hlong (by decide)
  rw [BRAddressFromScriptPubKey, if_neg hok, scriptPubKeyHash_pubkeyHash testnet hash160 hhash]
  rfl

theorem BRAddressFromScriptPubKey_scriptHash
    (hhash : hash.length = 20) :
    BRAddressFromScriptPubKey testnet sha256d hash160 (scriptHashScript hash) =
      BRBase58CheckEncode sha256d (scriptAddress testnet :: hash) := by
  have hlen : (scriptHashScript hash).length = 23 := by
    simp [scriptHashScript, hhash]
  have hok : ¬ (scriptHashScript hash = [] ∨
      (scriptHashScript hash).length > maxScriptLength) := by
    rintro (hnil | hlong)
    · rw [hnil] at hlen
      exact absurd hlen (by simp)
    · rw [hlen] at hlong
      exact absurd hlong (by decide)
  rw [BRAddressFromScriptPubKey, if_neg hok, scriptPubKeyHash_scriptHash testnet hash160 hhash]
  rfl

end Templates

/-! ## Addresses -/

section Addresses

variable {testnet : Bool} {sha256d : List UInt8 → UInt256} {hash160 : List UInt8 → BitVec 160}
  {v : UInt8} {hash s : List UInt8}

/-- The version bytes of addresses. -/
def IsVersion (testnet : Bool) (v : UInt8) : Prop :=
  v = pubkeyAddress testnet ∨ v = scriptAddress testnet

/-- The script with the given version byte and hash. -/
def scriptFor (testnet : Bool) (v : UInt8) (hash : List UInt8) : List UInt8 :=
  if v = pubkeyAddress testnet then pubkeyHashScript hash else scriptHashScript hash

/-- The address with the given version byte and hash. -/
def addressFor (sha256d : List UInt8 → UInt256) (v : UInt8) (hash : List UInt8) : Address :=
  encoding (v :: hash ++ checksum sha256d (v :: hash))

theorem scriptAddress_ne
    (testnet : Bool) :
    scriptAddress testnet ≠ pubkeyAddress testnet := by
  cases testnet <;> decide

theorem addressData_of_decode
    (hhash : hash.length = 20)
    (hdecode : BRBase58CheckDecode sha256d s = v :: hash) :
    addressData sha256d s = (some (v :: hash), 21) := by
  have hlen : (v :: hash).length = 21 := by
    rw [List.length_cons, hhash]
  rw [addressData, hdecode, writeOut, if_pos (by rw [hlen, List.length_replicate]), hlen]
  rw [List.drop_of_length_le (by rw [List.length_replicate]), List.append_nil]

/-- A string is valid exactly if it decodes to a version byte and a hash. -/
theorem BRAddressIsValid_iff
    (s : List UInt8) :
    BRAddressIsValid testnet sha256d s = true ↔
      ∃ v hash, IsVersion testnet v ∧ hash.length = 20 ∧
        BRBase58CheckDecode sha256d s = v :: hash := by
  constructor
  · intro hvalid
    rw [BRAddressIsValid, decide_eq_true_eq] at hvalid
    obtain ⟨hlen, hversion⟩ := hvalid
    rw [addressData, writeOut] at hlen
    have hdata : (BRBase58CheckDecode sha256d s).length = 21 := by
      split at hlen
      · exact hlen
      · exact absurd hlen (by simp)
    obtain ⟨v, hash, hdecode⟩ :=
      List.exists_cons_of_length_pos (show 0 < (BRBase58CheckDecode sha256d s).length by omega)
    have hhash : hash.length = 20 := by
      rw [hdecode, List.length_cons] at hdata
      omega
    rw [addressData_of_decode hhash hdecode] at hversion
    exact ⟨v, hash, hversion, hhash, hdecode⟩
  · rintro ⟨v, hash, hversion, hhash, hdecode⟩
    rw [BRAddressIsValid, addressData_of_decode hhash hdecode, decide_eq_true_eq]
    exact ⟨rfl, hversion⟩

theorem BRAddressScriptPubKey_of_decode
    (hversion : IsVersion testnet v)
    (hhash : hash.length = 20)
    (hdecode : BRBase58CheckDecode sha256d s = v :: hash) :
    BRAddressScriptPubKey testnet sha256d s = scriptFor testnet v hash := by
  have hslice : slice (v :: hash) 1 20 = hash :=
    List.take_of_length_le (by rw [List.drop_succ_cons, List.drop_zero, hhash])
  rw [BRAddressScriptPubKey, addressData_of_decode hhash hdecode]
  simp only [Option.getD_some, List.getD_cons_zero, if_true, hslice]
  rw [scriptFor]
  split
  · rfl
  · rename_i hne
    rw [if_pos (hversion.resolve_left hne)]
    rfl

theorem BRAddressFromScriptPubKey_scriptFor
    (sha256d : List UInt8 → UInt256) (hash160 : List UInt8 → BitVec 160)
    (hversion : IsVersion testnet v)
    (hhash : hash.length = 20) :
    BRAddressFromScriptPubKey testnet sha256d hash160 (scriptFor testnet v hash) =
      addressFor sha256d v hash ++ [0] := by
  have hencode := BRBase58CheckEncode_eq sha256d (v :: hash)
  rw [scriptFor]
  split
  · rename_i hpubkey
    rw [BRAddressFromScriptPubKey_pubkeyHash _ _ _ hhash, ← hpubkey, hencode]
    rfl
  · rename_i hne
    rw [BRAddressFromScriptPubKey_scriptHash _ _ _ hhash, ← hversion.resolve_left hne, hencode]
    rfl

/-- The characters of the alphabet in front of a valid string are an address. -/
theorem BRBase58CheckDecode_iff_addressFor :
    BRBase58CheckDecode sha256d s = v :: hash ↔ alphabetPart s = addressFor sha256d v hash :=
  BRBase58CheckDecode_eq_iff_encoding (List.cons_ne_nil _ _)

/-- A string is its part in the alphabet, or that part is in front of another character. -/
theorem alphabetPart_cases
    (s : List UInt8) :
    (∀ c ∈ s, c ∈ base58chars) ∨
      ∃ c rest, c ∉ base58chars ∧ s = alphabetPart s ++ c :: rest := by
  by_cases hall : ∀ c ∈ s, c ∈ base58chars
  · exact Or.inl hall
  · refine Or.inr ?_
    have hsplit : alphabetPart s ++ s.dropWhile (· ∈ base58chars) = s :=
      List.takeWhile_append_dropWhile
    cases hrest : s.dropWhile (· ∈ base58chars) with
    | nil =>
        rw [hrest, List.append_nil] at hsplit
        rw [← hsplit] at hall
        exact absurd (alphabetPart_mem s) hall
    | cons c rest =>
        have hnot := List.head?_dropWhile_not (· ∈ base58chars) s
        rw [hrest] at hnot hsplit
        exact ⟨c, rest, by simpa using hnot, hsplit.symm⟩

/-- What is said of every valid address `s`. -/
def Exact (testnet : Bool) (sha256d : List UInt8 → UInt256) (hash160 : List UInt8 → BitVec 160)
    (s : List UInt8) : Prop :=
  (∀ c ∈ s, c ∈ base58chars) ∧
    BRBase58CheckEncode sha256d (BRBase58CheckDecode sha256d s) = s ++ [0] ∧
    BRAddressFromScriptPubKey testnet sha256d hash160
      (BRAddressScriptPubKey testnet sha256d s) = s ++ [0]

theorem exact_of_mem
    (hvalid : BRAddressIsValid testnet sha256d s = true)
    (hall : ∀ c ∈ s, c ∈ base58chars) :
    Exact testnet sha256d hash160 s := by
  obtain ⟨v, hash, hversion, hhash, hdecode⟩ := (BRAddressIsValid_iff s).mp hvalid
  have haddr := BRBase58CheckDecode_iff_addressFor.mp hdecode
  rw [alphabetPart_of_mem hall] at haddr
  refine ⟨hall, ?_, ?_⟩
  · rw [hdecode, BRBase58CheckEncode_eq, haddr]
    rfl
  · rw [BRAddressScriptPubKey_of_decode hversion hhash hdecode,
      BRAddressFromScriptPubKey_scriptFor sha256d hash160 hversion hhash, haddr]

/-- The address of a script is valid, and it names the script. -/
theorem addressFor_spec
    (sha256d : List UInt8 → UInt256)
    (hversion : IsVersion testnet v)
    (hhash : hash.length = 20) :
    BRAddressIsValid testnet sha256d (addressFor sha256d v hash) = true ∧
      BRAddressScriptPubKey testnet sha256d (addressFor sha256d v hash) =
        scriptFor testnet v hash := by
  have hdecode : BRBase58CheckDecode sha256d (addressFor sha256d v hash) = v :: hash :=
    BRBase58CheckDecode_iff_addressFor.mpr (alphabetPart_of_mem (encoding_mem _))
  exact ⟨(BRAddressIsValid_iff _).mpr ⟨v, hash, hversion, hhash, hdecode⟩,
    BRAddressScriptPubKey_of_decode hversion hhash hdecode⟩

/-- **Valid addresses.**  What a valid string should be is true of a string
exactly if it is not an address with a character outside the alphabet behind
it.  The address of a script is valid, and names that script. -/
theorem addressIsValid_exact
    (testnet : Bool) (sha256d : List UInt8 → UInt256) (hash160 : List UInt8 → BitVec 160) :
    (∀ s : List UInt8,
      (BRAddressIsValid testnet sha256d s = true → Exact testnet sha256d hash160 s) ↔
        ¬ ∃ v hash t c rest, (v = pubkeyAddress testnet ∨ v = scriptAddress testnet) ∧
          hash.length = 20 ∧ BRBase58CheckEncode sha256d (v :: hash) = t ++ [0] ∧
          c ∉ base58chars ∧ s = t ++ c :: rest) ∧
      ∀ hash : List UInt8, hash.length = 20 →
        (∃ s, BRAddressFromScriptPubKey testnet sha256d hash160 (pubkeyHashScript hash) =
            s ++ [0] ∧
          BRAddressIsValid testnet sha256d s = true ∧
          BRAddressScriptPubKey testnet sha256d s = pubkeyHashScript hash) ∧
        ∃ s, BRAddressFromScriptPubKey testnet sha256d hash160 (scriptHashScript hash) =
            s ++ [0] ∧
          BRAddressIsValid testnet sha256d s = true ∧
          BRAddressScriptPubKey testnet sha256d s = scriptHashScript hash := by
  refine ⟨fun s => ⟨?_, fun hnone hvalid => ?_⟩, fun hash hhash => ⟨?_, ?_⟩⟩
  · rintro hexact ⟨v, hash, t, c, rest, hversion, hhash, hencode, hc, rfl⟩
    rw [BRBase58CheckEncode_eq] at hencode
    have ht : addressFor sha256d v hash = t := List.append_cancel_right hencode
    subst ht
    have hdecode : BRBase58CheckDecode sha256d (addressFor sha256d v hash ++ c :: rest) =
        v :: hash :=
      BRBase58CheckDecode_iff_addressFor.mpr (alphabetPart_append (encoding_mem _) hc rest)
    have hvalid : BRAddressIsValid testnet sha256d (addressFor sha256d v hash ++ c :: rest) = true :=
      (BRAddressIsValid_iff _).mpr ⟨v, hash, hversion, hhash, hdecode⟩
    exact hc ((hexact hvalid).1 c (by simp))
  · obtain ⟨v, hash, hversion, hhash, hdecode⟩ := (BRAddressIsValid_iff s).mp hvalid
    have haddr := BRBase58CheckDecode_iff_addressFor.mp hdecode
    rcases alphabetPart_cases s with hall | ⟨c, rest, hc, hs⟩
    · exact exact_of_mem hvalid hall
    · rw [haddr] at hs
      exact absurd ⟨v, hash, _, c, rest, hversion, hhash, BRBase58CheckEncode_eq _ _, hc, hs⟩ hnone
  · have hversion : IsVersion testnet (pubkeyAddress testnet) := Or.inl rfl
    have hscript : scriptFor testnet (pubkeyAddress testnet) hash = pubkeyHashScript hash :=
      if_pos rfl
    have hfrom := BRAddressFromScriptPubKey_scriptFor sha256d hash160 hversion hhash
    have hspec := addressFor_spec sha256d hversion hhash
    rw [hscript] at hfrom hspec
    exact ⟨_, hfrom, hspec⟩
  · have hversion : IsVersion testnet (scriptAddress testnet) := Or.inr rfl
    have hscript : scriptFor testnet (scriptAddress testnet) hash = scriptHashScript hash :=
      if_neg (scriptAddress_ne testnet)
    have hfrom := BRAddressFromScriptPubKey_scriptFor sha256d hash160 hversion hhash
    have hspec := addressFor_spec sha256d hversion hhash
    rw [hscript] at hfrom hspec
    exact ⟨_, hfrom, hspec⟩

/-- The string `"2D1oxKts8YPdTJRG5FzxTNpMtWmq8hkVx3 A"`, with the hash that is always zero. -/
theorem not_exact_of_isValid :
    ¬ ∀ (testnet : Bool) (sha256d : List UInt8 → UInt256) (hash160 : List UInt8 → BitVec 160)
      (s : List UInt8), (0 : UInt8) ∉ s → BRAddressIsValid testnet sha256d s = true →
        Exact testnet sha256d hash160 s := by
  intro hclaim
  have hexact := hclaim false (fun _ => 0) (fun _ => 0)
    [0x32, 0x44, 0x31, 0x6f, 0x78, 0x4b, 0x74, 0x73, 0x38, 0x59, 0x50, 0x64, 0x54, 0x4a, 0x52,
      0x47, 0x35, 0x46, 0x7a, 0x78, 0x54, 0x4e, 0x70, 0x4d, 0x74, 0x57, 0x6d, 0x71, 0x38, 0x68,
      0x6b, 0x56, 0x78, 0x33, 0x20, 0x41] (by decide) (by decide +kernel)
  exact absurd (hexact.1 0x20 (by decide)) (by decide)

end Addresses

end BreadwalletCore
