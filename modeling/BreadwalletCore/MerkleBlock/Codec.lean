import BreadwalletCore.MerkleBlock.Access
import BreadwalletCore.Transaction.Buffer

/-!
# The codec of merkle blocks

What `BRMerkleBlockSerialize` writes is parsed back, and what
`BRMerkleBlockParse` reads from a message that spells its lengths as short as
possible is serialized to the same bytes.  The tree is left out when there are
no transactions.
-/

namespace BreadwalletCore
namespace RawMerkleBlock

open Segment (slice At at_append at_zero_iff)
open ByteWriter (Appends appends_id appends_copy)
open Payload (HeadersEnv)

section Format

/-- The partial merkle tree of a message, with its lengths spelled as short as
possible. -/
def treeMessage (totalTx : UInt32) (hashes flags : List UInt8) : List UInt8 :=
  LittleEndian.bytes 4 totalTx.toNat ++ (varIntSet (hashes.length / 32) ++ (hashes ++
    (varIntSet flags.length ++ flags)))

/-- The bare headers, and the canonical messages with transactions. -/
inductive Canonical : List UInt8 → Prop
  /-- 80 bytes -/
  | header {header : List UInt8} (hheader : header.length = 80) : Canonical header
  /-- a header and a tree -/
  | message {header hashes : List UInt8} {totalTx : UInt32} (flags : List UInt8)
      (hheader : header.length = 80) (htx : 0 < totalTx) (hhashes : 32 ∣ hashes.length) :
      Canonical (header ++ treeMessage totalTx hashes flags)

/-- `sizeof(BRMerkleBlock)`. -/
def structSize : ℕ := 192

variable (block : RawMerkleBlock)

/-- The arrays have the stated lengths.  They and the block are three objects
in one address space. -/
structure Allocated : Prop where
  hashes : (block.hashes.getD []).length = block.hashesCount
  flags : (block.flags.getD []).length = block.flagsLen
  fits : structSize + 32 * block.hashesCount + block.flagsLen ≤ 2 ^ 64

/-- The arrays have the stated lengths, and that of the message does not wrap. -/
structure Writable : Prop where
  hashes : (block.hashes.getD []).length = block.hashesCount
  flags : (block.flags.getD []).length = block.flagsLen
  fits : 84 + varIntSize block.hashesCount + 32 * block.hashesCount +
    varIntSize block.flagsLen + block.flagsLen < 2 ^ 64

/-- Two blocks with the same header fields and the same tree, if the second
has transactions. -/
structure SameMessage (parsed block : RawMerkleBlock) : Prop where
  version : parsed.version = block.version
  prevBlock : parsed.prevBlock = block.prevBlock
  merkleRoot : parsed.merkleRoot = block.merkleRoot
  timestamp : parsed.timestamp = block.timestamp
  target : parsed.target = block.target
  nonce : parsed.nonce = block.nonce
  totalTx : parsed.totalTx = block.totalTx
  hashes : 0 < block.totalTx → parsed.hashes = some (block.hashes.getD [])
  hashesCount : 0 < block.totalTx → parsed.hashesCount = block.hashesCount
  flags : 0 < block.totalTx → parsed.flags = some (block.flags.getD [])
  flagsLen : 0 < block.totalTx → parsed.flagsLen = block.flagsLen

/-- The bytes of the header. -/
def headerBytes : List UInt8 :=
  LittleEndian.bytes 4 block.version.toNat ++ (hashBytes block.prevBlock ++
    (hashBytes block.merkleRoot ++ (LittleEndian.bytes 4 block.timestamp.toNat ++
      (LittleEndian.bytes 4 block.target.toNat ++ LittleEndian.bytes 4 block.nonce.toNat))))

/-- The bytes behind the header. -/
def restBytes : List UInt8 :=
  if 0 < block.totalTx then
    treeMessage block.totalTx (hashesBytes (block.hashes.getD [])) (block.flags.getD [])
  else []

@[simp] theorem length_headerBytes :
    block.headerBytes.length = 80 := by
  simp [headerBytes]

theorem length_treeMessage
    (totalTx : UInt32) (hashes flags : List UInt8) :
    (treeMessage totalTx hashes flags).length =
      4 + varIntSize (hashes.length / 32) + hashes.length + varIntSize flags.length +
        flags.length := by
  simp only [treeMessage, List.length_append, LittleEndian.length_bytes,
    RawTransaction.length_varIntSet_eq]
  omega

end Format

section Hashes

theorem length_hashesBytes
    (hashes : List UInt256) :
    (hashesBytes hashes).length = 32 * hashes.length := by
  rw [hashesBytes, List.length_flatMap, List.map_congr_left (fun h _ => length_hashBytes h),
    List.map_const', List.sum_replicate, smul_eq_mul, Nat.mul_comm]

theorem slice_hashesBytes
    {hashes : List UInt256} {i : ℕ}
    (hi : i < hashes.length) :
    slice (hashesBytes hashes) (32 * i) 32 = hashBytes hashes[i] := by
  induction hashes generalizing i with
  | nil =>
      exact absurd hi (Nat.not_lt_zero i)
  | cons h hashes ih =>
      have hlen : (hashBytes h).length = 32 := length_hashBytes h
      rw [hashesBytes, List.flatMap_cons, ← hashesBytes, slice]
      cases i with
      | zero =>
          rw [Nat.mul_zero, List.drop_zero, List.take_left' hlen]
          rfl
      | succ i =>
          rw [show 32 * (i + 1) = (hashBytes h).length + 32 * i by omega, List.drop_append,
            List.drop_of_length_le (by omega), List.nil_append, Nat.add_sub_cancel_left]
          exact ih (by simpa using hi)

theorem ofNat_value_hashBytes
    (h : UInt256) :
    BitVec.ofNat 256 (LittleEndian.value (hashBytes h)) = h := by
  rw [hashBytes, LittleEndian.value_bytes (lt_of_lt_of_eq h.isLt (by norm_num)),
    BitVec.ofNat_toNat, BitVec.setWidth_eq]

/-- Hashes are read back from their bytes. -/
theorem hashesOf_hashesBytes
    (hashes : List UInt256) :
    hashesOf (hashesBytes hashes) = hashes := by
  have hcount : (hashesBytes hashes).length / 32 = hashes.length := by
    rw [length_hashesBytes, Nat.mul_div_cancel_left _ (by omega)]
  apply List.ext_getElem
  · rw [length_hashesOf, hcount]
  · intro i h₁ h₂
    simp only [hashesOf, List.getElem_map, List.getElem_range]
    rw [slice_hashesBytes h₂, ofNat_value_hashBytes]

/-- Whole hashes are written as the bytes they were read from. -/
theorem hashesBytes_hashesOf
    {bytes : List UInt8}
    (h : 32 ∣ bytes.length) :
    hashesBytes (hashesOf bytes) = bytes := by
  obtain ⟨n, hn⟩ := h
  have hcount : bytes.length / 32 = n := by
    omega
  have hfirst : ∀ k ≤ n, (List.range k).flatMap (fun i => hashBytes (BitVec.ofNat 256
      (LittleEndian.value (slice bytes (32 * i) 32)))) = slice bytes 0 (32 * k) := by
    intro k hk
    induction k with
    | zero =>
        simp [slice]
    | succ k ih =>
        rw [List.range_succ, List.flatMap_append, ih (by omega), List.flatMap_singleton,
          hashBytes_ofNat_value (Segment.length_slice (by omega)),
          show 32 * (k + 1) = 32 * k + 32 by omega, Segment.slice_add, Nat.zero_add]
  rw [hashesBytes, hashesOf, List.flatMap_map, hcount, hfirst n le_rfl, slice, List.drop_zero,
    ← hn, List.take_length]

end Hashes

section Write

/-- `f` writes `l` at the offset, if there is room for it. -/
def Puts (f : ByteWriter UInt8 → Except BlockFault (ByteWriter UInt8)) (l : List UInt8) : Prop :=
  ∃ g, Appends g l ∧ ∀ w, w.off + l.length ≤ w.buf.length → f w = .ok (g w)

variable {f g : ByteWriter UInt8 → Except BlockFault (ByteWriter UInt8)} {l m : List UInt8}

theorem puts_put
    (l : List UInt8) :
    Puts (put l) l :=
  ⟨fun w => w.copy l, appends_copy l, fun _ h => if_pos h⟩

theorem puts_pure :
    Puts pure [] :=
  ⟨fun w => w, appends_id, fun _ _ => rfl⟩

/-- One writes behind the other. -/
theorem Puts.comp
    (hf : Puts f l)
    (hg : Puts g m) :
    Puts (fun w => f w >>= g) (l ++ m) := by
  obtain ⟨f', hf', hfok⟩ := hf
  obtain ⟨g', hg', hgok⟩ := hg
  refine ⟨fun w => g' (f' w), hf'.comp hg', fun w h => ?_⟩
  rw [List.length_append] at h
  change f w >>= g = .ok (g' (f' w))
  rw [hfok w (by omega), Machine.ok_bind]
  refine hgok (f' w) ?_
  rw [hf'.off, hf'.length]
  omega

theorem Puts.afterVarInt
    (hg : Puts g m)
    (i : ℕ) :
    Puts (fun w => g (putVarInt i w)) (varIntSet i ++ m) := by
  have hset : Puts (fun w => .ok (putVarInt i w)) (varIntSet i) := by
    exact ⟨fun w => w.copy (varIntSet i), appends_copy _, fun w h => congrArg _ (if_pos h)⟩
  exact hset.comp hg

/-- An array of the stated length is written, and nothing for no array. -/
theorem puts_putArray
    {bytes : Option (List UInt8)} {len : ℕ}
    (h : (bytes.getD []).length = len) :
    Puts (putArray bytes len) (bytes.getD []) := by
  subst h
  cases bytes with
  | none =>
      exact puts_pure
  | some l =>
      have htake : putArray (some l) l.length = put l := by
        funext w
        rw [putArray, if_pos le_rfl, List.take_length]
      exact htake ▸ puts_put l

variable {block : RawMerkleBlock}

theorem Allocated.writable
    (h : block.Allocated) :
    block.Writable := by
  have hfits := h.fits
  have hcount := (varIntSize_le block.hashesCount).2.1
  have hflags := (varIntSize_le block.flagsLen).2.1
  refine ⟨h.hashes, h.flags, ?_⟩
  simp only [structSize] at hfits
  omega

theorem puts_putHeader :
    Puts block.putHeader block.headerBytes :=
  (puts_put _).comp ((puts_put _).comp ((puts_put _).comp ((puts_put _).comp
    ((puts_put _).comp (puts_put _)))))

theorem length_hashes_div
    (h : block.Writable) :
    (hashesBytes (block.hashes.getD [])).length / 32 = block.hashesCount := by
  rw [length_hashesBytes, Nat.mul_div_cancel_left _ (by omega), h.hashes]

theorem puts_putRest
    (h : block.Writable) :
    Puts block.putRest block.restBytes := by
  have hmap : (block.hashes.map hashesBytes).getD [] = hashesBytes (block.hashes.getD []) := by
    cases block.hashes <;> rfl
  have hlen : ((block.hashes.map hashesBytes).getD []).length = block.hashesCount * 32 := by
    rw [hmap, length_hashesBytes, h.hashes, Nat.mul_comm]
  have htree : Puts block.putTree (treeMessage block.totalTx
      (hashesBytes (block.hashes.getD [])) (block.flags.getD [])) := by
    rw [treeMessage, length_hashes_div h, h.flags, ← hmap]
    exact (puts_put _).comp (((puts_putArray hlen).comp
      ((puts_putArray h.flags).afterVarInt _)).afterVarInt _)
  by_cases htx : 0 < block.totalTx
  · have hput : block.putRest = block.putTree := funext fun w => if_pos htx
    rw [restBytes, if_pos htx, hput]
    exact htree
  · have hput : block.putRest = pure := funext fun w => if_neg htx
    rw [restBytes, if_neg htx, hput]
    exact puts_pure

/-- The length is that of what is written. -/
theorem serializedLength_eq
    (h : block.Writable) :
    block.serializedLength = (block.headerBytes ++ block.restBytes).length := by
  have hfits := h.fits
  rw [serializedLength, List.length_append, length_headerBytes, restBytes]
  split
  · rw [length_treeMessage, length_hashes_div h, length_hashesBytes, h.hashes, h.flags,
      wrap_of_lt]
    · omega
    · omega
  · rfl

/-- A buffer with room holds the bytes of the block, and what stood behind
them. -/
theorem serialize_some
    (h : block.Writable)
    {mem : List UInt8}
    (hmem : block.serializedLength ≤ mem.length) :
    block.serialize (some mem) = .ok (some (block.headerBytes ++ block.restBytes ++
      mem.drop block.serializedLength), block.serializedLength) := by
  obtain ⟨g, hg, hok⟩ := puts_putHeader.comp (puts_putRest h)
  have hlen := serializedLength_eq h
  have hroom : 0 + (block.headerBytes ++ block.restBytes).length ≤ mem.length := by
    omega
  have hrun : block.putHeader ⟨mem, 0⟩ >>= block.putRest = .ok (g ⟨mem, 0⟩) := hok ⟨mem, 0⟩ hroom
  have hbuf := hg.fits ⟨mem, 0⟩ hroom
  rw [List.take_zero, List.nil_append, Nat.zero_add, ← hlen] at hbuf
  have hbind : block.serialize (some mem) =
      ((block.putHeader ⟨mem, 0⟩ >>= block.putRest) >>= fun w =>
        pure (some w.buf, block.serializedLength)) := by
    rw [serialize, bind_assoc]
    exact if_pos hmem
  rw [hbind, hrun, Machine.ok_bind, hbuf]
  rfl

end Write

section Read

variable {buf : List UInt8}

theorem uint32_of_at
    {off : ℕ} {v : UInt32}
    (h : At buf off (LittleEndian.bytes 4 v.toNat)) :
    UInt32.ofNat (LittleEndian.value (slice buf off 4)) = v := by
  rw [value_slice_of_at h (lt_of_lt_of_eq v.toNat_lt (by norm_num)), UInt32.ofNat_toNat]

theorem hash_of_at
    {off : ℕ} {h : UInt256}
    (hat : At buf off (hashBytes h)) :
    BitVec.ofNat 256 (LittleEndian.value (slice buf off 32)) = h := by
  have hslice := hat.2
  rw [length_hashBytes] at hslice
  rw [hslice, ofNat_value_hashBytes]

/-- A shortest spelling is read back. -/
theorem varInt_of_at_varIntSet
    {off i : ℕ}
    (h : At buf off (varIntSet i))
    (hi : i < 2 ^ 64) :
    varInt buf off = (i, varIntSize i) := by
  have hsize : (IntWidth.least i).size = varIntSize i := by
    rw [← IntWidth.length_spell (IntWidth.least i) i, IntWidth.spell_least,
      RawTransaction.length_varIntSet_eq]
  rw [← IntWidth.spell_least] at h
  rw [varInt_of_at h (IntWidth.least_fits hi), hsize]

/-- The fields of a written header are read back. -/
theorem parseHeader_of_at
    {block : RawMerkleBlock}
    (h : At buf 0 block.headerBytes) :
    (parseHeader buf).value = {
      version := block.version
      prevBlock := block.prevBlock
      merkleRoot := block.merkleRoot
      timestamp := block.timestamp
      target := block.target
      nonce := block.nonce } := by
  simp only [headerBytes, at_append, LittleEndian.length_bytes, length_hashBytes,
    Nat.zero_add, Nat.reduceAdd] at h
  obtain ⟨hversion, hprev, hroot, htime, htarget, hnonce⟩ := h
  rw [← uint32_of_at hversion, ← hash_of_at hprev, ← hash_of_at hroot, ← uint32_of_at htime,
    ← uint32_of_at htarget, ← uint32_of_at hnonce]
  rfl

/-- The header fields are written as the bytes they were read from. -/
theorem headerBytes_parseHeader
    (h : 80 ≤ buf.length) :
    (parseHeader buf).value.headerBytes = slice buf 0 80 := by
  have hword : ∀ off, off + 4 ≤ 80 → LittleEndian.bytes 4
      (UInt32.ofNat (LittleEndian.value (slice buf off 4))).toNat = slice buf off 4 := by
    intro off hoff
    have hlt := value_slice_lt (show off + 4 ≤ buf.length by omega)
    rw [UInt32.toNat_ofNat_of_lt' (lt_of_lt_of_eq hlt (by norm_num)),
      bytes_value_slice (by omega)]
  have hhash : ∀ off, off + 32 ≤ 80 → hashBytes
      (BitVec.ofNat 256 (LittleEndian.value (slice buf off 32))) = slice buf off 32 := by
    intro off hoff
    exact hashBytes_ofNat_value (Segment.length_slice (by omega))
  change LittleEndian.bytes 4 (UInt32.ofNat (LittleEndian.value (slice buf 0 4))).toNat ++
    (hashBytes (BitVec.ofNat 256 (LittleEndian.value (slice buf 4 32))) ++
      (hashBytes (BitVec.ofNat 256 (LittleEndian.value (slice buf 36 32))) ++
        (LittleEndian.bytes 4 (UInt32.ofNat (LittleEndian.value (slice buf 68 4))).toNat ++
          (LittleEndian.bytes 4 (UInt32.ofNat (LittleEndian.value (slice buf 72 4))).toNat ++
            LittleEndian.bytes 4
              (UInt32.ofNat (LittleEndian.value (slice buf 76 4))).toNat)))) = _
  rw [hword 0 (by omega), hhash 4 (by omega), hhash 36 (by omega), hword 68 (by omega),
    hword 72 (by omega), hword 76 (by omega), ← Segment.slice_add, ← Segment.slice_add,
    ← Segment.slice_add, ← Segment.slice_add, ← Segment.slice_add]

variable {env : HeadersEnv} {header hashes flags : List UInt8} {totalTx : UInt32}

/-- The tree that a buffer holds behind the header. -/
theorem parsedTree_of_at
    (hhashes : 32 ∣ hashes.length)
    (hat : At buf 80 (treeMessage totalTx hashes flags))
    (hfits : buf.length < 2 ^ 64)
    (block : RawMerkleBlock) :
    treeEnd buf = 80 + (treeMessage totalTx hashes flags).length ∧
      parsedTree buf block = { block with
        totalTx
        hashesCount := hashes.length / 32
        hashes := some (hashesOf hashes)
        flagsLen := flags.length
        flags := some flags } := by
  have hlen := length_treeMessage totalTx hashes flags
  have hle := hat.1
  simp only [treeMessage, at_append, LittleEndian.length_bytes,
    RawTransaction.length_varIntSet_eq, Nat.reduceAdd] at hat
  obtain ⟨htx, hcount, hhash, hflagsLen, hflags⟩ := hat
  have hmul : hashes.length / 32 * 32 = hashes.length := Nat.div_mul_cancel hhashes
  have hvar := varInt_of_at_varIntSet hcount (by omega)
  have hend : hashesEnd buf = 84 + varIntSize (hashes.length / 32) + hashes.length := by
    rw [hashesEnd, announcedHashes, hvar, hmul]
  have hvar' := varInt_of_at_varIntSet hflagsLen (by omega)
  rw [← hend] at hvar'
  have hstart : flagsStart buf =
      84 + varIntSize (hashes.length / 32) + hashes.length + varIntSize flags.length := by
    rw [flagsStart, hvar', hend]
  have hhashes' : available buf (84 + varIntSize (hashes.length / 32)) hashes.length =
      some hashes := by
    rw [available, if_pos hhash.1, hhash.2]
  have hflags' : available buf (flagsStart buf) flags.length = some flags := by
    rw [hstart, available, if_pos hflags.1, hflags.2]
  constructor
  · rw [treeEnd, hstart, announcedFlags, hvar', hlen]
    omega
  · rw [parsedTree, announcedFlags, announcedHashes, hvar, hvar', uint32_of_at htx, hflags', hmul,
      hhashes']
    rfl

/-- The parsed tree of a canonical message. -/
theorem parsedTree_message
    (hheader : header.length = 80)
    (hhashes : 32 ∣ hashes.length)
    (hfits : (header ++ treeMessage totalTx hashes flags).length < 2 ^ 64)
    (block : RawMerkleBlock) :
    treeEnd (header ++ treeMessage totalTx hashes flags) =
        (header ++ treeMessage totalTx hashes flags).length ∧
      parsedTree (header ++ treeMessage totalTx hashes flags) block = { block with
        totalTx
        hashesCount := hashes.length / 32
        hashes := some (hashesOf hashes)
        flagsLen := flags.length
        flags := some flags } := by
  have hat : At (header ++ treeMessage totalTx hashes flags) 0
      (header ++ treeMessage totalTx hashes flags) := at_zero_iff.mpr ⟨[], by rw [List.append_nil]⟩
  have hbehind := (at_append.mp hat).2
  rw [hheader, Nat.zero_add] at hbehind
  have htree := parsedTree_of_at hhashes hbehind hfits block
  rwa [← hheader, ← List.length_append] at htree

end Read

section Codec

variable (env : HeadersEnv)

/-- What is written is parsed back. -/
theorem parse_written
    {block : RawMerkleBlock}
    (h : block.Writable) :
    ∃ parsed, (parse env (block.headerBytes ++ block.restBytes)).value = some parsed ∧
      SameMessage parsed block := by
  have hat : At (block.headerBytes ++ block.restBytes) 0 block.headerBytes :=
    at_zero_iff.mpr ⟨block.restBytes, rfl⟩
  have hheader := parseHeader_of_at hat
  have hlen : (block.headerBytes ++ block.restBytes).length = 80 + block.restBytes.length := by
    rw [List.length_append, length_headerBytes]
  by_cases htx : 0 < block.totalTx
  · have hrest : block.restBytes = treeMessage block.totalTx
        (hashesBytes (block.hashes.getD [])) (block.flags.getD []) := if_pos htx
    have hcount := length_hashes_div h
    have hfits : (block.headerBytes ++ block.restBytes).length < 2 ^ 64 := by
      have hsum := h.fits
      rw [hlen, hrest, length_treeMessage, hcount, length_hashesBytes, h.hashes, h.flags]
      omega
    rw [hrest] at hfits hheader ⊢
    obtain ⟨hend, htree⟩ := parsedTree_message (length_headerBytes block)
      (by rw [length_hashesBytes]; exact Nat.dvd_mul_right 32 _) hfits
      (parseHeader (block.headerBytes ++ treeMessage block.totalTx
        (hashesBytes (block.hashes.getD [])) (block.flags.getD []))).value
    have h84 : 84 ≤ (block.headerBytes ++ treeMessage block.totalTx
        (hashesBytes (block.hashes.getD [])) (block.flags.getD [])).length := by
      rw [List.length_append, length_headerBytes, length_treeMessage]
      omega
    refine ⟨_, value_parse (by omega) (fun _ => by rwa [hend]), ?_⟩
    rw [parsedBlock_tree h84, htree, hheader, hcount, hashesOf_hashesBytes, h.flags]
    exact ⟨rfl, rfl, rfl, rfl, rfl, rfl, rfl, fun _ => rfl, fun _ => rfl, fun _ => rfl,
      fun _ => rfl⟩
  · have hrest : block.restBytes = [] := if_neg htx
    have hzero : block.totalTx = 0 := by
      rwa [UInt32.not_lt, UInt32.le_zero_iff] at htx
    rw [hrest, List.length_nil] at hlen
    rw [hrest] at hheader ⊢
    refine ⟨_, value_parse (by omega) (fun h84 => by omega), ?_⟩
    rw [parsedBlock_header (by omega), hheader]
    exact ⟨rfl, rfl, rfl, rfl, rfl, rfl, hzero.symm, fun h => absurd h htx,
      fun h => absurd h htx, fun h => absurd h htx, fun h => absurd h htx⟩

/-- What is parsed from a header or a canonical message is written as these
bytes. -/
theorem written_parse
    {buf : List UInt8}
    (hcanonical : Canonical buf)
    (hfits : buf.length < 2 ^ 64) :
    ∃ parsed, (parse env buf).value = some parsed ∧ parsed.Writable ∧
      parsed.headerBytes ++ parsed.restBytes = buf := by
  cases hcanonical with
  | header hheader =>
      refine ⟨_, value_parse (by omega) (fun h84 => by omega), ?_, ?_⟩
      · rw [parsedBlock_header (by omega)]
        have hempty : 84 + varIntSize 0 + 32 * 0 + varIntSize 0 + 0 < 2 ^ 64 := by
          decide
        exact ⟨rfl, rfl, hempty⟩
      · rw [parsedBlock_header (by omega)]
        have hbytes := headerBytes_parseHeader (show 80 ≤ buf.length by omega)
        rw [slice, List.drop_zero, List.take_of_length_le (by omega)] at hbytes
        exact (List.append_nil _).trans hbytes
  | message flags hheader htx hhashes =>
      rename_i header hashes totalTx
      obtain ⟨hend, htree⟩ := parsedTree_message hheader hhashes hfits
        (parseHeader (header ++ treeMessage totalTx hashes flags)).value
      have hlen : (header ++ treeMessage totalTx hashes flags).length =
          84 + varIntSize (hashes.length / 32) + hashes.length + varIntSize flags.length +
            flags.length := by
        rw [List.length_append, length_treeMessage]
        omega
      have hmul : 32 * (hashes.length / 32) = hashes.length := Nat.mul_div_cancel' hhashes
      refine ⟨_, value_parse (by omega) (fun _ => by rwa [hend]), ?_, ?_⟩
      · rw [parsedBlock_tree (by omega), htree]
        refine ⟨length_hashesOf hashes, rfl, ?_⟩
        dsimp only
        rw [hmul, ← hlen]
        exact hfits
      · rw [parsedBlock_tree (by omega), htree]
        have hbytes := headerBytes_parseHeader
          (show 80 ≤ (header ++ treeMessage totalTx hashes flags).length by omega)
        rw [slice, List.drop_zero, List.take_left' hheader] at hbytes
        refine congrArg₂ _ hbytes ?_
        rw [restBytes, if_pos htx]
        dsimp only [Option.getD_some]
        rw [hashesBytes_hashesOf hhashes]

/-- `BRMerkleBlockSerialize` and `BRMerkleBlockParse` are inverse: on the fields
of blocks whose arrays have the stated lengths, but for the tree of a block
without transactions, and on bare headers and canonical messages. -/
theorem merkleBlock_codec
    (env : HeadersEnv) :
    (∀ block : RawMerkleBlock, block.Allocated →
      ∃ len, block.serialize none = .ok (none, len) ∧ ∀ mem : List UInt8, len ≤ mem.length →
        ∃ bytes parsed, block.serialize (some mem) = .ok (some (bytes ++ mem.drop len), len) ∧
          bytes.length = len ∧ (parse env bytes).value = some parsed ∧
          SameMessage parsed block) ∧
    ∀ buf : List UInt8, buf.length < 2 ^ 64 → Canonical buf →
      ∃ parsed, (parse env buf).value = some parsed ∧
        parsed.serialize none = .ok (none, buf.length) ∧ ∀ mem : List UInt8,
          buf.length ≤ mem.length →
          parsed.serialize (some mem) = .ok (some (buf ++ mem.drop buf.length), buf.length) := by
  constructor
  · intro block h
    refine ⟨_, rfl, fun mem hmem => ?_⟩
    obtain ⟨parsed, hparse, hsame⟩ := parse_written env h.writable
    exact ⟨_, parsed, serialize_some h.writable hmem, (serializedLength_eq h.writable).symm,
      hparse, hsame⟩
  · intro buf hfits hcanonical
    obtain ⟨parsed, hparse, hwritable, hbytes⟩ := written_parse env hcanonical hfits
    have hlen := serializedLength_eq hwritable
    rw [hbytes] at hlen
    refine ⟨parsed, hparse, ?_, fun mem hmem => ?_⟩
    · rw [serialize, hlen]
      rfl
    · have hok := serialize_some hwritable (show parsed.serializedLength ≤ mem.length by omega)
      rwa [hbytes, hlen] at hok

/-- A block with one transaction, and a message that is all zeros but for the
number of transactions. -/
theorem merkleBlock_codec_oneTransaction :
    (∃ len, RawMerkleBlock.serialize
        { totalTx := 1, hashes := some [7], hashesCount := 1, flags := some [1], flagsLen := 1 }
        none = .ok (none, len) ∧
      ∀ mem : List UInt8, len ≤ mem.length → ∃ bytes parsed,
        RawMerkleBlock.serialize
          { totalTx := 1, hashes := some [7], hashesCount := 1, flags := some [1], flagsLen := 1 }
          (some mem) = .ok (some (bytes ++ mem.drop len), len) ∧
        bytes.length = len ∧
        (parse ⟨0, 0, fun _ => 0, fun _ => 0, fun _ => 0, 0⟩ bytes).value = some parsed ∧
        SameMessage parsed
          { totalTx := 1, hashes := some [7], hashesCount := 1, flags := some [1],
            flagsLen := 1 }) ∧
    ∃ parsed, (parse ⟨0, 0, fun _ => 0, fun _ => 0, fun _ => 0, 0⟩
        (List.replicate 80 0 ++ treeMessage 1 [] [])).value = some parsed ∧
      parsed.serialize none = .ok (none, (List.replicate 80 0 ++ treeMessage 1 [] []).length) ∧
      ∀ mem : List UInt8, (List.replicate 80 0 ++ treeMessage 1 [] []).length ≤ mem.length →
        parsed.serialize (some mem) =
          .ok (some (List.replicate 80 0 ++ treeMessage 1 [] [] ++
            mem.drop (List.replicate 80 0 ++ treeMessage 1 [] []).length),
            (List.replicate 80 0 ++ treeMessage 1 [] []).length) :=
  ⟨(merkleBlock_codec ⟨0, 0, fun _ => 0, fun _ => 0, fun _ => 0, 0⟩).1 _ ⟨rfl, rfl, by decide⟩,
    (merkleBlock_codec ⟨0, 0, fun _ => 0, fun _ => 0, fun _ => 0, 0⟩).2 _ (by decide)
      (.message [] List.length_replicate (by decide) (Nat.dvd_zero 32))⟩

end Codec

end RawMerkleBlock
end BreadwalletCore
