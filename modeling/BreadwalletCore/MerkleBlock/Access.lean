import BreadwalletCore.MerkleBlock.Parse
import BreadwalletCore.MerkleBlock.Termination

/-!
# The accesses of the parser and of the validator

`BRMerkleBlockParse` adds lengths that stand in the buffer; the sums wrap at
`2 ^ 64`.  It leaves the element counts of arrays that it did not copy, and
`BRMerkleBlockIsValid` and `BRMerkleBlockTxHashes` rely on the counts.  The size
byte of the target is an offset into 32 bytes, without a check.
-/

namespace BreadwalletCore

open Segment (slice)
open Payload (readLE readHash readBytes readVarInt readVarInt_inside lengthNeeded headerHash
  HeadersEnv Inside)

namespace RawMerkleBlock

section Ends

variable (buf : List UInt8)

/-- The number of hashes that stands in the buffer. -/
def announcedHashes : ℕ :=
  (varInt buf 84).1

/-- The end of the hashes. -/
def hashesEnd : ℕ :=
  84 + (varInt buf 84).2 + announcedHashes buf * 32

/-- The number of flag bytes that stands in the buffer. -/
def announcedFlags : ℕ :=
  (varInt buf (hashesEnd buf)).1

/-- The start of the flags. -/
def flagsStart : ℕ :=
  hashesEnd buf + (varInt buf (hashesEnd buf)).2

/-- The end of the flags. -/
def treeEnd : ℕ :=
  flagsStart buf + announcedFlags buf

theorem hashesEnd_lt_flagsStart :
    hashesEnd buf < flagsStart buf := by
  have h := (varInt_length buf (hashesEnd buf)).1
  rw [flagsStart]
  omega

theorem flagsStart_le_treeEnd :
    flagsStart buf ≤ treeEnd buf := by
  rw [treeEnd]
  omega

end Ends

section Sums

variable {α : Type} {buf : List UInt8} {off n : ℕ}

theorem inside_bind
    {β : Type} {x : Reads β} {f : β → Reads α} :
    Inside buf (x >>= f) ↔ Inside buf x ∧ Inside buf (f x.value) :=
  Traced.all_bind

theorem inside_read
    {β : Type} {v : β}
    (h : off + n ≤ buf.length) :
    Inside buf ⟨v, [.read off n]⟩ :=
  List.forall_mem_singleton.mpr h

/-- What follows a sum that does not wrap uses the sum. -/
theorem inside_lengthNeeded_bind
    {f : ℕ → Reads α} :
    Inside buf (lengthNeeded n >>= f) ↔ n < 2 ^ 64 ∧ Inside buf (f n) := by
  rw [inside_bind]
  constructor
  · rintro ⟨hsum, hrest⟩
    have hlt : n < 2 ^ 64 := hsum (.sum n) (List.mem_singleton_self _)
    rw [lengthNeeded, wrap_of_lt hlt] at hrest
    exact ⟨hlt, hrest⟩
  · rintro ⟨hlt, hrest⟩
    rw [lengthNeeded, wrap_of_lt hlt]
    exact ⟨List.forall_mem_singleton.mpr hlt, hrest⟩

theorem inside_moveOffset_bind
    {f : ℕ → Reads α} :
    Inside buf (moveOffset off n >>= f) ↔ off + n < 2 ^ 64 ∧ Inside buf (f (off + n)) :=
  inside_lengthNeeded_bind

theorem inside_readVarInt_bind
    {f : ℕ × ℕ → Reads α} :
    Inside buf (readVarInt buf off >>= f) ↔ Inside buf (f (varInt buf off)) := by
  rw [inside_bind, and_iff_right (readVarInt_inside buf off)]
  rfl

/-- The bytes of an array, if the buffer has them. -/
def available (buf : List UInt8) (off n : ℕ) : Option (List UInt8) :=
  if off + n ≤ buf.length then some (slice buf off n) else none

theorem value_copyArray
    (h : off + n < 2 ^ 64) :
    (copyArray buf off n).value = available buf off n := by
  have hvalue : (moveOffset off n).value = off + n := wrap_of_lt h
  rw [copyArray, Traced.value_bind, hvalue, available]
  split <;> rfl

theorem inside_copyArray :
    Inside buf (copyArray buf off n) ↔ off + n < 2 ^ 64 := by
  rw [copyArray, inside_moveOffset_bind, and_iff_left_iff_imp]
  intro h
  split
  · rename_i hle
    exact inside_bind.mpr ⟨inside_read hle, Traced.all_pure _⟩
  · exact Traced.all_pure _

theorem inside_copyArray_bind
    {f : Option (List UInt8) → Reads α} :
    Inside buf (copyArray buf off n >>= f) ↔
      off + n < 2 ^ 64 ∧ Inside buf (f (available buf off n)) := by
  rw [inside_bind, inside_copyArray]
  constructor
  · rintro ⟨hlt, hrest⟩
    rw [value_copyArray hlt] at hrest
    exact ⟨hlt, hrest⟩
  · rintro ⟨hlt, hrest⟩
    rw [value_copyArray hlt]
    exact ⟨hlt, hrest⟩

end Sums

section Parse

variable {env : HeadersEnv} {buf : List UInt8}

theorem parseHeader_inside
    (h : 80 ≤ buf.length) :
    Inside buf (parseHeader buf) := by
  have hread : ∀ off n, off + n ≤ 80 → ∀ a ∈ [Access.read off n], a.Ok buf.length := by
    intro off n hle
    exact List.forall_mem_singleton.mpr (show off + n ≤ buf.length by omega)
  simp only [parseHeader, inside_bind]
  exact ⟨hread 0 4 (by omega), hread 4 32 (by omega), hread 36 32 (by omega),
    hread 68 4 (by omega), hread 72 4 (by omega), hread 76 4 (by omega), Traced.all_pure _⟩

/-- No length of the tree wraps if its end does not. -/
theorem parseTree_inside_iff
    (block : RawMerkleBlock)
    (h : 84 ≤ buf.length) :
    Inside buf (parseTree buf block) ↔ treeEnd buf < 2 ^ 64 := by
  have hlt := hashesEnd_lt_flagsStart buf
  have hle := flagsStart_le_treeEnd buf
  have hread : Inside buf (readLE buf 80 4) := inside_read h
  rw [parseTree, inside_bind, and_iff_right hread, inside_readVarInt_bind, inside_moveOffset_bind,
    inside_lengthNeeded_bind, inside_copyArray_bind, inside_moveOffset_bind, inside_readVarInt_bind,
    inside_moveOffset_bind, inside_copyArray_bind]
  change 84 + (varInt buf 84).2 < 2 ^ 64 ∧ announcedHashes buf * 32 < 2 ^ 64 ∧
    hashesEnd buf < 2 ^ 64 ∧ hashesEnd buf < 2 ^ 64 ∧ flagsStart buf < 2 ^ 64 ∧
    treeEnd buf < 2 ^ 64 ∧ Inside buf (pure _) ↔ _
  have hpure : ∀ b : RawMerkleBlock, Inside buf (pure b) := fun b => Traced.all_pure b
  have hend : hashesEnd buf = 84 + (varInt buf 84).2 + announcedHashes buf * 32 := rfl
  constructor
  · rintro ⟨-, -, -, -, -, hfits, -⟩
    exact hfits
  · intro hfits
    exact ⟨by omega, by omega, by omega, by omega, by omega, hfits, hpure _⟩

/-- The block that the parser returns when nothing wraps. -/
def parsedTree (buf : List UInt8) (block : RawMerkleBlock) : RawMerkleBlock :=
  { block with
    totalTx := UInt32.ofNat (LittleEndian.value (slice buf 80 4))
    hashesCount := announcedHashes buf
    hashes := (available buf (84 + (varInt buf 84).2) (announcedHashes buf * 32)).map hashesOf
    flagsLen := announcedFlags buf
    flags := available buf (flagsStart buf) (announcedFlags buf) }

theorem value_parseTree
    (block : RawMerkleBlock)
    (h : treeEnd buf < 2 ^ 64) :
    (parseTree buf block).value = parsedTree buf block := by
  have hlt := hashesEnd_lt_flagsStart buf
  have hle := flagsStart_le_treeEnd buf
  have hend : hashesEnd buf = 84 + (varInt buf 84).2 + announcedHashes buf * 32 := rfl
  have hstart : flagsStart buf = hashesEnd buf + (varInt buf (hashesEnd buf)).2 := rfl
  have htree : treeEnd buf = flagsStart buf + announcedFlags buf := rfl
  have hvar : ∀ off, (readVarInt buf off).value = varInt buf off := fun _ => rfl
  have hcount : (varInt buf 84).1 = announcedHashes buf := rfl
  have hflags : (varInt buf (hashesEnd buf)).1 = announcedFlags buf := rfl
  have hneeded : (lengthNeeded (announcedHashes buf * 32)).value = announcedHashes buf * 32 :=
    wrap_of_lt (by omega)
  have hfirst : (moveOffset 84 (varInt buf 84).2).value = 84 + (varInt buf 84).2 :=
    wrap_of_lt (by omega)
  have hsecond : (moveOffset (84 + (varInt buf 84).2) (announcedHashes buf * 32)).value =
      hashesEnd buf := wrap_of_lt (by omega)
  have hthird : (moveOffset (hashesEnd buf) (varInt buf (hashesEnd buf)).2).value =
      flagsStart buf := wrap_of_lt (by omega)
  rw [parseTree]
  simp only [Traced.value_bind, Traced.value_pure, hvar, hcount, hneeded, hfirst, hsecond, hthird,
    hflags]
  rw [value_copyArray (by omega), value_copyArray (by omega)]
  rfl

/-- The fields behind the header, as the parser returns them when nothing
wraps. -/
def parsedRest (buf : List UInt8) : RawMerkleBlock :=
  if 84 ≤ buf.length then parsedTree buf (parseHeader buf).value else (parseHeader buf).value

/-- The block that the parser returns when nothing wraps. -/
def parsedBlock (env : HeadersEnv) (buf : List UInt8) : RawMerkleBlock :=
  { parsedRest buf with blockHash := headerHash env (slice buf 0 80) }

theorem parse_inside_iff :
    Inside buf (parse env buf) ↔ (84 ≤ buf.length → treeEnd buf < 2 ^ 64) := by
  rw [parse]
  by_cases h80 : 80 ≤ buf.length
  · rw [if_pos h80, inside_bind, and_iff_right (parseHeader_inside h80), inside_bind, parseRest]
    have hheader : ∀ block : RawMerkleBlock, Inside buf (readBytes buf 0 80 >>= fun header =>
        pure (some { block with blockHash := headerHash env header })) := fun block =>
      inside_bind.mpr ⟨inside_read (by omega), Traced.all_pure _⟩
    rw [and_iff_left (hheader _)]
    by_cases h84 : 84 ≤ buf.length
    · rw [if_pos h84, parseTree_inside_iff _ h84]
      exact ⟨fun h _ => h, fun h => h h84⟩
    · rw [if_neg h84]
      exact ⟨fun _ h => absurd h h84, fun _ => Traced.all_pure _⟩
  · rw [if_neg h80]
    exact ⟨fun _ h => absurd h (by omega), fun _ => Traced.all_pure _⟩

theorem value_parse
    (h80 : 80 ≤ buf.length)
    (hfits : 84 ≤ buf.length → treeEnd buf < 2 ^ 64) :
    (parse env buf).value = some (parsedBlock env buf) := by
  have hrest : (parseRest buf (parseHeader buf).value).value = parsedRest buf := by
    rw [parseRest, parsedRest]
    by_cases h84 : 84 ≤ buf.length
    · rw [if_pos h84, if_pos h84, value_parseTree _ (hfits h84)]
    · rw [if_neg h84, if_neg h84]
      rfl
  have hread : (readBytes buf 0 80).value = slice buf 0 80 := rfl
  rw [parse, if_pos h80]
  simp only [Traced.value_bind, Traced.value_pure, hrest, hread]
  rfl

theorem value_parse_short
    (h80 : ¬ 80 ≤ buf.length) :
    (parse env buf).value = none := by
  rw [parse, if_neg h80, Traced.value_pure]

end Parse

section Use

variable {H : Type} [DecidableEq H] [Zero H]

/-- A block whose arrays have the numbers of elements that were copied. -/
structure Represents (raw : RawMerkleBlock) (block : BRMerkleBlock UInt256) : Prop where
  blockHash : block.blockHash = raw.blockHash
  merkleRoot : block.merkleRoot = raw.merkleRoot
  timestamp : block.timestamp = raw.timestamp
  target : block.target = raw.target
  totalTx : block.totalTx = raw.totalTx
  hashes : block.hashes.cells = raw.hashes
  hashesCount : block.hashes.count = raw.hashesCount
  flags : block.flags.cells = raw.flags
  flagsLen : block.flags.count = raw.flagsLen

/-- No access of `BRMerkleBlockIsValid` and `BRMerkleBlockTxHashes` is outside
the arrays and the bytes of the target. -/
structure SafelyUsed (combine : H → H → H) (block : BRMerkleBlock H) : Prop where
  isValid_read : ∀ currentTime, block.isValid combine currentTime ≠ .error .invalidRead
  isValid_write : ∀ currentTime, block.isValid combine currentTime ≠ .error .invalidWrite
  txHashes_read : ∀ room, block.txHashes room ≠ .error .invalidRead

end Use

end RawMerkleBlock

namespace BRMerkleBlock

section Faults

variable {H : Type} [DecidableEq H] [Zero H] {combine : H → H → H} {block : BRMerkleBlock H}
  {hs : List H} {fs : List UInt8} {fuel depth : ℕ} {e : BlockFault}

omit [DecidableEq H] [Zero H] in
theorem expands_error
    {flag : Bool}
    (h : block.expands flag depth = .error e) :
    e = .noReturn := by
  rw [expands] at h
  split at h
  · split at h
    · cases h
    · cases h
      rfl
  · cases h

omit [DecidableEq H] [Zero H] in
theorem readFlag_of_visible
    (hfs : block.flags.cells = some fs)
    {s : Cursor}
    (hvis : block.visible s) :
    ∃ flag, block.readFlag s.flagIdx = .ok flag := by
  refine ⟨_, readFlag_eq hfs (i := s.flagIdx) ?_⟩
  have hlt := hvis.1
  rw [LittleEndian.length_bits, block.flags.length_eq fs hfs]
  omega

omit [DecidableEq H] [Zero H] in
/-- With both arrays there, `_BRMerkleBlockTxHashesR` reads inside them. -/
theorem txHashesR_ne_invalidRead
    (hhs : block.hashes.cells = some hs)
    (hfs : block.flags.cells = some fs)
    {cap : ℕ} {s : TxHashesState H}
    (h : block.txHashesR cap fuel depth s = .error e) :
    e ≠ .invalidRead := by
  induction fuel generalizing depth s with
  | zero =>
      cases h
      simp
  | succ fuel ih =>
      rw [txHashesR] at h
      by_cases hvis : block.visible s.cursor
      · obtain ⟨flag, hflag⟩ := readFlag_of_visible hfs hvis
        obtain ⟨hash, hread⟩ := read_of_visible hhs hvis
        rw [if_pos hvis, hflag, Machine.ok_bind] at h
        rcases Machine.bind_eq_error.mp h with h | ⟨expand, -, h⟩
        · rw [expands_error h]
          simp
        · cases expand with
          | false =>
              obtain ⟨s', htake, -⟩ := takeLeaf_collected cap flag (s := s.skipFlag) hread
              rw [TxHashesState.skipFlag] at htake
              simp only [Bool.false_eq_true, if_false, htake, Machine.ok_bind] at h
              cases h
          | true =>
              simp only [if_true] at h
              rcases Machine.bind_eq_error.mp h with h | ⟨r₁, -, h⟩
              · exact ih h
              · exact ih h
      · rw [if_neg hvis] at h
        cases h

omit [DecidableEq H] [Zero H] in
theorem visible_zero_iff :
    block.visible ⟨0, 0⟩ ↔ 0 < block.flags.count ∧ 0 < block.hashes.count := by
  rw [visible, Nat.zero_div]

/-- A `NULL` array of flags is read if hashes and flags are announced. -/
theorem computedRoot_of_flags_none
    (hnone : block.flags.cells = none)
    (hvis : block.visible ⟨0, 0⟩) :
    block.computedRoot combine = .error .invalidRead := by
  have hread : block.readFlag 0 = .error .invalidRead := by
    rw [readFlag, HeapArray.read, hnone]
    rfl
  rw [computedRoot, rootR, if_pos hvis, hread]
  rfl

/-- A first flag under a tree whose height is not found. -/
theorem computedRoot_of_noReturn
    (hvis : block.visible ⟨0, 0⟩)
    (hflag : block.readFlag 0 = .ok true)
    (hge : 2 ^ 31 ≤ block.totalTx.toNat) :
    block.computedRoot combine = .error .noReturn := by
  have hexpand : block.expands true 0 = .error .noReturn := by
    rw [expands, if_pos rfl, ceilLog2_of_ge hge]
    rfl
  rw [computedRoot, rootR, if_pos hvis, hflag, Machine.ok_bind, hexpand]
  rfl

theorem computedRoot_of_not_visible
    (hvis : ¬ block.visible ⟨0, 0⟩) :
    block.computedRoot combine = .ok 0 := by
  rw [computedRoot, rootR_not_visible hvis]
  rfl

/-- A first hash without a flag is the root. -/
theorem computedRoot_of_no_flag
    (hhs : block.hashes.cells = some hs)
    (hvis : block.visible ⟨0, 0⟩)
    (hflag : block.readFlag 0 = .ok false) :
    ∃ root, block.computedRoot combine = .ok root := by
  obtain ⟨hash, hread⟩ := read_of_visible hhs hvis
  exact ⟨hash, by rw [computedRoot, rootR_leaf hvis hflag rfl hread]; rfl⟩

theorem expandTarget_eq_error_iff
    {target : UInt32} :
    expandTarget target = .error .invalidWrite ↔ 31 < targetSize target := by
  have hset : ∀ off x, setLE (List.replicate 32 0) off x = .error .invalidWrite ↔ 28 < off := by
    intro off x
    rw [setLE, List.length_replicate]
    constructor
    · intro h
      by_contra hle
      rw [if_pos (by omega)] at h
      cases h
    · intro h
      rw [if_neg (by omega)]
      rfl
  rw [expandTarget]
  split
  · rw [hset]
    omega
  · rw [hset]
    omega

/-- Behind the root only the size of the target matters. -/
theorem isValid_invalidWrite_iff
    {root : H} {currentTime : UInt32}
    (hroot : block.computedRoot combine = .ok root) :
    block.isValid combine currentTime = .error .invalidWrite ↔
      31 < targetSize block.target := by
  rw [isValid, hroot, Machine.ok_bind, ← expandTarget_eq_error_iff]
  constructor
  · intro h
    rcases Machine.bind_eq_error.mp h with h | ⟨t, -, h⟩
    · exact h
    · cases h
  · intro h
    rw [h]
    rfl

theorem isValid_of_root_error
    {currentTime : UInt32}
    (hroot : block.computedRoot combine = .error e) :
    block.isValid combine currentTime = .error e := by
  rw [isValid, hroot]
  rfl

omit [DecidableEq H] [Zero H] in
theorem txHashes_error
    {room : Option ℕ}
    (h : block.txHashes room = .error e) :
    block.txHashesR (room.getD sizeMax) 32 0 ⟨⟨0, 0⟩, 0, room.map (fun _ => [])⟩ = .error e := by
  rw [txHashes] at h
  rcases Machine.bind_eq_error.mp h with h | ⟨s, -, h⟩
  · exact h
  · cases h

omit [DecidableEq H] [Zero H] in
theorem txHashes_ne_invalidRead
    (hhs : block.hashes.cells = some hs)
    (hfs : block.flags.cells = some fs)
    (room : Option ℕ) :
    block.txHashes room ≠ .error .invalidRead :=
  fun h => txHashesR_ne_invalidRead hhs hfs (txHashes_error h) rfl

omit [DecidableEq H] [Zero H] in
theorem txHashes_of_not_visible
    (hvis : ¬ block.visible ⟨0, 0⟩)
    (room : Option ℕ) :
    block.txHashes room ≠ .error .invalidRead := by
  intro h
  have herr := txHashes_error h
  rw [txHashesR_not_visible hvis] at herr
  cases herr

end Faults

end BRMerkleBlock

namespace RawMerkleBlock

open BRMerkleBlock

section Safety

variable (buf : List UInt8)

/-- The target in the header. -/
def announcedTarget : UInt32 :=
  UInt32.ofNat (LittleEndian.value (slice buf 72 4))

/-- The number of transactions behind the header. -/
def announcedTx : UInt32 :=
  UInt32.ofNat (LittleEndian.value (slice buf 80 4))

/-- The flags are in the buffer, or they are not looked at. -/
def FlagsPresent : Prop :=
  treeEnd buf ≤ buf.length ∨ announcedFlags buf = 0 ∨ announcedHashes buf = 0

/-- The walk over the tree does not end, so that the target is not reached. -/
structure Endless : Prop where
  tree : treeEnd buf ≤ buf.length
  hashes : 0 < announcedHashes buf
  flags : 0 < announcedFlags buf
  flag : (buf.getD (flagsStart buf) 0).toNat.testBit 0 = true
  totalTx : 2 ^ 31 ≤ (announcedTx buf).toNat

/-- No length wraps, the flags are there and the target has at most 32 bytes. -/
structure Harmless : Prop where
  tree : 84 ≤ buf.length → treeEnd buf < 2 ^ 64 ∧ FlagsPresent buf
  target : targetSize (announcedTarget buf) ≤ 31 ∨ Endless buf

/-- `BRSHA256_2` of two hashes. -/
def combineHashes (env : HeadersEnv) (a b : UInt256) : UInt256 :=
  env.sha256d (hashBytes a ++ hashBytes b)

/-- The parser reads inside the buffer and computes lengths that do not wrap,
and the block it returns is used within its arrays. -/
def Safe (env : HeadersEnv) : Prop :=
  Inside buf (parse env buf) ∧ ∀ raw, (parse env buf).value = some raw →
    ∃ block, Represents raw block ∧ SafelyUsed (combineHashes env) block

variable {buf : List UInt8} {env : HeadersEnv}

theorem length_hashesOf
    (bytes : List UInt8) :
    (hashesOf bytes).length = bytes.length / 32 := by
  rw [hashesOf, List.length_map, List.length_range]

theorem length_available
    {off n : ℕ} {l : List UInt8}
    (h : available buf off n = some l) :
    l.length = n := by
  rw [available] at h
  split at h
  · cases h
    exact Segment.length_slice (by assumption)
  · cases h

theorem parsedBlock_tree
    (h84 : 84 ≤ buf.length) :
    parsedBlock env buf = { parsedTree buf (parseHeader buf).value with
      blockHash := headerHash env (slice buf 0 80) } := by
  rw [parsedBlock, parsedRest, if_pos h84]

theorem parsedBlock_header
    (h84 : ¬ 84 ≤ buf.length) :
    parsedBlock env buf = { (parseHeader buf).value with
      blockHash := headerHash env (slice buf 0 80) } := by
  rw [parsedBlock, parsedRest, if_neg h84]

theorem exists_represents
    {raw : RawMerkleBlock}
    (hhashes : raw.hashesCount < 2 ^ 64)
    (hhashesLen : ∀ l, raw.hashes = some l → l.length = raw.hashesCount)
    (hflags : raw.flagsLen < 2 ^ 64)
    (hflagsLen : ∀ l, raw.flags = some l → l.length = raw.flagsLen) :
    ∃ block, Represents raw block :=
  ⟨{ blockHash := raw.blockHash
     merkleRoot := raw.merkleRoot
     timestamp := raw.timestamp
     target := raw.target
     totalTx := raw.totalTx
     hashes := ⟨raw.hashes, raw.hashesCount, hhashes, hhashesLen⟩
     flags := ⟨raw.flags, raw.flagsLen, hflags, hflagsLen⟩ },
    ⟨rfl, rfl, rfl, rfl, rfl, rfl, rfl, rfl, rfl⟩⟩

/-- The arrays of a block with a tree. -/
theorem parsedBlock_arrays
    (env : HeadersEnv)
    (h84 : 84 ≤ buf.length) :
    (parsedBlock env buf).hashesCount = announcedHashes buf ∧
      (parsedBlock env buf).hashes =
        (available buf (84 + (varInt buf 84).2) (announcedHashes buf * 32)).map hashesOf ∧
      (parsedBlock env buf).flagsLen = announcedFlags buf ∧
      (parsedBlock env buf).flags = available buf (flagsStart buf) (announcedFlags buf) ∧
      (parsedBlock env buf).totalTx = announcedTx buf := by
  rw [parsedBlock_tree h84, parsedTree, announcedTx]
  refine ⟨?_, ?_, ?_, ?_, ?_⟩ <;> dsimp only

/-- A header has no arrays. -/
theorem parsedBlock_no_arrays
    (env : HeadersEnv)
    (h84 : ¬ 84 ≤ buf.length) :
    (parsedBlock env buf).hashesCount = 0 ∧ (parsedBlock env buf).hashes = none ∧
      (parsedBlock env buf).flagsLen = 0 ∧ (parsedBlock env buf).flags = none := by
  rw [parsedBlock_header h84, parseHeader]
  exact ⟨rfl, rfl, rfl, rfl⟩

theorem parsedBlock_target :
    (parsedBlock env buf).target = announcedTarget buf := by
  by_cases h84 : 84 ≤ buf.length
  · rw [parsedBlock_tree h84, parsedTree, announcedTarget, parseHeader]
    rfl
  · rw [parsedBlock_header h84, announcedTarget, parseHeader]
    rfl

/-- The block returned has as many elements as are announced, or `NULL`. -/
theorem exists_represents_parsedBlock
    (env : HeadersEnv)
    (hfits : 84 ≤ buf.length → treeEnd buf < 2 ^ 64) :
    ∃ block, Represents (parsedBlock env buf) block := by
  by_cases h84 : 84 ≤ buf.length
  · obtain ⟨hhc, hhs, hfc, hfs, -⟩ := parsedBlock_arrays env h84
    have hend := hfits h84
    have hlt := hashesEnd_lt_flagsStart buf
    have hle := flagsStart_le_treeEnd buf
    have htree : treeEnd buf = flagsStart buf + announcedFlags buf := rfl
    have hhashes : hashesEnd buf = 84 + (varInt buf 84).2 + announcedHashes buf * 32 := rfl
    refine exists_represents (by omega) (fun l hl => ?_) (by omega) (fun l hl => ?_)
    · rw [hhs] at hl
      obtain ⟨bytes, hbytes, rfl⟩ := Option.map_eq_some_iff.mp hl
      rw [hhc, length_hashesOf, length_available hbytes, Nat.mul_div_cancel _ (by omega)]
    · rw [hfs] at hl
      rw [hfc, length_available hl]
  · obtain ⟨hhc, hhs, hfc, hfs⟩ := parsedBlock_no_arrays env h84
    refine exists_represents (by omega) (fun l hl => ?_) (by omega) (fun l hl => ?_)
    · rw [hhs] at hl
      cases hl
    · rw [hfs] at hl
      cases hl

/-- What a walk that starts finds in the buffer. -/
structure Started (buf : List UInt8) (block : BRMerkleBlock UInt256) : Prop where
  tree : treeEnd buf ≤ buf.length
  hashes : 0 < announcedHashes buf
  flags : 0 < announcedFlags buf
  hashes_isSome : ∃ hs, block.hashes.cells = some hs
  flags_isSome : ∃ fs, block.flags.cells = some fs
  readFlag : block.readFlag 0 = .ok ((buf.getD (flagsStart buf) 0).toNat.testBit 0)
  totalTx : block.totalTx = announcedTx buf

theorem available_of_le
    {off n : ℕ}
    (h : off + n ≤ buf.length) :
    available buf off n = some (slice buf off n) :=
  if_pos h

theorem readFlag_zero
    {block : BRMerkleBlock UInt256} {off n : ℕ}
    (hfs : block.flags.cells = some (slice buf off n))
    (hn : 0 < n)
    (hle : off + n ≤ buf.length) :
    block.readFlag 0 = .ok ((buf.getD off 0).toNat.testBit 0) := by
  have hget : (slice buf off n)[0]? = some (buf.getD off 0) := by
    rw [slice, List.getElem?_take_of_lt hn, List.getElem?_drop, List.getD_eq_getElem?_getD,
      Nat.add_zero, List.getElem?_eq_getElem (by omega)]
    rfl
  have hread : block.flags.read 0 = .ok (buf.getD off 0) := by
    rw [HeapArray.read, hfs, Option.bind_some, hget]
    rfl
  rw [readFlag, hread, Machine.ok_bind]
  refine congrArg Except.ok (Bool.eq_iff_iff.mpr ?_)
  rw [decide_eq_true_iff]
  exact flag_test (buf.getD off 0) (j := 0) (by omega)

section Outcome

variable {block : BRMerkleBlock UInt256}
  (hrep : Represents (parsedBlock env buf) block)
  (htree : 84 ≤ buf.length → treeEnd buf < 2 ^ 64 ∧ FlagsPresent buf)

include hrep

/-- Where hashes and flags are announced, there are bytes behind the header. -/
theorem length_of_visible
    (hvis : block.visible ⟨0, 0⟩) :
    84 ≤ buf.length ∧ 0 < announcedFlags buf ∧ 0 < announcedHashes buf := by
  rw [visible_zero_iff, hrep.hashesCount, hrep.flagsLen] at hvis
  by_cases h84 : 84 ≤ buf.length
  · obtain ⟨hhc, -, hfc, -, -⟩ := parsedBlock_arrays env h84
    rw [hhc, hfc] at hvis
    exact ⟨h84, hvis⟩
  · obtain ⟨hhc, -⟩ := parsedBlock_no_arrays env h84
    rw [hhc] at hvis
    exact absurd hvis.2 (lt_irrefl 0)

include htree

theorem started_of_visible
    (hvis : block.visible ⟨0, 0⟩) :
    Started buf block := by
  obtain ⟨h84, hflags, hhashes⟩ := length_of_visible hrep hvis
  obtain ⟨-, hhs, -, hfs, htx⟩ := parsedBlock_arrays env h84
  have hpresent : treeEnd buf ≤ buf.length := by
    rcases (htree h84).2 with h | h | h <;> omega
  have hlt := hashesEnd_lt_flagsStart buf
  have hle := flagsStart_le_treeEnd buf
  have hend : treeEnd buf = flagsStart buf + announcedFlags buf := rfl
  have hhend : hashesEnd buf = 84 + (varInt buf 84).2 + announcedHashes buf * 32 := rfl
  have hhs' := hrep.hashes
  have hfs' := hrep.flags
  rw [hhs, available_of_le (by omega)] at hhs'
  rw [hfs, available_of_le (by omega)] at hfs'
  exact ⟨hpresent, hhashes, hflags, ⟨_, hhs'⟩, ⟨_, hfs'⟩, readFlag_zero hfs' hflags (by omega),
    hrep.totalTx.trans htx⟩

/-- The walk over the tree returns, or it is endless. -/
theorem computedRoot_cases :
    (Endless buf ∧ block.computedRoot (combineHashes env) = .error .noReturn) ∨
      ∃ root, block.computedRoot (combineHashes env) = .ok root := by
  by_cases hvis : block.visible ⟨0, 0⟩
  · have hstart := started_of_visible hrep htree hvis
    obtain ⟨hs, hhs⟩ := hstart.hashes_isSome
    obtain ⟨fs, hfs⟩ := hstart.flags_isSome
    by_cases hlt : block.totalTx.toNat < 2 ^ 31
    · exact Or.inr (walkBounded_of_lt (combineHashes env) hhs hfs hlt).computedRoot
    have hflag := hstart.readFlag
    cases hbit : (buf.getD (flagsStart buf) 0).toNat.testBit 0 with
    | false =>
        rw [hbit] at hflag
        exact Or.inr (computedRoot_of_no_flag hhs hvis hflag)
    | true =>
        rw [hbit] at hflag
        refine Or.inl ⟨⟨hstart.tree, hstart.hashes, hstart.flags, hbit, ?_⟩,
          computedRoot_of_noReturn hvis hflag (not_lt.mp hlt)⟩
        rw [← hstart.totalTx]
        exact not_lt.mp hlt
  · exact Or.inr ⟨0, computedRoot_of_not_visible hvis⟩

theorem computedRoot_of_endless
    (hend : Endless buf) :
    block.computedRoot (combineHashes env) = .error .noReturn := by
  have hlt := hashesEnd_lt_flagsStart buf
  have hle := flagsStart_le_treeEnd buf
  have hhend : hashesEnd buf = 84 + (varInt buf 84).2 + announcedHashes buf * 32 := rfl
  have htreeEnd := hend.tree
  obtain ⟨hhc, -, hfc, -, -⟩ := parsedBlock_arrays env (show 84 ≤ buf.length by omega)
  have hvis : block.visible ⟨0, 0⟩ := by
    rw [visible_zero_iff, hrep.hashesCount, hrep.flagsLen, hhc, hfc]
    exact ⟨hend.flags, hend.hashes⟩
  have hstart := started_of_visible hrep htree hvis
  have hflag := hstart.readFlag
  rw [hend.flag] at hflag
  refine computedRoot_of_noReturn hvis hflag ?_
  rw [hstart.totalTx]
  exact hend.totalTx

theorem safelyUsed_of_harmless
    (htarget : targetSize (announcedTarget buf) ≤ 31 ∨ Endless buf) :
    SafelyUsed (combineHashes env) block := by
  have htargetEq : block.target = announcedTarget buf := hrep.target.trans parsedBlock_target
  refine ⟨fun currentTime h => ?_, fun currentTime h => ?_, fun room => ?_⟩
  · rcases computedRoot_cases hrep htree with ⟨-, hroot⟩ | ⟨root, hroot⟩
    · rw [isValid_of_root_error hroot] at h
      cases h
    · exact BlockFault.noConfusion (isValid_error hroot h)
  · rcases htarget with hsize | hend
    · rcases computedRoot_cases hrep htree with ⟨-, hroot⟩ | ⟨root, hroot⟩
      · rw [isValid_of_root_error hroot] at h
        cases h
      · rw [isValid_invalidWrite_iff hroot, htargetEq] at h
        omega
    · rw [isValid_of_root_error (computedRoot_of_endless hrep htree hend)] at h
      cases h
  · by_cases hvis : block.visible ⟨0, 0⟩
    · have hstart := started_of_visible hrep htree hvis
      obtain ⟨hs, hhs⟩ := hstart.hashes_isSome
      obtain ⟨fs, hfs⟩ := hstart.flags_isSome
      exact txHashes_ne_invalidRead hhs hfs room
    · exact txHashes_of_not_visible hvis room

end Outcome

/--
**Merkle block parser and validator safety.**  Every access is inside its buffer
and every length is exact, if and only if the buffer is too short for a header,
or no length in it wraps, the flags are not cut off behind hashes that are
there, and the target has a size of at most 31 bytes.
-/
theorem safe_iff
    (env : HeadersEnv) (buf : List UInt8) :
    Safe buf env ↔ (80 ≤ buf.length → Harmless buf) := by
  constructor
  · rintro ⟨hinside, huse⟩ h80
    have hfits := parse_inside_iff.mp hinside
    obtain ⟨block, hrep, hsafe⟩ := huse _ (value_parse h80 hfits)
    have htree : 84 ≤ buf.length → treeEnd buf < 2 ^ 64 ∧ FlagsPresent buf := by
      intro h84
      refine ⟨hfits h84, ?_⟩
      by_contra hcut
      rw [FlagsPresent, not_or, not_or] at hcut
      obtain ⟨hend, hflags, hhashes⟩ := hcut
      obtain ⟨hhc, -, hfc, hfs, -⟩ := parsedBlock_arrays env h84
      have hnone : block.flags.cells = none := by
        rw [hrep.flags, hfs]
        exact if_neg hend
      have hvis : block.visible ⟨0, 0⟩ := by
        rw [visible_zero_iff, hrep.hashesCount, hrep.flagsLen, hhc, hfc]
        omega
      exact hsafe.isValid_read 0 (isValid_of_root_error (computedRoot_of_flags_none hnone hvis))
    refine ⟨htree, ?_⟩
    rcases computedRoot_cases hrep htree with ⟨hend, -⟩ | ⟨root, hroot⟩
    · exact Or.inr hend
    · refine Or.inl (not_lt.mp (fun hsize => hsafe.isValid_write 0 ?_))
      rw [isValid_invalidWrite_iff hroot, hrep.target.trans parsedBlock_target]
      exact hsize
  · intro hharmless
    by_cases h80 : 80 ≤ buf.length
    · obtain ⟨htree, htarget⟩ := hharmless h80
      have hfits : 84 ≤ buf.length → treeEnd buf < 2 ^ 64 := fun h84 => (htree h84).1
      refine ⟨parse_inside_iff.mpr hfits, fun raw hraw => ?_⟩
      rw [value_parse h80 hfits] at hraw
      cases hraw
      obtain ⟨block, hrep⟩ := exists_represents_parsedBlock env hfits
      exact ⟨block, hrep, safelyUsed_of_harmless hrep htree htarget⟩
    · refine ⟨parse_inside_iff.mpr (fun h84 => absurd h84 (by omega)), fun raw hraw => ?_⟩
      rw [value_parse_short h80] at hraw
      cases hraw

end Safety

section Sample

/-- A bare header with a target of 255 bytes. -/
def hugeTargetHeader : List UInt8 :=
  List.replicate 75 0 ++ [0xff] ++ List.replicate 4 0

/-- The target of a header is written behind its 32 bytes. -/
theorem not_safe_hugeTargetHeader :
    ¬ ∃ env, Safe hugeTargetHeader env := by
  rintro ⟨env, hsafe⟩
  have h := (safe_iff env hugeTargetHeader).mp hsafe
  rcases (h (by decide)).target with hsize | hend
  · exact absurd hsize (by decide)
  · exact absurd hend.tree (by decide)

end Sample

end RawMerkleBlock

end BreadwalletCore
