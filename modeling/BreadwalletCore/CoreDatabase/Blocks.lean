import Mathlib.Data.List.Forall2
import BreadwalletCore.ChainBlock
import BreadwalletCore.CoreDatabase

/-!
# The block database

`saveBlocks` and `loadBlocks` of `CoreDatabase.swift` on the table
`ZBRMERKLEBLOCKENTITY`, with `BRMerkleBlockSetTxHashes`.

* Numbers are stored as `Int32` with the same bits, the timestamp counted from
  the year 2001.
* The blobs of `flags` and `hashes` are copied out of an array that holds the
  pointer, so they start with its bytes and go on with the memory behind it.
* All statements succeed, but an `insert` fails where its primary key is taken.
-/

namespace BreadwalletCore

open LittleEndian
open List (forall₂_and_left)

/-- A block object.  `hashes` and `flags` are what the pointers point to. -/
structure BRBlockRef where
  height : UInt32
  nonce : UInt32
  target : UInt32
  totalTx : UInt32
  version : UInt32
  timestamp : UInt32
  blockHash : UInt256
  merkleRoot : UInt256
  prevBlock : UInt256
  hashes : List UInt256
  hashesCount : ℕ
  flags : List UInt8
  flagsLen : ℕ
deriving DecidableEq

namespace BRBlockRef

/-- `BRMerkleBlockNew`. -/
def merkleBlockNew : BRBlockRef where
  height := UInt32.ofNat blockUnknownHeight
  nonce := 0
  target := 0
  totalTx := 0
  version := 0
  timestamp := 0
  blockHash := 0
  merkleRoot := 0
  prevBlock := 0
  hashes := []
  hashesCount := 0
  flags := []
  flagsLen := 0

/-- `BRMerkleBlockSetTxHashes`, which copies both arrays. -/
def setTxHashes (b : BRBlockRef) (hashes : List UInt256) (flags : List UInt8) : BRBlockRef :=
  { b with hashes := hashes, flags := flags }

end BRBlockRef

/-- `Int32.subtractingReportingOverflow`. -/
def subtractingReportingOverflow (a b : Int32) : Int32 × Bool :=
  (a - b, decide (a.toInt - b.toInt < -2 ^ 31 ∨ 2 ^ 31 ≤ a.toInt - b.toInt))

/-- `UInt32.addingReportingOverflow`. -/
def addingReportingOverflow (a b : UInt32) : UInt32 × Bool :=
  (a + b, decide (2 ^ 32 ≤ a.toNat + b.toNat))

/-- A row. -/
structure MerkleBlockRow where
  pk : ℕ
  height : Int32
  nonce : Int32
  target : Int32
  totalTx : Int32
  version : Int32
  timestamp : Int32
  blockHash : List UInt8
  flags : List UInt8
  hashes : List UInt8
  merkleRoot : List UInt8
  prevBlock : List UInt8
deriving DecidableEq

/-- The table, in the order of the primary keys, and the largest one given out. -/
structure BlockTable where
  rows : List MerkleBlockRow := []
  zMax : ℕ := 0
deriving DecidableEq

/-- How `saveBlocks` ends. -/
inductive SaveBlocksOutcome where
  | committed (table : BlockTable)
  | rolledBack
  | trapped
deriving DecidableEq

namespace BlockTable

section Save

variable (flagsAt hashesAt : ℕ → ℕ → UInt8)

/-- The columns of a block.  `flagsAt pk` and `hashesAt pk` are the bytes found
from the arrays `[b.pointee.flags]` and `[b.pointee.hashes]` on. -/
def rowOf (pk : ℕ) (timestamp : Int32) (b : BRBlockRef) : MerkleBlockRow where
  pk := pk
  height := b.height.toInt32
  nonce := b.nonce.toInt32
  target := b.target.toInt32
  totalTx := b.totalTx.toInt32
  version := b.version.toInt32
  timestamp := timestamp
  blockHash := hashBytes b.blockHash
  flags := (List.range b.flagsLen).map (flagsAt pk)
  hashes := (List.range (32 * b.hashesCount)).map (hashesAt pk)
  merkleRoot := hashBytes b.merkleRoot
  prevBlock := hashBytes b.prevBlock

/-- The loop of `saveBlocks`. -/
def saveLoop : ℕ → List MerkleBlockRow → List (Option BRBlockRef) → SaveBlocksOutcome
  | pk, rows, [] => .committed { rows := rows, zMax := pk }
  | _, _, none :: _ => .rolledBack
  | pk, rows, some b :: blocks =>
      let timestampResult :=
        subtractingReportingOverflow b.timestamp.toInt32 nsTimeIntervalSince1970.toInt32
      if timestampResult.2 then saveLoop pk rows blocks
      else if b.height.toInt32 = Int32.ofNat blockUnknownHeight then saveLoop pk rows blocks
      else if pk + 1 < 2 ^ 31 ∧ b.flagsLen < 2 ^ 31 ∧ 32 * b.hashesCount < 2 ^ 31 then
        if rows.any (fun row => row.pk = pk + 1) then .rolledBack
        else
          saveLoop (pk + 1) (rows ++ [rowOf flagsAt hashesAt (pk + 1) timestampResult.1 b]) blocks
      else .trapped

def saveBlocks (table : BlockTable) (replace : Bool) (blocks : List (Option BRBlockRef)) :
    SaveBlocksOutcome :=
  saveLoop flagsAt hashesAt (if replace then 0 else table.zMax)
    (if replace then [] else table.rows) blocks

end Save

/-- A `UInt256` at the start of a blob. -/
def readHash (blob : List UInt8) : UInt256 :=
  BitVec.ofNat 256 (value (blob.take 32))

/-- The round of the loop of `loadBlocks`. -/
def loadRow (row : MerkleBlockRow) : Option BRBlockRef :=
  let height := row.height.toUInt32
  if height = UInt32.ofNat blockUnknownHeight then none
  else
    let result := addingReportingOverflow row.timestamp.toUInt32 nsTimeIntervalSince1970
    if result.2 then none
    else
      let b : BRBlockRef :=
        { BRBlockRef.merkleBlockNew with
          height := height
          nonce := row.nonce.toUInt32
          target := row.target.toUInt32
          totalTx := row.totalTx.toUInt32
          version := row.version.toUInt32
          timestamp := result.1
          blockHash := readHash row.blockHash }
      let hashes := (List.range (row.hashes.length / 32)).map
        (fun i => readHash (row.hashes.drop (32 * i)))
      some
        { b.setTxHashes hashes row.flags with
          merkleRoot := readHash row.merkleRoot
          prevBlock := readHash row.prevBlock }

def loadBlocks (table : BlockTable) : List BRBlockRef :=
  table.rows.filterMap loadRow

end BlockTable

/-- The same block, its arrays as long as it says. -/
structure SameBlock (b b' : BRBlockRef) : Prop where
  height : b'.height = b.height
  nonce : b'.nonce = b.nonce
  target : b'.target = b.target
  totalTx : b'.totalTx = b.totalTx
  version : b'.version = b.version
  timestamp : b'.timestamp = b.timestamp
  blockHash : b'.blockHash = b.blockHash
  merkleRoot : b'.merkleRoot = b.merkleRoot
  prevBlock : b'.prevBlock = b.prevBlock
  hashesCount : b'.hashesCount = b.hashesCount
  hashes : b'.hashes.take b'.hashesCount = b.hashes.take b.hashesCount
  flagsLen : b'.flagsLen = b.flagsLen
  flags : b'.flags.take b'.flagsLen = b.flags.take b.flagsLen

namespace BlockTable

/-- What is saved is loaded again. -/
def RoundTrips (flagsAt hashesAt : ℕ → ℕ → UInt8) (table : BlockTable)
    (blocks : List BRBlockRef) : Prop :=
  ∃ table', table.saveBlocks flagsAt hashesAt true (blocks.map some) = .committed table' ∧
    List.Forall₂ SameBlock blocks table'.loadBlocks

end BlockTable

/-- The timestamps whose distance to the year 2001 is no `Int32`. -/
def Overflowing (timestamp : UInt32) : Prop :=
  2 ^ 31 ≤ timestamp.toNat ∧ timestamp.toNat < 2 ^ 31 + nsTimeIntervalSince1970.toNat

/-! ## One block -/

section Block

theorem toInt_toInt32
    (x : UInt32) :
    x.toInt32.toInt = if x.toNat < 2 ^ 31 then (x.toNat : ℤ) else (x.toNat : ℤ) - 2 ^ 32 := by
  have hcond : x.toInt32.toInt = _ := BitVec.toInt_eq_toNat_cond x.toBitVec
  rw [hcond, UInt32.toNat_toBitVec]
  refine if_congr ?_ rfl ?_
  · omega
  · norm_num

theorem overflowing_iff
    {timestamp : UInt32}
    (h : nsTimeIntervalSince1970 ≤ timestamp) :
    (subtractingReportingOverflow timestamp.toInt32 nsTimeIntervalSince1970.toInt32).2 = true ↔
      Overflowing timestamp := by
  have hepoch : nsTimeIntervalSince1970.toNat = 978307200 := by decide
  have hle : nsTimeIntervalSince1970.toNat ≤ timestamp.toNat := h
  have hlt := timestamp.toNat_lt
  rw [subtractingReportingOverflow, Overflowing, decide_eq_true_eq, toInt_toInt32, toInt_toInt32,
    hepoch]
  rw [hepoch] at hle
  split_ifs <;> omega

/-- What is stored of a timestamp is read back. -/
theorem timestamp_back
    {timestamp : UInt32}
    (h : nsTimeIntervalSince1970 ≤ timestamp) :
    addingReportingOverflow
      (subtractingReportingOverflow timestamp.toInt32 nsTimeIntervalSince1970.toInt32).1.toUInt32
        nsTimeIntervalSince1970 = (timestamp, false) := by
  have hle : nsTimeIntervalSince1970.toNat ≤ timestamp.toNat := h
  have hlt := timestamp.toNat_lt
  have hexact : ¬ 2 ^ 32 ≤
      timestamp.toNat - nsTimeIntervalSince1970.toNat + nsTimeIntervalSince1970.toNat := by
    omega
  rw [subtractingReportingOverflow, addingReportingOverflow, Int32.toUInt32_sub,
    UInt32.toUInt32_toInt32, UInt32.toUInt32_toInt32, UInt32.sub_add_cancel,
    UInt32.toNat_sub_of_le _ _ h, decide_eq_false hexact]

theorem readHash_hashBytes
    (h : UInt256) :
    BlockTable.readHash (hashBytes h) = h := by
  have hlen : (hashBytes h).length = 32 := length_hashBytes h
  rw [BlockTable.readHash, List.take_of_length_le hlen.le, hashBytes,
    value_bytes (lt_of_lt_of_eq h.isLt (by norm_num)), BitVec.ofNat_toNat, BitVec.setWidth_eq]

end Block

namespace BlockTable

variable {flagsAt hashesAt : ℕ → ℕ → UInt8}

/-- The row of a block. -/
def storedRow (flagsAt hashesAt : ℕ → ℕ → UInt8) (pk : ℕ) (b : BRBlockRef) : MerkleBlockRow :=
  rowOf flagsAt hashesAt pk
    (subtractingReportingOverflow b.timestamp.toInt32 nsTimeIntervalSince1970.toInt32).1 b

/-- A stored block is loaded, without its arrays' lengths. -/
theorem loadRow_storedRow
    (pk : ℕ) {b : BRBlockRef}
    (hheight : b.height.toInt32 ≠ Int32.ofNat blockUnknownHeight)
    (htime : nsTimeIntervalSince1970 ≤ b.timestamp) :
    ∃ hashes flags, loadRow (storedRow flagsAt hashesAt pk b) =
      some { b with hashes := hashes, hashesCount := 0, flags := flags, flagsLen := 0 } := by
  have hknown : b.height ≠ UInt32.ofNat blockUnknownHeight := fun heq => hheight (by rw [heq]; rfl)
  refine ⟨(List.range ((storedRow flagsAt hashesAt pk b).hashes.length / 32)).map
      (fun i => readHash ((storedRow flagsAt hashesAt pk b).hashes.drop (32 * i))),
    (storedRow flagsAt hashesAt pk b).flags, ?_⟩
  simp only [loadRow, storedRow, rowOf, UInt32.toUInt32_toInt32, if_neg hknown,
    timestamp_back htime, Bool.false_eq_true, if_false, readHash_hashBytes]
  rfl

/-- A block that is skipped. -/
def skipped (b : BRBlockRef) : Bool :=
  (subtractingReportingOverflow b.timestamp.toInt32 nsTimeIntervalSince1970.toInt32).2 ||
    decide (b.height.toInt32 = Int32.ofNat blockUnknownHeight)

theorem skipped_iff
    {b : BRBlockRef}
    (hheight : b.height.toInt32 ≠ Int32.ofNat blockUnknownHeight)
    (htime : nsTimeIntervalSince1970 ≤ b.timestamp) :
    skipped b = true ↔ Overflowing b.timestamp := by
  rw [skipped, Bool.or_eq_true, overflowing_iff htime, decide_eq_true_eq]
  exact or_iff_left hheight

/-- One round of the loop. -/
theorem saveLoop_cons
    {pk : ℕ} {rows : List MerkleBlockRow} {b : BRBlockRef} {blocks : List (Option BRBlockRef)} :
    saveLoop flagsAt hashesAt pk rows (some b :: blocks) =
      if skipped b then saveLoop flagsAt hashesAt pk rows blocks
      else if pk + 1 < 2 ^ 31 ∧ b.flagsLen < 2 ^ 31 ∧ 32 * b.hashesCount < 2 ^ 31 then
        if rows.any (fun row => row.pk = pk + 1) then .rolledBack
        else
          saveLoop flagsAt hashesAt (pk + 1)
            (rows ++ [storedRow flagsAt hashesAt (pk + 1) b]) blocks
      else .trapped := by
  rw [saveLoop, skipped]
  cases (subtractingReportingOverflow b.timestamp.toInt32 nsTimeIntervalSince1970.toInt32).2
  · by_cases hheight : b.height.toInt32 = Int32.ofNat blockUnknownHeight
    · simp [hheight]
    · simp only [hheight, decide_false, Bool.or_self, Bool.false_eq_true, if_false]
      rfl
  · simp

/-- What the loop appends. -/
theorem saveLoop_committed
    {pk : ℕ} {rows : List MerkleBlockRow} {blocks : List BRBlockRef} {table' : BlockTable}
    (h : saveLoop flagsAt hashesAt pk rows (blocks.map some) = .committed table') :
    ∃ new, table'.rows = rows ++ new ∧ (new = [] ∨ pk + new.length < 2 ^ 31) ∧
      List.Forall₂ (fun b row => ∃ pk, row = storedRow flagsAt hashesAt pk b)
        (blocks.filter (fun b => ¬ skipped b)) new := by
  induction blocks generalizing pk rows with
  | nil =>
      rw [List.map_nil, saveLoop] at h
      cases h
      exact ⟨[], (List.append_nil rows).symm, .inl rfl, .nil⟩
  | cons b blocks ih =>
      rw [List.map_cons, saveLoop_cons] at h
      by_cases hskip : skipped b = true
      · rw [if_pos hskip] at h
        rw [List.filter_cons_of_neg (by simp [hskip])]
        exact ih h
      · rw [if_neg hskip] at h
        split at h
        · rename_i hroom
          split at h
          · cases h
          · obtain ⟨new, hrows, hnew, hall⟩ := ih h
            refine ⟨storedRow flagsAt hashesAt (pk + 1) b :: new, ?_, .inr ?_, ?_⟩
            · rw [hrows, List.append_assoc]
              rfl
            · rw [List.length_cons]
              rcases hnew with rfl | hnew
              · exact hroom.1
              · omega
            · rw [List.filter_cons_of_pos (by simpa using hskip)]
              exact .cons ⟨pk + 1, rfl⟩ hall
        · cases h

/-- The loop goes through if nothing is too large. -/
theorem saveLoop_returns
    {pk : ℕ} {rows : List MerkleBlockRow} {blocks : List BRBlockRef}
    (hrows : ∀ row ∈ rows, row.pk ≤ pk)
    (hroom : pk + blocks.length < 2 ^ 31)
    (hsmall : ∀ b ∈ blocks, b.flagsLen < 2 ^ 31 ∧ 32 * b.hashesCount < 2 ^ 31) :
    ∃ table', saveLoop flagsAt hashesAt pk rows (blocks.map some) = .committed table' := by
  induction blocks generalizing pk rows with
  | nil =>
      exact ⟨_, rfl⟩
  | cons b blocks ih =>
      have hrest := fun b' hb' => hsmall b' (List.mem_cons_of_mem b hb')
      rw [List.length_cons] at hroom
      rw [List.map_cons, saveLoop_cons]
      by_cases hskip : skipped b = true
      · rw [if_pos hskip]
        exact ih hrows (by omega) hrest
      · have hfree : ¬ rows.any (fun row => row.pk = pk + 1) = true := by
          intro hany
          obtain ⟨row, hrow, heq⟩ := List.any_eq_true.mp hany
          have hle := hrows row hrow
          have hpk : row.pk = pk + 1 := by simpa using heq
          omega
        rw [if_neg hskip, if_pos ⟨by omega, hsmall b List.mem_cons_self⟩, if_neg hfree]
        refine ih (fun row hrow => ?_) (by omega) hrest
        rcases List.mem_append.mp hrow with hold | hnew
        · exact (hrows row hold).trans (Nat.le_succ pk)
        · rw [List.mem_singleton.mp hnew]
          exact le_rfl

/-- What is loaded of stored rows. -/
theorem loadBlocks_stored
    {blocks : List BRBlockRef} {rows : List MerkleBlockRow}
    (hblocks : ∀ b ∈ blocks, b.height.toInt32 ≠ Int32.ofNat blockUnknownHeight ∧
      nsTimeIntervalSince1970 ≤ b.timestamp)
    (h : List.Forall₂ (fun b row => ∃ pk, row = storedRow flagsAt hashesAt pk b) blocks rows) :
    List.Forall₂ (fun b b' => ∃ hashes flags,
        b' = { b with hashes := hashes, hashesCount := 0, flags := flags, flagsLen := 0 })
      blocks (rows.filterMap loadRow) := by
  induction h with
  | nil =>
      exact .nil
  | cons hrow hrest ih =>
      obtain ⟨pk, rfl⟩ := hrow
      obtain ⟨hheight, htime⟩ := hblocks _ List.mem_cons_self
      obtain ⟨hashes, flags, hload⟩ := loadRow_storedRow pk hheight htime
      rw [List.filterMap_cons_some hload]
      exact .cons ⟨hashes, flags, rfl⟩ (ih (fun b hb => hblocks b (List.mem_cons_of_mem _ hb)))

/-- **Block database round trip.**  Blocks are loaded as they were saved exactly
if there are fewer than `2 ^ 31` of them, none has hashes or flags and no
timestamp is in the 978307200 seconds from `2 ^ 31` on. -/
theorem roundTrips_iff
    (flagsAt hashesAt : ℕ → ℕ → UInt8) (table : BlockTable) {blocks : List BRBlockRef}
    (hblocks : ∀ b ∈ blocks, b.height.toInt32 ≠ Int32.ofNat blockUnknownHeight ∧
      nsTimeIntervalSince1970 ≤ b.timestamp) :
    RoundTrips flagsAt hashesAt table blocks ↔
      blocks.length < 2 ^ 31 ∧
        ∀ b ∈ blocks, b.hashesCount = 0 ∧ b.flagsLen = 0 ∧ ¬ Overflowing b.timestamp := by
  constructor
  · rintro ⟨table', hsave, hsame⟩
    rw [saveBlocks, if_pos rfl, if_pos rfl] at hsave
    obtain ⟨new, hrows, hnew, hall⟩ := saveLoop_committed hsave
    have hloaded := loadBlocks_stored
      (fun b hb => hblocks b (List.mem_of_mem_filter hb)) hall
    rw [List.nil_append] at hrows
    rw [loadBlocks, hrows] at hsame
    -- a skipped block would be missing
    have hkept : blocks.filter (fun b => ¬ skipped b) = blocks := by
      refine List.filter_sublist.eq_of_length ?_
      rw [hloaded.length_eq, hsame.length_eq]
    rw [hkept] at hloaded hall
    refine ⟨?_, fun b hb => ?_⟩
    · rw [hall.length_eq]
      rcases hnew with rfl | hnew
      · norm_num
      · omega
    · have hnot : ¬ skipped b = true := by
        have hmem : b ∈ blocks.filter (fun b => ¬ skipped b) := by rwa [hkept]
        simpa using (List.mem_filter.mp hmem).2
      have hcounts := ((forall₂_and_left _ _).mp (hloaded.mp (fun b b' hload hsame =>
        (⟨?_, hsame⟩ : (b.hashesCount = 0 ∧ b.flagsLen = 0) ∧ SameBlock b b')) hsame)).1
      · have hzero := hcounts b hb
        exact ⟨hzero.1, hzero.2,
          fun h => hnot ((skipped_iff (hblocks b hb).1 (hblocks b hb).2).mpr h)⟩
      · obtain ⟨hashes, flags, rfl⟩ := hload
        exact ⟨hsame.hashesCount.symm, hsame.flagsLen.symm⟩
  · rintro ⟨hlen, hempty⟩
    have hroom : 0 + blocks.length < 2 ^ 31 := by omega
    obtain ⟨table', hsave⟩ := saveLoop_returns (fun _ h => absurd h List.not_mem_nil) hroom
      (fun b hb => by
        obtain ⟨hhashes, hflags, -⟩ := hempty b hb
        rw [hhashes, hflags]
        norm_num)
    refine ⟨table', hsave, ?_⟩
    obtain ⟨new, hrows, -, hall⟩ := saveLoop_committed hsave
    have hkept : blocks.filter (fun b => ¬ skipped b) = blocks := by
      refine List.filter_eq_self.mpr (fun b hb => ?_)
      have hnot : ¬ skipped b = true := fun h => (hempty b hb).2.2
        ((skipped_iff (hblocks b hb).1 (hblocks b hb).2).mp h)
      simpa using hnot
    rw [hkept] at hall
    rw [loadBlocks, hrows, List.nil_append]
    refine ((forall₂_and_left _ _).mpr ⟨hempty, loadBlocks_stored hblocks hall⟩).imp ?_
    rintro b b' ⟨⟨hhashes, hflags, -⟩, hashes, flags, rfl⟩
    constructor <;> first | rfl | simp [hhashes, hflags]

section Sample

/-- A block of 2024 with one hash and one byte of flags. -/
def sampleBlock : BRBlockRef where
  height := 100
  nonce := 7
  target := 0x1d00ffff
  totalTx := 1
  version := 1
  timestamp := 1704067200
  blockHash := 1
  merkleRoot := 2
  prevBlock := 3
  hashes := [2]
  hashesCount := 1
  flags := [1]
  flagsLen := 1

/-- Its hash and its flags are lost. -/
theorem sampleBlock_lost :
    ¬ RoundTrips (fun _ _ => 0) (fun _ _ => 0) {} [sampleBlock] := by
  rintro ⟨table', hsave, hsame⟩
  have hcommitted : saveBlocks (fun _ _ => 0) (fun _ _ => 0) {} true [some sampleBlock] =
      .committed ⟨[storedRow (fun _ _ => 0) (fun _ _ => 0) 1 sampleBlock], 1⟩ := by
    decide +kernel
  have heq := SaveBlocksOutcome.committed.inj (hsave.symm.trans hcommitted)
  rw [heq] at hsame
  cases hsame with
  | cons h _ => exact absurd h.hashesCount (by decide)

/-- A header alone comes back. -/
theorem roundTrips_header :
    RoundTrips (fun _ _ => 0) (fun _ _ => 0) {}
      [{ sampleBlock with hashes := [], hashesCount := 0, flags := [], flagsLen := 0 }] := by
  refine (roundTrips_iff _ _ _ ?_).mpr ⟨by decide, ?_⟩
  · intro b hb
    rw [List.mem_singleton.mp hb]
    decide
  · intro b hb
    rw [List.mem_singleton.mp hb]
    exact ⟨rfl, rfl, fun h => absurd h.1 (by decide)⟩

end Sample

end BlockTable

end BreadwalletCore
